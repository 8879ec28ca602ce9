-- SUMMARY: Elaboration never gives a signal two drivers and never blames itself (`elaborate_single_drivers`).
import NandHdl.Proofs.Elaboration.SafeValues
import NandHdl.Proofs.Elaboration.Top

/-!
# Single drivers

Everything that elaboration does is a safe step: it goes on to a draft in which all signals are
accounted for, or it refuses the program. An instance gets known signals only, by its parameters,
its outputs and the names of its caller, and it may hand any of them on. The caller takes its own
scope up again after the body, and all signals in it are still known.

The netlist of the last draft therefore passes validation.
-/

namespace NandHdl

variable {cx : Context} {d : Draft} {inst : Instance}

/-! ## Instances -/

theorem aliasFrom_safe (hd : d.Accounted) (name : String) (start : Nat) {bits : Bits}
    (hbits : ∀ id ∈ bits, d.Known id) :
    (aliasBits.aliasFrom name start bits).Safe d fun _ _ => True := by
  induction bits generalizing d start with
  | nil => exact Elab.safe_pure hd trivial
  | cons id rest ih =>
    rw [List.forall_mem_cons] at hbits
    apply (Elab.addAlias_safe hd _ hbits.1).bind
    rintro - d₁ h₁ -
    exact ih h₁.accounted _ (h₁.known_all hbits.2)

theorem aliasBits_safe (hd : d.Accounted) (name : String) {bits : Bits}
    (hbits : ∀ id ∈ bits, d.Known id) : (aliasBits name bits).Safe d fun _ _ => True := by
  unfold aliasBits
  split
  · exact Elab.safe_pure hd trivial
  · exact Elab.addAlias_safe hd name (hbits _ List.mem_cons_self)
  · exact aliasFrom_safe hd name 0 hbits

theorem resize_known (hd : d.Accounted) {bits : Bits} (hbits : ∀ id ∈ bits, d.Known id)
    (width : Nat) : ∀ id ∈ resize bits width, d.Known id := by
  intro id hid
  obtain ⟨i, -, rfl⟩ := List.mem_map.1 hid
  exact hd.getD_known hbits i

/-- A target gets further bits. -/
theorem widen_safe (hd : d.Accounted) (target : String) (owner : InstanceId) (names : List String)
    {bits : Bits} (hbits : ∀ id ∈ bits, d.Known id) :
    Elab.Safe (do
      let bits := bits ++ (← Elab.newSignals owner names)
      Elab.modifyScope (·.bind target bits)
      return bits) d fun bits d' => ∀ id ∈ bits, d'.Known id := by
  apply (Elab.newSignals_safe hd _ _).bind
  intro more d₁ h₁ hmore
  have hall := List.forall_mem_append.2 ⟨h₁.known_all hbits, hmore⟩
  apply (Elab.modifyScope_safe h₁.accounted (h₁.accounted.scope_known.bind target hall)).bind
  rintro - d₂ h₂ -
  exact Elab.safe_pure h₂.accounted (h₂.known_all hall)

theorem firstOutputBits_safe (hd : d.Accounted) (target : String) (width : Nat) :
    (firstOutputBits target width inst).Safe d fun bits d' => ∀ id ∈ bits, d'.Known id := by
  unfold firstOutputBits
  apply (Elab.bitsOf_safe hd target).bind
  intro bits d₁ h₁ hbits
  apply Elab.meets_scope_bind
  split
  · exact Elab.safe_pure h₁.accounted fun id hid => hbits id (List.mem_of_mem_take hid)
  · dsimp only
    split
    · apply (Elab.newSignals_safe h₁.accounted _ _).bind
      intro more d₂ h₂ hmore
      apply Elab.safe_pure h₂.accounted
      exact List.forall_mem_append.2 ⟨h₂.known_all hbits, hmore⟩
    · split
      · next id _ =>
        apply (Elab.addAlias_safe h₁.accounted _ (hbits id List.mem_cons_self)).bind
        rintro - d₂ h₂ -
        exact widen_safe h₂.accounted target _ _ (h₂.known_all hbits)
      · exact widen_safe h₁.accounted target _ _ hbits

theorem bindParams_safe (hd : d.Accounted) {child : Scope} (hchild : child.All d.Known)
    (params : List Port) {args : List Bits} (hargs : ∀ bits ∈ args, ∀ id ∈ bits, d.Known id) :
    (bindParams inst child params args).Safe d fun child' d' => child'.All d'.Known := by
  induction params generalizing d child args with
  | nil => exact Elab.safe_pure hd hchild
  | cons p params ih =>
    cases args with
    | nil => exact Elab.safe_pure hd hchild
    | cons arg args =>
      rw [List.forall_mem_cons] at hargs
      have hbits := resize_known hd hargs.1 (max 1 p.width)
      apply (aliasBits_safe hd _ hbits).bind
      rintro - d₁ h₁ -
      have hbound := (h₁.known_scope hchild).bind p.name (h₁.known_all hbits)
      have hrest : ∀ bits ∈ args, ∀ id ∈ bits, d₁.Known id := fun bits hmem =>
        h₁.known_all (hargs.2 bits hmem)
      exact ih h₁.accounted (hbound.addPort p.name) hrest

theorem bindFirst_safe (hd : d.Accounted) {child : Scope} (hchild : child.All d.Known)
    (m : ModuleDecl) {first : Bits} (hfirst : ∀ id ∈ first, d.Known id) :
    (bindFirst m inst child first).Safe d fun child' d' => child'.All d'.Known := by
  unfold bindFirst
  split
  · exact Elab.safe_pure hd hchild
  · next out _ _ =>
    apply (aliasBits_safe hd _ hfirst).bind
    rintro - d₁ h₁ -
    have hbound := (h₁.known_scope hchild).bind out.name (h₁.known_all hfirst)
    exact Elab.safe_pure h₁.accounted (hbound.addPort out.name)

/-- A further output is bound in two scopes: in that of the instance and, as a member of the target,
in that of the caller. -/
theorem bindOutputs_safe (hd : d.Accounted) (target callerPrefix : String) {child : Scope}
    (hchild : child.All d.Known) (outs : List Port) :
    (bindOutputs target callerPrefix inst child outs).Safe d
      fun child' d' => child'.All d'.Known := by
  induction outs generalizing d child with
  | nil => exact Elab.safe_pure hd hchild
  | cons out rest ih =>
    apply (Elab.newSignals_safe hd _ _).bind
    intro bits d₁ h₁ hbits
    apply (aliasBits_safe h₁.accounted _ hbits).bind
    rintro - d₂ h₂ -
    have hbits₂ := h₂.known_all hbits
    apply (Elab.modifyScope_safe h₂.accounted (h₂.accounted.scope_known.bind _ hbits₂)).bind
    rintro - d₃ h₃ -
    have hchild₃ := h₃.known_scope (h₂.known_scope (h₁.known_scope hchild))
    exact ih h₃.accounted ((hchild₃.bind out.name (h₃.known_all hbits₂)).addPort out.name)

theorem instanceTarget_safe (hd : d.Accounted) (m : ModuleDecl) (id : InstanceId) (width : Nat)
    (target : Option String) : (instanceTarget m id width target).Safe d fun _ _ => True := by
  cases target with
  | some target => exact Elab.safe_pure hd trivial
  | none =>
    apply (Elab.safe_discard (Elab.declare_safe hd _ width)).bind
    rintro - d₁ h₁ -
    exact Elab.safe_pure h₁.accounted trivial

theorem firstOutput_safe (hd : d.Accounted) (m : ModuleDecl) (target : String) :
    (firstOutput m target inst).Safe d fun bits d' => ∀ id ∈ bits, d'.Known id := by
  unfold firstOutput
  split
  · exact Elab.safe_pure hd nofun
  · exact firstOutputBits_safe hd target _

/-- An instance starts with known signals only. -/
theorem openInstance_safe (hd : d.Accounted) (m : ModuleDecl) {args : List Bits}
    (hargs : ∀ bits ∈ args, ∀ id ∈ bits, d.Known id) (target : Option String) :
    (openInstance m args target).Safe d
      fun opened d' => (∀ id ∈ opened.1, d'.Known id) ∧ opened.2.All d'.Known := by
  apply Elab.meets_scope_bind
  apply Elab.meets_get_bind
  apply (Elab.addInstance_safe hd _ _ _).bind
  rintro - d₁ h₁ -
  apply (instanceTarget_safe h₁.accounted m _ _ target).bind
  rintro target d₂ h₂ -
  apply (firstOutput_safe h₂.accounted m target).bind
  intro first d₃ h₃ hfirst
  apply Elab.meets_scope_bind
  have hargs₃ : ∀ bits ∈ args, ∀ id ∈ bits, d₃.Known id := fun bits hbits =>
    h₃.known_all (h₂.known_all (h₁.known_all (hargs bits hbits)))
  have hchild := h₃.accounted.scope_known.child
  apply (bindParams_safe h₃.accounted (hchild _ _ _) m.params hargs₃).bind
  intro child d₄ h₄ hchild
  apply (bindFirst_safe h₄.accounted hchild m (h₄.known_all hfirst)).bind
  intro child d₅ h₅ hchild
  apply (bindOutputs_safe h₅.accounted target _ hchild (m.outputs.drop 1)).bind
  intro child d₆ h₆ hchild
  exact Elab.safe_pure h₆.accounted
    ⟨h₆.known_all (h₅.known_all (h₄.known_all hfirst)), hchild⟩

/-- The caller takes up its scope again after the body. -/
theorem instantiate_safe {body : Elab Unit}
    (hbody : ∀ {d : Draft}, d.Accounted → body.Safe d fun _ _ => True) (hd : d.Accounted)
    (m : ModuleDecl) {args : List Bits} (hargs : ∀ bits ∈ args, ∀ id ∈ bits, d.Known id)
    (target : Option String) :
    (instantiate m args target body).Safe d fun bits d' => ∀ id ∈ bits, d'.Known id := by
  apply (openInstance_safe hd m hargs target).bind
  rintro ⟨first, child⟩ d₁ h₁ ⟨hfirst, hchild⟩
  apply Elab.meets_scope_bind
  apply (Elab.modifyScope_safe h₁.accounted hchild).bind
  rintro - d₂ h₂ -
  apply (hbody h₂.accounted).bind
  rintro - d₃ h₃ -
  have hcaller := h₃.known_scope (h₂.known_scope h₁.accounted.scope_known)
  apply (Elab.modifyScope_safe h₃.accounted hcaller).bind
  rintro - d₄ h₄ -
  exact Elab.safe_pure h₄.accounted (h₄.known_all (h₃.known_all (h₂.known_all hfirst)))

/-! ## Bodies -/

theorem declareTargets_safe (hd : d.Accounted) (widths : NameMap Nat) (declared : NameSet)
    (statements : List Statement) :
    (declareTargets widths declared statements).Safe d fun _ _ => True := by
  induction statements generalizing d declared with
  | nil => exact Elab.safe_pure hd trivial
  | cons s rest ih =>
    apply Elab.meets_scope_bind
    split
    · exact ih hd declared
    · apply (Elab.safe_discard (Elab.declare_safe hd s.target _)).bind
      rintro - d₁ h₁ -
      exact ih h₁.accounted _

theorem elaborateStatement_safe (hcx : cx.Safe) (hd : d.Accounted) (s : Statement) :
    (elaborateStatement cx s).Safe d fun _ _ => True := by
  apply (s.bits_safe hcx hd).bind
  intro src d₁ h₁ hsrc
  apply (Elab.bitsOf_safe h₁.accounted s.target).bind
  intro dst d₂ h₂ hdst
  exact Elab.wire_safe h₂.accounted (h₂.known_all hsrc) hdst

theorem elaborateStatements_safe (hcx : cx.Safe) (hd : d.Accounted) (statements : List Statement) :
    (elaborateStatements cx statements).Safe d fun _ _ => True := by
  induction statements generalizing d with
  | nil => exact Elab.safe_pure hd trivial
  | cons s rest ih =>
    apply (elaborateStatement_safe hcx hd s).bind
    rintro - d₁ h₁ -
    exact ih h₁.accounted

theorem declareBody_safe (hd : d.Accounted) (cx : Context) (statements : List Statement) :
    (declareBody cx statements).Safe d fun _ _ => True :=
  Elab.meets_scope_bind (declareTargets_safe hd _ {} statements)

theorem elaborateBody_safe (hcx : cx.Safe) (hd : d.Accounted) (statements : List Statement) :
    (elaborateBody cx statements).Safe d fun _ _ => True := by
  apply (declareBody_safe hd cx statements).bind
  rintro - d₁ h₁ -
  exact elaborateStatements_safe hcx h₁.accounted statements

/-- However deep modules may be nested, expanding one is safe. -/
theorem contextAt_safe (program : Program) (limit depth : Nat) :
    (contextAt program limit depth).Safe := by
  induction depth with
  | zero => exact nofun
  | succ depth ih =>
    rintro expand ⟨⟩ d m args target hd hargs
    exact instantiate_safe (fun hd => elaborateBody_safe ih hd m.statements) hd m hargs target

/-! ## Programs -/

/-- The constants are driven, and nothing else is there yet. -/
theorem Draft.accounted_constants (top : String) : (Draft.constants top).Accounted := by
  have hempty : (Netlist.empty top).RefersBelow 0 := by
    constructor <;> simp [Netlist.empty, Netlist.signalId?]
  have hdrivers : (Draft.constants top).netlist.drivers = [zeroId, oneId] := rfl
  have hzero : (Draft.constants top).Known zeroId := ⟨Nat.zero_lt_two, fun _ => rfl⟩
  have hone : (Draft.constants top).Known oneId := ⟨Nat.one_lt_two, fun _ => rfl⟩
  have hall : ∀ id ∈ [zeroId, oneId], (Draft.constants top).Known id :=
    List.forall_mem_cons.2 ⟨hzero, List.forall_mem_singleton.2 hone⟩
  have htop : (Scope.top top).All (Draft.constants top).Known := by
    intro name id hid
    simp [Scope.top, Scope.lookup?] at hid
  constructor
  case driven_size => rfl
  case refers => exact (hempty.addSignal _ _).addSignal _ _
  case drivers_lt => exact hdrivers ▸ fun i hi => (hall i hi).lt
  case drivers_nodup => exact hdrivers ▸ by decide
  case zero_driven => rfl
  case one_driven => rfl
  case marked =>
    intro i hi
    obtain ⟨s, hs, -⟩ := hi.of_addSignal.of_addSignal
    simp [Netlist.empty] at hs
  case scope_known =>
    exact (htop.bind zeroName (List.forall_mem_singleton.2 hzero)).bind oneName
      (List.forall_mem_singleton.2 hone)

/-- An input is driven from outside. That is said in the netlist first and then in the table. -/
theorem markInputs_safe (hd : d.Accounted) {bits : Bits} (hbits : ∀ id ∈ bits, d.Known id) :
    (markInputs bits).Safe d fun _ _ => True := by
  induction bits generalizing d with
  | nil => exact Elab.safe_pure hd trivial
  | cons id rest ih =>
    obtain ⟨hid, hrest⟩ := List.forall_mem_cons.1 hbits
    obtain ⟨n, hn, hsize, hrefers, hdrivers, hdffs, hmarked⟩ :=
      Netlist.addPrimaryInput_ok hd.refers hid.lt
    apply Elab.meets_get_bind
    apply Elab.meets_ofChecked_bind hn
    -- Between the two steps the netlist has a driver that the table does not know of.
    apply Elab.Meets.bind (P := fun _ d' => d' = { d with netlist := n })
      (Elab.meets_modifyNetlist rfl)
    rintro - d₁ rfl
    have hlt : id < d.driven.size := hd.driven_size ▸ hid.lt
    apply (Elab.claimDriver_meets (d := { d with netlist := n }) hlt (hsize ▸ hid.lt)).bind
    rintro - d₂ ⟨rfl, hfree⟩
    obtain ⟨hclaim, hclaimed⟩ := hd.onward_claim hid.lt
    have hundriven : id ∉ d.netlist.drivers := hid.not_mem_drivers hfree
    have honward : d.Onward (Draft.claim { d with netlist := n } id) :=
      hd.onward_driver hclaim rfl hsize hrefers (fun i hi => hdffs ▸ hd.marked i (hmarked i hi))
        hdrivers hundriven hid.lt (.inl hclaimed)
    apply Elab.Meets.mono (ih honward.accounted (honward.known_all hrest))
    rintro - d₃ ⟨h₃, -⟩
    exact ⟨honward.trans h₃, trivial⟩

theorem markOutputs_safe (hd : d.Accounted) {bits : Bits} (hbits : ∀ id ∈ bits, d.Known id) :
    (markOutputs bits).Safe d fun _ _ => True := by
  induction bits generalizing d with
  | nil => exact Elab.safe_pure hd trivial
  | cons id rest ih =>
    obtain ⟨hid, hrest⟩ := List.forall_mem_cons.1 hbits
    obtain ⟨n, hn, hsize, hrefers, hdrivers, hdffs, hmarked⟩ :=
      Netlist.addPrimaryOutput_ok hd.refers hid.lt
    have honward := hd.onward_netlist hsize hdrivers hdffs hrefers hmarked
    apply Elab.meets_get_bind
    apply Elab.meets_ofChecked_bind hn
    apply (Elab.modifyNetlist_safe (f := fun _ => n) honward).bind
    rintro - d₁ h₁ -
    exact ih h₁.accounted (h₁.known_all hrest)

/-- The clock is a known signal or none. -/
theorem noteClock_safe (hd : d.Accounted) {bits : Bits} (hbits : ∀ id ∈ bits, d.Known id) :
    (Elab.modifyNetlist fun n => { n with clock := bits.head? }).Safe d fun _ _ => True := by
  apply Elab.modifyNetlist_safe
  refine hd.onward_netlist rfl rfl rfl ?_ fun _ hi => hi
  refine ⟨hd.refers.gate_lt, hd.refers.dff_lt, hd.refers.port_lt, hd.refers.name_lt, fun s hs => ?_⟩
  exact (hbits s (List.mem_of_mem_head? hs)).lt

theorem addPort_safe (hd : d.Accounted) (name : String) :
    (Elab.modifyScope (·.addPort name)).Safe d fun _ _ => True :=
  Elab.modifyScope_safe hd (hd.scope_known.addPort name)

theorem declareInputs_safe (hd : d.Accounted) (ports : List Port) :
    (declareInputs ports).Safe d fun _ _ => True := by
  induction ports generalizing d with
  | nil => exact Elab.safe_pure hd trivial
  | cons p rest ih =>
    apply (Elab.declare_safe hd p.name p.width).bind
    intro bits d₁ h₁ hbits
    apply (markInputs_safe h₁.accounted hbits).bind
    rintro - d₂ h₂ -
    have hrest : ∀ {d : Draft}, d.Accounted → Elab.Safe (do
        Elab.modifyScope (·.addPort p.name)
        declareInputs rest) d fun _ _ => True := by
      intro d hd
      apply (addPort_safe hd p.name).bind
      rintro - d₃ h₃ -
      exact ih h₃.accounted
    split
    · apply (noteClock_safe h₂.accounted (h₂.known_all hbits)).bind
      rintro - d₃ h₃ -
      exact hrest h₃.accounted
    · exact hrest h₂.accounted

theorem declareOutputs_safe (hd : d.Accounted) (ports : List Port) :
    (declareOutputs ports).Safe d fun _ _ => True := by
  induction ports generalizing d with
  | nil => exact Elab.safe_pure hd trivial
  | cons p rest ih =>
    apply (Elab.declare_safe hd p.name p.width).bind
    intro bits d₁ h₁ hbits
    apply (markOutputs_safe h₁.accounted hbits).bind
    rintro - d₂ h₂ -
    apply (addPort_safe h₂.accounted p.name).bind
    rintro - d₃ h₃ -
    exact ih h₃.accounted

theorem openTop_meets (m : ModuleDecl) (top : String) :
    (openTop m).Meets (.empty top) fun _ d' => d'.Accounted := by
  have hassoc : openTop m =
      ((do declareConstant zeroName; declareConstant oneName) >>= fun _ =>
        (do declareInputs m.params; declareOutputs m.outputs)) := by
    rw [openTop, bind_assoc]
  have hconstants := Elab.meets_of_run (Q := fun _ d' => d' = .constants top)
    (declareConstants_run top) rfl
  have hports : Elab.Safe (do declareInputs m.params; declareOutputs m.outputs) (.constants top)
      fun _ _ => True := by
    apply (declareInputs_safe (Draft.accounted_constants top) m.params).bind
    rintro - d₁ h₁ -
    exact declareOutputs_safe h₁.accounted m.outputs
  rw [hassoc]
  apply hconstants.bind
  rintro - d rfl
  exact Elab.Meets.mono hports fun _ _ h => h.1.accounted

theorem elaborateTop_meets (hcx : cx.Safe) (m : ModuleDecl) (top : String) :
    (elaborateTop cx m).Meets (.empty top) fun _ d' => d'.Accounted := by
  apply (openTop_meets m top).bind
  rintro - d hd
  exact Elab.Meets.mono (elaborateBody_safe hcx hd m.statements) fun _ _ h => h.1.accounted

/-- What the elaboration of the top module leads to is the netlist: it is well formed. -/
theorem elaborate_of_run {program : Program} {top : String} {config : ElabConfig} {m : ModuleDecl}
    {d : Draft} (hfind : program.find? top = some m)
    (hrun : (elaborateTop (contextAt program config.maxInlineDepth config.maxInlineDepth) m).run
      (.empty top) = .ok ((), d)) :
    d.Accounted ∧ elaborate program top config = .ok d.netlist := by
  have htop := (elaborateTop_meets
    (contextAt_safe program config.maxInlineDepth config.maxInlineDepth) m top).of_run hrun
  refine ⟨htop, ?_⟩
  unfold elaborate
  simp only [hfind, hrun, Except.ok_bind, Netlist.validate_eq_ok.2 htop.wellformed]
  rfl

theorem elaborate_of_run_error {program : Program} {top : String} {config : ElabConfig}
    {m : ModuleDecl} {e : ElabError} (hfind : program.find? top = some m)
    (hrun : (elaborateTop (contextAt program config.maxInlineDepth config.maxInlineDepth) m).run
      (.empty top) = .error e) : elaborate program top config = .error e := by
  unfold elaborate
  simp only [hfind, hrun]
  rfl

/-- Elaboration ends with a netlist whose signals are all accounted for, or with a refusal. -/
theorem elaborate_accounted (program : Program) (top : String) (config : ElabConfig) :
    (∃ d : Draft, d.Accounted ∧ elaborate program top config = .ok d.netlist) ∨
      ∃ e : ElabError, e.IsRefusal ∧ elaborate program top config = .error e := by
  cases hfind : program.find? top with
  | none =>
    refine .inr ⟨.missingTopModule top, trivial, ?_⟩
    unfold elaborate
    rw [hfind]
    rfl
  | some m =>
    have htop := elaborateTop_meets
      (contextAt_safe program config.maxInlineDepth config.maxInlineDepth) m top
    unfold Elab.Meets at htop
    split at htop
    · next d hrun => exact .inl ⟨d, elaborate_of_run hfind hrun⟩
    · next e hrun => exact .inr ⟨e, htop, elaborate_of_run_error hfind hrun⟩

/-! ## Counting drivers -/

namespace Netlist

/-- How many drivers a signal has among the gates, the flip-flops, the inputs of the circuit and the
constants. -/
def driverCount (n : Netlist) (s : SignalId) : Nat :=
  n.gates.toList.countP (·.out = s) + n.dffs.toList.countP (·.q = s) +
    n.primaryInputs.toList.count s + if s = zeroId ∨ s = oneId then 1 else 0

theorem driverCount_eq (n : Netlist) (s : SignalId) : n.driverCount s = n.drivers.count s := by
  have hconstants : [zeroId, oneId].count s = if s = zeroId ∨ s = oneId then 1 else 0 := by
    by_cases hzero : s = zeroId
    · subst hzero
      rfl
    · by_cases hone : s = oneId
      · subst hone
        rfl
      · simp [hzero, hone, List.count_eq_zero]
  have hdffs : (n.dffs.toList.map Dff.q).count s = n.dffs.toList.countP (·.q = s) := by
    rw [List.count, List.countP_map]
    rfl
  have hgates : (n.gates.toList.map NandGate.out).count s = n.gates.toList.countP (·.out = s) := by
    rw [List.count, List.countP_map]
    rfl
  have hdrivers : n.drivers = [zeroId, oneId] ++ (n.primaryInputs.toList ++ n.drivenSignals) := rfl
  rw [driverCount, hdrivers, List.count_append, List.count_append, drivenSignals, List.count_append,
    hconstants, hdffs, hgates]
  omega

end Netlist

/-- No signal of an elaborated netlist has two drivers, and every reference in it is to one of its
signals. Elaboration reports no defect of its own: neither a netlist that fails validation nor an
access past the end of a table. -/
theorem elaborate_single_drivers (program : Program) (top : String) (config : ElabConfig) :
    (∀ e, elaborate program top config ≠ .error (.netlist e)) ∧
      (∀ f, elaborate program top config ≠ .error (.fault f)) ∧
      ∀ n, elaborate program top config = .ok n →
        (∀ s, n.driverCount s ≤ 1) ∧ n.RefersBelow n.signals.size := by
  rcases elaborate_accounted program top config with ⟨d, hd, he⟩ | ⟨e, hrefusal, he⟩
  · rw [he]
    refine ⟨nofun, nofun, ?_⟩
    rintro n ⟨⟩
    refine ⟨fun s => ?_, hd.refers⟩
    rw [Netlist.driverCount_eq]
    exact List.nodup_iff_count_le_one.1 hd.drivers_nodup s
  · rw [he]
    refine ⟨?_, ?_, nofun⟩
    · rintro e' ⟨⟩
      exact hrefusal
    · rintro f ⟨⟩
      exact hrefusal

/-- A module with two outputs that is instantiated for a target and inside an expression. -/
def tappedTwice : Program where
  modules := [
    { name := "tap"
      params := [{ name := "a", width := 2 }]
      outputs := [{ name := "o" }, { name := "c", width := 2 }]
      statements := [
        { target := "o", expr := .index (.ident "a") 1 },
        { target := "c", expr := .ident "a" }] },
    { name := "top"
      params := [{ name := "x" }, { name := "clk" }]
      outputs := [{ name := "y", width := 2 }]
      statements := [
        { target := "p", expr := .call "tap" [.concat [.ident "x", .ident "q"]] },
        { target := "q", expr := .call dffName [.call "tap" [.ident "x"], .ident "clk"] },
        { target := "y", expr := .member (.ident "p") "c" }] }]

theorem elaborate_single_drivers_tappedTwice :
    ∃ n, elaborate tappedTwice "top" {} = .ok n ∧ (∀ s, n.driverCount s ≤ 1) ∧
      n.RefersBelow n.signals.size := by
  have hok : (elaborate tappedTwice "top" {}).toBool = true := by decide +kernel
  cases he : elaborate tappedTwice "top" {} with
  | error e =>
    rw [he] at hok
    exact nomatch hok
  | ok n =>
    obtain ⟨-, -, hn⟩ := elaborate_single_drivers tappedTwice "top" {}
    exact ⟨n, rfl, hn n he⟩

end NandHdl
