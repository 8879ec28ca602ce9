-- SUMMARY: What opening an instance leads to (`Opened`): where its ports are bound, and what the caller gets to see.
import NandHdl.Elaboration.Body
import NandHdl.Proofs.Elaboration.Meaning

/-!
# Opening instances

The scope of an instance binds exactly the ports of its module: parameters to the bits of the
arguments, outputs to the signals that the caller sees. The caller's own names keep their bits. This
rests on the target of the call being wide enough, or a port.
-/

namespace NandHdl

/-! ## Several bindings -/

namespace Scope

/-- Binds several names. -/
def bindAll (s : Scope) : List (String × Bits) → Scope
  | [] => s
  | (name, bits) :: rest => (s.bind name bits).bindAll rest

/-- Binds several names from outside. -/
def bindPorts (s : Scope) (l : List (String × Bits)) : Scope :=
  (l.map Prod.fst).foldl addPort (s.bindAll l)

/-- Two scopes of one body that agree on the bits of some names. -/
structure AgreesOn (P : String → Prop) (s s' : Scope) : Prop where
  ports_eq : s'.ports = s.ports
  owner_eq : s'.owner = s.owner
  bits?_eq : ∀ {x : String}, P x → s'.bits? x = s.bits? x

variable {P Q : String → Prop} {s s' s'' : Scope} {l : List (String × Bits)} {x : String}

theorem AgreesOn.refl (P : String → Prop) (s : Scope) : s.AgreesOn P s := ⟨rfl, rfl, fun _ => rfl⟩

theorem AgreesOn.trans (h : s.AgreesOn P s') (h' : s'.AgreesOn P s'') : s.AgreesOn P s'' where
  ports_eq := h'.ports_eq.trans h.ports_eq
  owner_eq := h'.owner_eq.trans h.owner_eq
  bits?_eq hx := (h'.bits?_eq hx).trans (h.bits?_eq hx)

theorem AgreesOn.weaken (h : s.AgreesOn P s') (hPQ : ∀ x, Q x → P x) : s.AgreesOn Q s' :=
  ⟨h.ports_eq, h.owner_eq, fun hx => h.bits?_eq (hPQ _ hx)⟩

theorem AgreesOn.isPort_eq (h : s.AgreesOn P s') (x : String) : s'.isPort x = s.isPort x := by
  rw [isPort, isPort, h.ports_eq]

theorem bind_agreesOn {name : String} (hname : Unindexed name) (bits : Bits) :
    s.AgreesOn (fun x => Unindexed x ∧ name ≠ x) (s.bind name bits) where
  ports_eq := by
    match bits with
    | [] => rfl
    | [_] => rfl
    | _ :: _ :: _ => rfl
  owner_eq := by
    match bits with
    | [] => rfl
    | [_] => rfl
    | _ :: _ :: _ => rfl
  bits?_eq hx := bits?_bind_of_ne hx.1 hname hx.2 bits

theorem bindAll_agreesOn (hl : ∀ b ∈ l, Unindexed b.1) :
    s.AgreesOn (fun x => Unindexed x ∧ x ∉ l.map Prod.fst) (s.bindAll l) := by
  induction l generalizing s with
  | nil => exact .refl _ s
  | cons b rest ih =>
    obtain ⟨hb, hrest⟩ := List.forall_mem_cons.1 hl
    refine ((bind_agreesOn hb b.2).weaken ?_).trans ((ih hrest).weaken ?_)
    · rintro x ⟨hx, hmem⟩
      exact ⟨hx, fun heq => hmem (heq ▸ List.mem_cons_self)⟩
    · rintro x ⟨hx, hmem⟩
      exact ⟨hx, fun hin => hmem (List.mem_cons_of_mem _ hin)⟩

theorem bits?_bindAll (hl : ∀ b ∈ l, Unindexed b.1) (hnodup : (l.map Prod.fst).Nodup)
    {b : String × Bits} (hb : b ∈ l) (hbits : b.2 ≠ []) : (s.bindAll l).bits? b.1 = some b.2 := by
  induction l generalizing s with
  | nil => cases hb
  | cons c rest ih =>
    obtain ⟨hc, hrest⟩ := List.forall_mem_cons.1 hl
    obtain ⟨hnot, hnodup⟩ := List.nodup_cons.1 hnodup
    rcases List.mem_cons.1 hb with rfl | hb
    · exact ((bindAll_agreesOn hrest).bits?_eq ⟨hc, hnot⟩).trans (bits?_bind_self hbits)
    · exact ih hrest hnodup hb

theorem bindAll_addPort (s : Scope) (name : String) (l : List (String × Bits)) :
    (s.addPort name).bindAll l = (s.bindAll l).addPort name := by
  induction l generalizing s with
  | nil => rfl
  | cons b rest ih =>
    obtain ⟨other, bits⟩ := b
    have hbind : (s.addPort name).bind other bits = (s.bind other bits).addPort name := by
      match bits with
      | [] => rfl
      | [_] => rfl
      | _ :: _ :: _ => rfl
    rw [bindAll, hbind, ih]
    rfl

theorem bindPorts_cons (s : Scope) (name : String) (bits : Bits) (l : List (String × Bits)) :
    s.bindPorts ((name, bits) :: l) = ((s.bind name bits).addPort name).bindPorts l := by
  rw [bindPorts, bindPorts, bindAll_addPort]
  rfl

theorem bindPorts_append (s : Scope) (l l' : List (String × Bits)) :
    s.bindPorts (l ++ l') = (s.bindPorts l).bindPorts l' := by
  induction l generalizing s with
  | nil => rfl
  | cons b rest ih =>
    obtain ⟨name, bits⟩ := b
    rw [List.cons_append, bindPorts_cons, ih, bindPorts_cons]

theorem foldl_addPort (names : List String) (s : Scope) :
    (∀ x, (names.foldl addPort s).bits? x = s.bits? x) ∧
      ∀ x, (names.foldl addPort s).isPort x = true ↔ x ∈ names ∨ s.isPort x = true := by
  induction names generalizing s with
  | nil => exact ⟨fun _ => rfl, fun _ => by simp⟩
  | cons name rest ih =>
    obtain ⟨hbits, hport⟩ := ih (s.addPort name)
    refine ⟨hbits, fun x => ?_⟩
    rw [List.foldl_cons, hport, List.mem_cons]
    simp only [addPort, isPort, Std.TreeSet.contains_insert, Bool.or_eq_true, beq_iff_eq,
      Std.LawfulEqCmp.compare_eq_iff_eq]
    tauto

/-- What the binding of each port keeps is kept by all of them. -/
theorem bindPorts_keeps {P : Scope → Prop}
    (hP : ∀ b ∈ l, ∀ s, P s → P ((s.bind b.1 b.2).addPort b.1)) (hs : P s) : P (s.bindPorts l) := by
  induction l generalizing s with
  | nil => exact hs
  | cons b rest ih =>
    obtain ⟨hb, hrest⟩ := List.forall_mem_cons.1 hP
    rw [bindPorts_cons]
    exact ih hrest (hb s hs)

theorem owner_bindPorts (s : Scope) (l : List (String × Bits)) : (s.bindPorts l).owner = s.owner :=
  bindPorts_keeps (P := fun e => e.owner = s.owner)
    (fun b _ e he => (owner_bind e b.1 b.2).trans he) rfl

theorem bits?_bindPorts (x : String) : (s.bindPorts l).bits? x = (s.bindAll l).bits? x :=
  (foldl_addPort _ _).1 x

theorem isPort_bindAll (s : Scope) (l : List (String × Bits)) :
    (s.bindAll l).isPort = s.isPort := by
  induction l generalizing s with
  | nil => rfl
  | cons b rest ih => exact (ih _).trans (isPort_bind s b.1 b.2)

theorem isPort_bindPorts :
    (s.bindPorts l).isPort x = true ↔ x ∈ l.map Prod.fst ∨ s.isPort x = true := by
  rw [bindPorts, (foldl_addPort _ _).2 x, isPort_bindAll]

end Scope

/-! ## Names and signals of an instance -/

variable {d d' : Draft} {inst : Instance}

theorem Draft.Lawful.addAlias (hd : d.Lawful) (name : String) (id : SignalId) :
    d.Adds { d with netlist := d.netlist.addAlias name id } :=
  hd.adds_netlist (hd.numbered.addAlias name id) rfl rfl rfl rfl

theorem Draft.Lawful.addInstance (hd : d.Lawful) (moduleName : String) (parent : InstanceId)
    (namePrefix : String) :
    d.Extends { d with netlist := d.netlist.addInstance moduleName parent namePrefix } where
  netlist := by
    refine ⟨fun _ hg => hg, fun _ hf => hf, fun hi => ?_⟩
    have hlt := (Array.getElem?_eq_some_iff.1 hi).1
    exact (Array.getElem?_push_lt hlt).trans ((Array.getElem?_eq_getElem hlt).symm.trans hi)
  lawful := ⟨hd.numbered.addInstance _ _ _, hd.driven_size, hd.zero_driven, hd.one_driven,
    hd.gate_out⟩

theorem aliasFrom_spec (hd : d.Lawful) {name : String} {start : Nat} {bits : Bits} {u : Unit}
    (h : (aliasBits.aliasFrom name start bits).run d = .ok (u, d')) : d.Adds d' := by
  induction bits generalizing d start with
  | nil =>
    obtain ⟨-, rfl⟩ := Elab.pure_eq_ok.1 h
    exact hd.adds_self
  | cons id rest ih =>
    obtain ⟨_, d₁, hfirst, h⟩ := Elab.bind_eq_ok.1 h
    obtain rfl := Elab.modifyNetlist_eq_ok.1 hfirst
    have hadds := hd.addAlias (bitName name start) id
    exact hadds.trans (ih hadds.lawful h)

theorem aliasBits_spec (hd : d.Lawful) {name : String} {bits : Bits} {u : Unit}
    (h : (aliasBits name bits).run d = .ok (u, d')) : d.Adds d' := by
  unfold aliasBits at h
  split at h
  · obtain ⟨-, rfl⟩ := Elab.pure_eq_ok.1 h
    exact hd.adds_self
  · obtain rfl := Elab.modifyNetlist_eq_ok.1 h
    exact hd.addAlias _ _
  · exact aliasFrom_spec hd h

/-- A target that is wide enough has the bits of the first output. -/
theorem firstOutputBits_of_le {target : String} {width : Nat} {bits first : Bits}
    (hbits : d.scope.bits? target = some bits) (hwidth : width ≤ bits.length)
    (h : (firstOutputBits target width inst).run d = .ok (first, d')) :
    first = bits.take width ∧ d' = d := by
  unfold firstOutputBits at h
  obtain ⟨found, _, hfound, h⟩ := Elab.bind_eq_ok.1 h
  obtain ⟨hfound, rfl⟩ := Elab.bitsOf_eq_ok.1 hfound
  cases hbits.symm.trans hfound
  obtain ⟨_, _, hscope, h⟩ := Elab.bind_eq_ok.1 h
  cases hscope
  rw [if_pos hwidth] at h
  obtain ⟨rfl, rfl⟩ := Elab.pure_eq_ok.1 h
  exact ⟨rfl, rfl⟩

/-- The first output has the width it was declared with. A target that is wide enough, or a port, is
left as it is. -/
theorem firstOutputBits_spec (hd : d.Lawful) {target : String} {width : Nat} {bits first : Bits}
    (hbits : d.scope.bits? target = some bits)
    (hfits : d.scope.isPort target = true ∨ width ≤ bits.length)
    (h : (firstOutputBits target width inst).run d = .ok (first, d')) :
    d.Adds d' ∧ first.length = width := by
  by_cases hwidth : width ≤ bits.length
  · obtain ⟨rfl, rfl⟩ := firstOutputBits_of_le hbits hwidth h
    exact ⟨hd.adds_self, List.length_take_of_le hwidth⟩
  · unfold firstOutputBits at h
    obtain ⟨found, _, hfound, h⟩ := Elab.bind_eq_ok.1 h
    obtain ⟨hfound, rfl⟩ := Elab.bitsOf_eq_ok.1 hfound
    cases hbits.symm.trans hfound
    obtain ⟨_, _, hscope, h⟩ := Elab.bind_eq_ok.1 h
    cases hscope
    have hport := hfits.resolve_right hwidth
    simp only [ge_iff_le, hwidth, if_false, hport, if_true] at h
    obtain ⟨more, d₁, hmore, h⟩ := Elab.bind_eq_ok.1 h
    obtain ⟨rfl, rfl⟩ := Elab.pure_eq_ok.1 h
    obtain ⟨hadds, hlength⟩ := Elab.newSignals_spec hd hmore
    refine ⟨hadds, ?_⟩
    rw [List.length_append, hlength]
    simp only [missingBitNames, List.length_map, List.length_range]
    omega

/-! ## Ports of an instance -/

/-- The bits of the parameters. -/
def paramBits (params : List Port) (args : List Bits) : List (String × Bits) :=
  (params.zip args).map fun (p, arg) => (p.name, resize arg (max 1 p.width))

theorem bindParams_spec (hd : d.Lawful) {child child' : Scope} {params : List Port}
    {args : List Bits} (h : (bindParams inst child params args).run d = .ok (child', d')) :
    d.Adds d' ∧ child' = child.bindPorts (paramBits params args) := by
  induction params generalizing d child args with
  | nil =>
    obtain ⟨rfl, rfl⟩ := Elab.pure_eq_ok.1 h
    exact ⟨hd.adds_self, rfl⟩
  | cons p params ih =>
    cases args with
    | nil =>
      obtain ⟨rfl, rfl⟩ := Elab.pure_eq_ok.1 h
      exact ⟨hd.adds_self, rfl⟩
    | cons arg args =>
      obtain ⟨_, d₁, halias, h⟩ := Elab.bind_eq_ok.1 h
      have hadds := aliasBits_spec hd halias
      obtain ⟨hadds', rfl⟩ := ih hadds.lawful h
      exact ⟨hadds.trans hadds', (Scope.bindPorts_cons _ _ _ _).symm⟩

/-- The first output with its bits, if there is one. -/
def firstBits (m : ModuleDecl) (first : Bits) : List (String × Bits) :=
  match m.outputs with
  | [] => []
  | out :: _ => [(out.name, first)]

theorem bindFirst_spec (hd : d.Lawful) {m : ModuleDecl} {child child' : Scope} {first : Bits}
    (h : (bindFirst m inst child first).run d = .ok (child', d')) :
    d.Adds d' ∧ child' = child.bindPorts (firstBits m first) := by
  unfold bindFirst at h
  unfold firstBits
  cases houts : m.outputs with
  | nil =>
    simp only [houts] at h
    obtain ⟨rfl, rfl⟩ := Elab.pure_eq_ok.1 h
    exact ⟨hd.adds_self, rfl⟩
  | cons out rest =>
    simp only [houts] at h
    obtain ⟨_, d₁, halias, h⟩ := Elab.bind_eq_ok.1 h
    obtain ⟨rfl, rfl⟩ := Elab.pure_eq_ok.1 h
    exact ⟨aliasBits_spec hd halias, rfl⟩

/-- The names under which a caller sees the outputs of an instance. -/
def published (target : String) (outputs : List (String × Bits)) : List (String × Bits) :=
  outputs.map fun out => (memberName target out.1, out.2)

theorem bindOutputs_spec (hd : d.Lawful) {target callerPrefix : String} {child child' : Scope}
    {outs : List Port}
    (h : (bindOutputs target callerPrefix inst child outs).run d = .ok (child', d')) :
    ∃ outputs : List (String × Bits), outputs.map Prod.fst = outs.map Port.name ∧
      (∀ out ∈ outputs, out.2 ≠ []) ∧ child' = child.bindPorts outputs ∧
      d.Rebinds d' (d.scope.bindAll (published target outputs)) := by
  induction outs generalizing d child with
  | nil =>
    obtain ⟨rfl, rfl⟩ := Elab.pure_eq_ok.1 h
    exact ⟨[], rfl, nofun, rfl, hd.adds_self⟩
  | cons out rest ih =>
    obtain ⟨bits, d₁, hbits, h⟩ := Elab.bind_eq_ok.1 h
    obtain ⟨_, d₂, halias, h⟩ := Elab.bind_eq_ok.1 h
    obtain ⟨_, d₃, hscope, h⟩ := Elab.bind_eq_ok.1 h
    obtain rfl := Elab.modifyScope_eq_ok.1 hscope
    obtain ⟨hnew, hlength⟩ := Elab.newSignals_spec hd hbits
    have haliased := aliasBits_spec hnew.lawful halias
    have hadds := hnew.trans haliased
    have hbinds := hadds.lawful.rebinds_self (d₂.scope.bind (memberName target out.name) bits)
    obtain ⟨outputs, hnames, hne, rfl, hrest⟩ := ih hbinds.lawful h
    refine ⟨(out.name, bits) :: outputs, ?_, ?_, ?_, ?_⟩
    · rw [List.map_cons, List.map_cons, hnames]
    · rw [Elab.length_bitNames] at hlength
      exact List.forall_mem_cons.2 ⟨Elab.ne_nil_of_length hlength, hne⟩
    · rw [Scope.bindPorts_cons]
    · rw [hadds.scope_eq] at hbinds hrest
      exact (Draft.Rebinds.trans hadds hbinds).trans hrest

/-! ## Opening -/

/-- The width of the first output of a module. -/
def ModuleDecl.firstWidth (m : ModuleDecl) : Nat :=
  (m.outputs.head?.map fun out => max 1 out.width).getD 0

theorem firstOutput_spec (hd : d.Lawful) {m : ModuleDecl} {target : String} {bits first : Bits}
    (hbits : d.scope.bits? target = some bits)
    (hfits : d.scope.isPort target = true ∨ m.firstWidth ≤ bits.length)
    (h : (firstOutput m target inst).run d = .ok (first, d')) :
    d.Adds d' ∧ first.length = m.firstWidth := by
  unfold firstOutput at h
  unfold ModuleDecl.firstWidth at hfits ⊢
  cases houts : m.outputs with
  | nil =>
    simp only [houts] at h
    obtain ⟨rfl, rfl⟩ := Elab.pure_eq_ok.1 h
    exact ⟨hd.adds_self, rfl⟩
  | cons out rest =>
    simp only [houts, List.head?_cons, Option.map_some, Option.getD_some] at h hfits ⊢
    exact firstOutputBits_spec hd hbits hfits h

/-- The ports of an instance with their bits. -/
structure PortBits (m : ModuleDecl) (args : List Bits) (first : Bits) where
  further : List (String × Bits)
  names_eq : further.map Prod.fst = (m.outputs.drop 1).map Port.name
  further_ne : ∀ out ∈ further, out.2 ≠ []

/-- All ports: the parameters, the first output and the others. -/
def PortBits.all {m : ModuleDecl} {args : List Bits} {first : Bits} (b : PortBits m args first) :
    List (String × Bits) :=
  paramBits m.params args ++ firstBits m first ++ b.further

/-- The instance of `m` that is made next. -/
def Draft.nextInstance (d : Draft) (m : ModuleDecl) : Instance where
  id := d.netlist.instances.size
  moduleName := m.name
  parent := some d.scope.owner
  namePrefix := d.scope.namePrefix ++ m.name ++ "_" ++ toString d.netlist.instances.size ++ "_"

/-- An instance is added to the netlist and gets a target if it has none. Then the ports are bound in
the order of their declaration. -/
theorem openInstance_steps {m : ModuleDecl} {args : List Bits} {target : Option String}
    {first : Bits} {child : Scope}
    (h : (openInstance m args target).run d = .ok ((first, child), d')) :
    ∃ (name : String) (d₁ d₂ d₃ d₄ : Draft) (child₁ child₂ : Scope),
      (instanceTarget m d.netlist.instances.size m.firstWidth target).run
        { d with
          netlist := d.netlist.addInstance m.name d.scope.owner (d.nextInstance m).namePrefix } =
        .ok (name, d₁) ∧
      (firstOutput m name (d.nextInstance m)).run d₁ = .ok (first, d₂) ∧
      (bindParams (d.nextInstance m)
        (d₂.scope.child m.name (d.nextInstance m).namePrefix d.netlist.instances.size)
        m.params args).run d₂ = .ok (child₁, d₃) ∧
      (bindFirst m (d.nextInstance m) child₁ first).run d₃ = .ok (child₂, d₄) ∧
      (bindOutputs name d.scope.namePrefix (d.nextInstance m) child₂ (m.outputs.drop 1)).run d₄ =
        .ok (child, d') := by
  obtain ⟨_, _, hscope, h⟩ := Elab.bind_eq_ok.1 h
  cases hscope
  obtain ⟨_, _, hget, h⟩ := Elab.bind_eq_ok.1 h
  cases hget
  obtain ⟨_, d₀, hadd, h⟩ := Elab.bind_eq_ok.1 h
  obtain rfl := Elab.modifyNetlist_eq_ok.1 hadd
  obtain ⟨name, d₁, htarget, h⟩ := Elab.bind_eq_ok.1 h
  obtain ⟨_, d₂, hfirst, h⟩ := Elab.bind_eq_ok.1 h
  obtain ⟨_, _, hscope, h⟩ := Elab.bind_eq_ok.1 h
  cases hscope
  obtain ⟨child₁, d₃, hparams, h⟩ := Elab.bind_eq_ok.1 h
  obtain ⟨child₂, d₄, hout, h⟩ := Elab.bind_eq_ok.1 h
  obtain ⟨_, d₅, houts, h⟩ := Elab.bind_eq_ok.1 h
  obtain ⟨hresult, rfl⟩ := Elab.pure_eq_ok.1 h
  cases hresult
  exact ⟨name, d₁, d₂, d₃, d₄, child₁, child₂, htarget, hfirst, hparams, hout, houts⟩

/-- The body of an instance is elaborated in the scope that was opened for it, and the caller goes on
with its own. -/
theorem instantiate_eq_ok {m : ModuleDecl} {args : List Bits} {target : Option String}
    {body : Elab Unit} {first : Bits}
    (h : (instantiate m args target body).run d = .ok (first, d')) :
    ∃ child d₁ d₂, (openInstance m args target).run d = .ok ((first, child), d₁) ∧
      body.run { d₁ with scope := child } = .ok ((), d₂) ∧ d' = { d₂ with scope := d₁.scope } := by
  obtain ⟨⟨_, child⟩, d₁, hopen, h⟩ := Elab.bind_eq_ok.1 h
  obtain ⟨_, _, hscope, h⟩ := Elab.bind_eq_ok.1 h
  cases hscope
  obtain ⟨_, _, henter, h⟩ := Elab.bind_eq_ok.1 h
  obtain rfl := Elab.modifyScope_eq_ok.1 henter
  obtain ⟨_, d₂, hbody, h⟩ := Elab.bind_eq_ok.1 h
  obtain ⟨_, _, hleave, h⟩ := Elab.bind_eq_ok.1 h
  obtain rfl := Elab.modifyScope_eq_ok.1 hleave
  obtain ⟨rfl, rfl⟩ := Elab.pure_eq_ok.1 h
  exact ⟨child, d₁, d₂, hopen, hbody, rfl⟩

theorem openInstance_eq_ok (hd : d.Lawful) {m : ModuleDecl} {args : List Bits} {target : String}
    {bits first : Bits} {child : Scope} (hbits : d.scope.bits? target = some bits)
    (hfits : d.scope.isPort target = true ∨ m.firstWidth ≤ bits.length)
    (h : (openInstance m args (some target)).run d = .ok ((first, child), d')) :
    ∃ (b : PortBits m args first) (namePrefix : String),
      child = (d.scope.child m.name namePrefix d.netlist.instances.size).bindPorts b.all ∧
      first.length = m.firstWidth ∧ d.Extends d' ∧
      d'.netlist.instances = d.netlist.instances.push
        { id := d.netlist.instances.size, moduleName := m.name, parent := some d.scope.owner,
          namePrefix } ∧
      d'.scope = d.scope.bindAll (published target b.further) := by
  let namePrefix := (d.nextInstance m).namePrefix
  obtain ⟨_, d₁, d₂, d₃, d₄, _, _, htarget, hfirst, hparams, hout, houts⟩ := openInstance_steps h
  obtain ⟨rfl, rfl⟩ := Elab.pure_eq_ok.1 htarget
  have hinst := hd.addInstance m.name d.scope.owner namePrefix
  obtain ⟨hadds₁, hlength⟩ := firstOutput_spec hinst.lawful hbits hfits hfirst
  obtain ⟨hadds₂, rfl⟩ := bindParams_spec hadds₁.lawful hparams
  obtain ⟨hadds₃, rfl⟩ := bindFirst_spec hadds₂.lawful hout
  obtain ⟨further, hnames, hne, rfl, hcaller⟩ := bindOutputs_spec hadds₃.lawful houts
  have hadds := (hadds₁.trans hadds₂).trans hadds₃
  refine ⟨⟨further, hnames, hne⟩, namePrefix, ?_, hlength, ?_, ?_, ?_⟩
  · rw [PortBits.all, Scope.bindPorts_append, Scope.bindPorts_append, hadds₁.scope_eq]
  · exact hinst.trans (hadds.toExtends.trans hcaller.toExtends)
  · rw [hcaller.instances_eq, hadds.instances_eq]
    rfl
  · rw [hcaller.scope_eq, hadds.scope_eq]

/-- The scope is one in which the body of `m` can be elaborated: exactly the ports of `m` are bound
from outside. -/
structure Scope.Starts (s : Scope) (m : ModuleDecl) : Prop where
  isPort_iff : ∀ x, s.isPort x = true ↔ x ∈ m.portNames
  bound : ∀ x ∈ m.portNames, ∃ bits, s.bits? x = some bits

section

variable {program : Program} {m : ModuleDecl} {s : Scope} {l : List (String × Bits)}

theorem ModuleDecl.Disciplined.unindexed_ports (hm : m.Disciplined program)
    (hnames : l.map Prod.fst = m.portNames) : ∀ b ∈ l, Unindexed b.1 := by
  intro b hb
  have hport : b.1 ∈ m.portNames := hnames ▸ List.mem_map_of_mem hb
  exact (hm.plain b.1 (List.mem_append_left _ hport)).1

/-- A port has the bits it is listed with. -/
theorem Scope.bits?_bindPorts_of_mem (hm : m.Disciplined program)
    (hnames : l.map Prod.fst = m.portNames) (hne : ∀ b ∈ l, b.2 ≠ []) {b : String × Bits}
    (hb : b ∈ l) : (s.bindPorts l).bits? b.1 = some b.2 := by
  rw [bits?_bindPorts]
  exact bits?_bindAll (hm.unindexed_ports hnames) (hnames ▸ hm.ports_nodup) hb (hne b hb)

theorem Scope.starts_bindPorts (hm : m.Disciplined program) (hports : ∀ x, ¬s.isPort x = true)
    (hnames : l.map Prod.fst = m.portNames) (hne : ∀ b ∈ l, b.2 ≠ []) : (s.bindPorts l).Starts m where
  isPort_iff x := by
    rw [isPort_bindPorts, hnames]
    simp [hports x]
  bound x hx := by
    obtain ⟨b, hb, rfl⟩ := List.mem_map.1 (hnames ▸ hx)
    exact ⟨b.2, bits?_bindPorts_of_mem hm hnames hne hb⟩

end

/-- The instance of `m` with the parameters `args` is open: `child` is the scope for its body, and
`d'` is what its caller goes on with. -/
structure Opened (m : ModuleDecl) (target : String) (args : List Bits) (d : Draft) (first : Bits)
    (child : Scope) (d' : Draft) : Prop where
  extends_draft : d.Extends d'
  instances_size : d'.netlist.instances.size = d.netlist.instances.size + 1
  inst : ∃ i, d'.netlist.instances[child.owner]? = some i ∧ i.moduleName = m.name ∧
    i.parent = some d.scope.owner
  owner_eq : child.owner = d.netlist.instances.size
  starts : child.Starts m
  param : ∀ {i : Nat} {p : Port} {arg : Bits}, m.params[i]? = some p → args[i]? = some arg →
    child.bits? p.name = some (resize arg (max 1 p.width))
  first_output : ∀ {out}, m.outputs.head? = some out → child.bits? out.name = some first
  no_output : m.outputs = [] → first = []
  member : ∀ out ∈ m.outputs.drop 1, ∃ bits, child.bits? out.name = some bits ∧
    d'.scope.bits? (memberName target out.name) = some bits
  caller : d.scope.AgreesOn
    (fun x => Unindexed x ∧ ∀ out ∈ m.outputs.drop 1, memberName target out.name ≠ x) d'.scope

namespace PortBits

variable {m : ModuleDecl} {args : List Bits} {first : Bits}

theorem names_all (b : PortBits m args first) (hargs : args.length = m.params.length) :
    b.all.map Prod.fst = m.portNames := by
  have hparams : (paramBits m.params args).map Prod.fst = m.params.map Port.name := by
    have hzip := congrArg (List.map Port.name) (List.map_fst_zip (Nat.le_of_eq hargs.symm))
    rw [List.map_map] at hzip
    rw [paramBits, List.map_map]
    exact hzip
  have houts : (firstBits m first).map Prod.fst ++ b.further.map Prod.fst =
      m.outputs.map Port.name := by
    rw [b.names_eq]
    unfold firstBits
    cases m.outputs <;> rfl
  rw [all, List.map_append, List.map_append, List.append_assoc, houts, hparams,
    ModuleDecl.portNames, List.map_append]

theorem all_ne (b : PortBits m args first) (hfirst : first.length = m.firstWidth) :
    ∀ p ∈ b.all, p.2 ≠ [] := by
  simp only [all, List.mem_append, or_imp, forall_and]
  refine ⟨⟨?_, ?_⟩, b.further_ne⟩
  · intro p hp
    obtain ⟨⟨port, arg⟩, -, rfl⟩ := List.mem_map.1 hp
    exact Elab.ne_nil_of_length (length_resize arg (max 1 port.width))
  · intro p hp
    unfold firstBits at hp
    unfold ModuleDecl.firstWidth at hfirst
    cases houts : m.outputs with
    | nil =>
      rw [houts] at hp
      exact absurd hp List.not_mem_nil
    | cons out rest =>
      rw [houts] at hp hfirst
      obtain rfl := List.mem_singleton.1 hp
      exact Elab.ne_nil_of_length hfirst

end PortBits

section

variable {program : Program} {m : ModuleDecl} {args : List Bits} {first : Bits} {target : String}

theorem further_plain (hm : m.Disciplined program) (b : PortBits m args first) :
    ∀ x ∈ b.further.map Prod.fst, PlainName x := by
  intro x hx
  rw [b.names_eq] at hx
  obtain ⟨out, hout, rfl⟩ := List.mem_map.1 hx
  apply hm.plain
  apply List.mem_append_left
  exact List.mem_map_of_mem (List.mem_append_right _ (List.mem_of_mem_drop hout))

theorem published_unindexed (hm : m.Disciplined program) (htarget : PlainName target)
    (b : PortBits m args first) : ∀ p ∈ published target b.further, Unindexed p.1 := by
  intro p hp
  obtain ⟨out, hout, rfl⟩ := List.mem_map.1 hp
  exact htarget.unindexed_memberName (further_plain hm b _ (List.mem_map_of_mem hout))

theorem published_names (target : String) (b : PortBits m args first) :
    (published target b.further).map Prod.fst =
      (m.outputs.drop 1).map fun out => memberName target out.name := by
  have hnames := congrArg (List.map (memberName target)) b.names_eq
  rw [List.map_map, List.map_map] at hnames
  rw [published, List.map_map]
  exact hnames

theorem published_nodup (hm : m.Disciplined program) (htarget : PlainName target)
    (b : PortBits m args first) : ((published target b.further).map Prod.fst).Nodup := by
  have houts : ((m.outputs.drop 1).map Port.name).Nodup := by
    have hports := hm.ports_nodup
    rw [ModuleDecl.portNames, List.map_append] at hports
    exact (List.nodup_append.1 hports).2.1.sublist ((List.drop_sublist 1 _).map _)
  rw [published, List.map_map]
  rw [← b.names_eq] at houts
  have hinj : ∀ f g : String, memberName target f = memberName target g → f = g := fun f g h =>
    ((memberName_inj htarget htarget).1 h).2
  have := houts.map (f := memberName target) hinj
  rw [List.map_map] at this
  exact this

end

theorem openInstance_opened {program : Program} (hd : d.Lawful) {m : ModuleDecl}
    (hm : m.Disciplined program) {args : List Bits} {target : String} (htarget : PlainName target)
    {bits first : Bits} {child : Scope} (hargs : args.length = m.params.length)
    (hbits : d.scope.bits? target = some bits)
    (hfits : d.scope.isPort target = true ∨ m.firstWidth ≤ bits.length)
    (h : (openInstance m args (some target)).run d = .ok ((first, child), d')) :
    Opened m target args d first child d' := by
  obtain ⟨b, namePrefix, rfl, hlength, hextends, hinstances, hscope⟩ :=
    openInstance_eq_ok hd hbits hfits h
  have hnames := b.names_all hargs
  have hne := b.all_ne hlength
  have howner := Scope.owner_bindPorts
    (d.scope.child m.name namePrefix d.netlist.instances.size) b.all
  refine ⟨hextends, ?_, ?_, howner, ?_, ?_, ?_, ?_, ?_, ?_⟩
  · rw [hinstances, Array.size_push]
  · rw [howner, hinstances]
    exact ⟨_, Array.getElem?_push_size, rfl, rfl⟩
  · exact Scope.starts_bindPorts hm (fun _ => by simp [Scope.child, Scope.isPort]) hnames hne
  · intro i p arg hp harg
    refine Scope.bits?_bindPorts_of_mem (b := (p.name, resize arg (max 1 p.width))) hm hnames hne ?_
    have hzip : (m.params.zip args)[i]? = some (p, arg) :=
      List.getElem?_zip_eq_some.2 ⟨hp, harg⟩
    have hmem := List.mem_map_of_mem (f := fun (p, arg) => (p.name, resize arg (max 1 p.width)))
      (List.mem_of_getElem? hzip)
    exact List.mem_append_left _ (List.mem_append_left _ hmem)
  · intro out hout
    refine Scope.bits?_bindPorts_of_mem (b := (out.name, first)) hm hnames hne ?_
    obtain ⟨rest, houts⟩ := List.head?_eq_some_iff.1 hout
    refine List.mem_append_left _ (List.mem_append_right _ ?_)
    rw [firstBits, houts]
    exact List.mem_singleton_self _
  · intro houts
    rw [ModuleDecl.firstWidth, houts] at hlength
    exact List.length_eq_zero_iff.1 hlength
  · intro out hout
    obtain ⟨p, hp, hname⟩ := List.mem_map.1 (b.names_eq ▸ List.mem_map_of_mem hout)
    refine ⟨p.2, ?_, ?_⟩
    · rw [← hname]
      exact Scope.bits?_bindPorts_of_mem hm hnames hne (List.mem_append_right _ hp)
    · have hmem : (memberName target p.1, p.2) ∈ published target b.further :=
        List.mem_map_of_mem hp
      rw [hscope, ← hname]
      exact Scope.bits?_bindAll (published_unindexed hm htarget b) (published_nodup hm htarget b)
        hmem (b.further_ne p hp)
  · rw [hscope]
    refine (Scope.bindAll_agreesOn (published_unindexed hm htarget b)).weaken ?_
    rintro x ⟨hx, hne⟩
    refine ⟨hx, fun hmem => ?_⟩
    rw [published_names] at hmem
    obtain ⟨out, hout, rfl⟩ := List.mem_map.1 hmem
    exact hne out hout rfl

end NandHdl
