-- SUMMARY: Where the names of a netlist come from (`Netlist.Given`): the prefix of an instance and a name of that instance, read off the list of instances.
import NandHdl.Proofs.Elaboration.Capture
import NandHdl.Proofs.Elaboration.Nesting

/-!
# Where names come from

The ports of the top module have their names from the start. Any further name of a signal is put
together from the prefix of an instance and a name of that instance: one of its ports or targets, the
target that an instance below it makes for itself, or a further output of such an instance. Two kinds of
names are made in another way. Gates and flip-flops name their outputs by their numbers, and where an
output is wider than the port that it is given to, its surplus bits have the prefix of the instance and
the name of that port.

All of this can be read off the finished netlist, for its list of instances tells which module each of
them is an instance of, and what its parent is. Instances are only added, so what a name comes from
stays.
-/

namespace NandHdl

open Elab

/-! ## Names of instances -/

namespace Netlist

/-- Instance `i` is one of the module `m`. -/
structure Places (n : Netlist) (p : Program) (i : InstanceId) (inst : Instance) (m : ModuleDecl) :
    Prop where
  inst_eq : n.instances[i]? = some inst
  find_eq : p.find? inst.moduleName = some m

/-- An instance in the body of `m`, of which `i` is an instance, gives this body the name: a target
that it makes for itself or a further output. -/
inductive Publishes (n : Netlist) (p : Program) (i : InstanceId) (m : ModuleDecl) : String → Prop
  | own {k : InstanceId} {inst : Instance} {callee : ModuleDecl} {x : String}
      (hplaces : n.Places p k inst callee) (hparent : inst.parent = some i)
      (hx : callee.Binds k x) : Publishes n p i m x
  | member {k : InstanceId} {inst : Instance} {callee : ModuleDecl} {t : String} {out : Port}
      (hplaces : n.Places p k inst callee) (hparent : inst.parent = some i) (ht : t ∈ m.targets)
      (hout : out ∈ callee.outputs.drop 1) : Publishes n p i m (memberName t out.name)

/-- The names of instance `i`, one of the module `m`, without its prefix. The ports of the top module
are not among them. -/
inductive LocalName (n : Netlist) (p : Program) (i : InstanceId) (m : ModuleDecl) : String → Prop
  | port {x : String} (hpos : 0 < i) (hx : x ∈ m.portNames) : LocalName n p i m x
  | target {x : String} (hx : x ∈ m.targets) (hport : i = 0 → x ∉ m.portNames) : LocalName n p i m x
  | published {x : String} (hx : n.Publishes p i m x) : LocalName n p i m x
  | surplus {inst parent : Instance} {j : InstanceId} {caller : ModuleDecl} {x : String}
      (hinst : n.instances[i]? = some inst) (hparent : inst.parent = some j)
      (hplaces : n.Places p j parent caller) (hx : x ∈ caller.targets) : LocalName n p i m x

/-- A name that bodies give to signals. -/
inductive Given (n : Netlist) (p : Program) : String → Prop
  | name {i : InstanceId} {inst : Instance} {m : ModuleDecl} {x : String}
      (hplaces : n.Places p i inst m) (hx : n.LocalName p i m x) : Given n p (inst.namePrefix ++ x)
  | bit {i : InstanceId} {inst : Instance} {m : ModuleDecl} {x : String}
      (hplaces : n.Places p i inst m) (hx : n.LocalName p i m x) (k : Nat) :
      Given n p (bitName (inst.namePrefix ++ x) k)
  | gate (k : Nat) : Given n p ("nand_" ++ toString k)
  | flop (k : Nat) : Given n p ("dff_" ++ toString k)

variable {n n' n'' : Netlist} {p : Program} {i : InstanceId} {inst : Instance} {m : ModuleDecl}
  {x y : String}

theorem Places.mono (h : n.Places p i inst m) (hgrows : n.Grows n') : n'.Places p i inst m :=
  ⟨hgrows.inst_kept h.inst_eq, h.find_eq⟩

theorem Places.lt (h : n.Places p i inst m) : i < n.instances.size :=
  (Array.getElem?_eq_some_iff.1 h.inst_eq).1

theorem Publishes.mono (h : n.Publishes p i m x) (hgrows : n.Grows n') : n'.Publishes p i m x := by
  cases h with
  | own hplaces hparent hx => exact .own (hplaces.mono hgrows) hparent hx
  | member hplaces hparent ht hout => exact .member (hplaces.mono hgrows) hparent ht hout

theorem LocalName.mono (h : n.LocalName p i m x) (hgrows : n.Grows n') : n'.LocalName p i m x := by
  cases h with
  | port hpos hx => exact .port hpos hx
  | target hx hport => exact .target hx hport
  | published hx => exact .published (hx.mono hgrows)
  | surplus hinst hparent hplaces hx =>
    exact .surplus (hgrows.inst_kept hinst) hparent (hplaces.mono hgrows) hx

theorem Given.mono (h : n.Given p y) (hgrows : n.Grows n') : n'.Given p y := by
  cases h with
  | name hplaces hx => exact .name (hplaces.mono hgrows) (hx.mono hgrows)
  | bit hplaces hx k => exact .bit (hplaces.mono hgrows) (hx.mono hgrows) k
  | gate k => exact .gate k
  | flop k => exact .flop k

/-! ## Netlists that get names -/

/-- Every signal belongs to an instance. -/
def Owned (n : Netlist) : Prop :=
  ∀ {j : SignalId} {s : Signal}, n.signals[j]? = some s → s.owner < n.instances.size

/-- The netlist grows, no name is new but those that may be given, and new signals belong to
instances. -/
structure Accrues (given : String → Prop) (n n' : Netlist) : Prop where
  grows : n.Grows n'
  signalId?_eq : ∀ x, ¬ given x → n'.signalId? x = n.signalId? x
  owned : n.Owned → n'.Owned

namespace Accrues

variable {given given' : String → Prop}

theorem refl (n : Netlist) : n.Accrues given n := ⟨.refl, fun _ _ => rfl, fun h => h⟩

theorem trans (h : n.Accrues given n') (h' : n'.Accrues given n'') : n.Accrues given n'' where
  grows := Relation.ReflTransGen.trans h.grows h'.grows
  signalId?_eq x hx := (h'.signalId?_eq x hx).trans (h.signalId?_eq x hx)
  owned hn := h'.owned (h.owned hn)

theorem mono (h : n.Accrues given n') (hgiven : ∀ x, given x → given' x) : n.Accrues given' n' :=
  ⟨h.grows, fun x hx => h.signalId?_eq x fun hx' => hx (hgiven x hx'), h.owned⟩

theorem addAlias (hx : given x) (id : SignalId) : n.Accrues given (n.addAlias x id) where
  grows := .single (.named n x id)
  signalId?_eq z hz := by
    have hne : x ≠ z := fun heq => hz (heq ▸ hx)
    rw [signalId?_addAlias, if_neg hne, Option.or_none]
  owned hn := hn

theorem addSignal (hx : given x) {owner : InstanceId} (howner : owner < n.instances.size) :
    n.Accrues given (n.addSignal x owner) where
  grows := .single (.signal n x owner)
  signalId?_eq z hz := by
    have hne : x ≠ z := fun heq => hz (heq ▸ hx)
    rw [signalId?_addSignal, if_neg hne, Option.or_none]
  owned hn j s hs := by
    simp only [Netlist.addSignal, Array.getElem?_push] at hs
    split at hs
    · cases hs
      exact howner
    · exact hn hs

theorem addNand (n : Netlist) (in1 in2 out : SignalId) :
    n.Accrues given (n.addNand in1 in2 out) :=
  ⟨.single (.gate n in1 in2 out), fun _ _ => rfl, fun hn => hn⟩

theorem addInstance (n : Netlist) (moduleName : String) (parent : InstanceId)
    (namePrefix : String) : n.Accrues given (n.addInstance moduleName parent namePrefix) := by
  have hgrows : n.Grows (n.addInstance moduleName parent namePrefix) := .single (.inst ..)
  exact ⟨hgrows, fun _ _ => rfl, fun hn _ _ hs => (hn hs).trans_le hgrows.instances_le⟩

theorem setClock (n : Netlist) (clock : Option SignalId) : n.Accrues given { n with clock } :=
  ⟨.single (.clock n clock), fun _ _ => rfl, fun hn => hn⟩

/-- Marks on signals change neither names nor owners. -/
theorem modifySignal {k : SignalId} {f : Signal → Signal} (hf : ∀ s, (f s).owner = s.owner)
    (hgrows : n.Grows n') (hsignals : n'.signals = n.signals.modify k f)
    (hnames : n'.names = n.names) : n.Accrues given n' where
  grows := hgrows
  signalId?_eq x _ := congrArg (fun names : NameMap SignalId => names[x]?) hnames
  owned hn j s hs := by
    refine Nat.lt_of_lt_of_le ?_ hgrows.instances_le
    rw [hsignals, Array.getElem?_modify] at hs
    split at hs
    · obtain ⟨s', hs', rfl⟩ := Option.map_eq_some_iff.1 hs
      exact hf s' ▸ hn hs'
    · exact hn hs

theorem addDff {a clk q : SignalId} {b : Bool} (h : n.addDff a clk q b = .ok n') :
    n.Accrues given n' := by
  obtain ⟨signals, hsignals, hn'⟩ := Except.bind_eq_ok.1 h
  obtain ⟨-, rfl⟩ := Checked.modify_eq_ok.1 hsignals
  cases hn'
  exact modifySignal (f := fun s => { s with isDffOutput := true }) (fun _ => rfl)
    (.single (.flop h)) rfl rfl

theorem addPrimaryInput {id : SignalId} (h : n.addPrimaryInput id = .ok n') :
    n.Accrues given n' := by
  obtain ⟨signals, hsignals, hn'⟩ := Except.bind_eq_ok.1 h
  obtain ⟨-, rfl⟩ := Checked.modify_eq_ok.1 hsignals
  cases hn'
  exact modifySignal (f := fun s => { s with isPrimaryInput := true }) (fun _ => rfl)
    (.single (.input h)) rfl rfl

theorem addPrimaryOutput {id : SignalId} (h : n.addPrimaryOutput id = .ok n') :
    n.Accrues given n' := by
  obtain ⟨signals, hsignals, hn'⟩ := Except.bind_eq_ok.1 h
  obtain ⟨-, rfl⟩ := Checked.modify_eq_ok.1 hsignals
  cases hn'
  exact modifySignal (f := fun s => { s with isPrimaryOutput := true }) (fun _ => rfl)
    (.single (.output h)) rfl rfl

end Accrues

end Netlist

/-! ## Scopes that get bindings -/

namespace Scope.BindsOnly

variable {bound bound' : String → Prop} {s s' : Scope}

theorem mono (h : s.BindsOnly bound s') (hbound : ∀ x, bound x → bound' x) :
    s.BindsOnly bound' s' :=
  Relation.ReflTransGen.mono (fun _ _ ⟨x, bits, hx, heq⟩ => ⟨x, bits, hbound x hx, heq⟩) _ _ h

theorem namePrefix_eq (h : s.BindsOnly bound s') : s'.namePrefix = s.namePrefix := by
  induction h with
  | refl => rfl
  | tail _ hstep ih =>
    obtain ⟨x, bits, -, rfl⟩ := hstep
    exact (namePrefix_bind _ _ _).trans ih

theorem isPort_eq (h : s.BindsOnly bound s') : s'.isPort = s.isPort := by
  induction h with
  | refl => rfl
  | tail _ hstep ih =>
    obtain ⟨x, bits, -, rfl⟩ := hstep
    exact (isPort_bind _ _ _).trans ih

theorem eq_of_false (h : s.BindsOnly (fun _ => False) s') : s' = s := by
  induction h with
  | refl => rfl
  | tail _ hstep _ =>
    obtain ⟨_, _, hfalse, -⟩ := hstep
    exact hfalse.elim

end Scope.BindsOnly

/-! ## Drafts that get names -/

namespace Draft

/-- The netlist gets names that may be given, and the scope gets bindings of certain names. -/
structure Accrues (given bound : String → Prop) (d d' : Draft) : Prop where
  netlist : d.netlist.Accrues given d'.netlist
  scope : d.scope.BindsOnly bound d'.scope

/-- The scope does not change at all. -/
abbrev Enriches (given : String → Prop) (d d' : Draft) : Prop := d.Accrues given (fun _ => False) d'

variable {given given' bound bound' : String → Prop} {d d' d'' : Draft}

theorem Accrues.trans (h : d.Accrues given bound d') (h' : d'.Accrues given bound d'') :
    d.Accrues given bound d'' :=
  ⟨h.netlist.trans h'.netlist, Relation.ReflTransGen.trans h.scope h'.scope⟩

instance (given bound : String → Prop) : IsPreorder Draft (Accrues given bound) where
  refl _ := ⟨.refl _, .refl⟩
  trans _ _ _ := Accrues.trans

theorem Accrues.mono (h : d.Accrues given bound d') (hgiven : ∀ x, given x → given' x)
    (hbound : ∀ x, bound x → bound' x) : d.Accrues given' bound' d' :=
  ⟨h.netlist.mono hgiven, h.scope.mono hbound⟩

theorem Accrues.widen (h : d.Enriches given d') : d.Accrues given bound d' :=
  h.mono (fun _ hx => hx) fun _ => False.elim

theorem Accrues.scope_eq (h : d.Enriches given d') : d'.scope = d.scope := h.scope.eq_of_false

theorem enriches_of_netlist {n : Netlist} (h : d.netlist.Accrues given n) :
    d.Enriches given { d with netlist := n } :=
  ⟨h, .refl⟩

/-- The scope gets one binding after the netlist has got names. -/
theorem Accrues.bind (h : d.Enriches given d') {x : String} (hx : bound x) (bits : Bits) :
    d.Accrues given bound { d' with scope := d'.scope.bind x bits } := by
  refine ⟨h.netlist, ?_⟩
  rw [h.scope_eq]
  exact .single ⟨x, bits, hx, rfl⟩

end Draft

open Draft

/-! ## Signals -/

namespace Elab

variable {given bound : String → Prop} {d d' : Draft} {u : Unit}

theorem modifyNetlist_enriches {f : Netlist → Netlist} (hf : d.netlist.Accrues given (f d.netlist))
    (h : (modifyNetlist f).run d = .ok (u, d')) : d.Enriches given d' := by
  obtain rfl := modifyNetlist_eq_ok.1 h
  exact enriches_of_netlist hf

theorem claimDriver_enriches {id : SignalId} (h : (claimDriver id).run d = .ok (u, d')) :
    d.Enriches given d' := by
  obtain ⟨-, rfl⟩ := claimDriver_eq_ok h
  exact ⟨.refl _, .refl⟩

theorem newSignal_enriches {name : String} {owner : InstanceId} {id : SignalId} (hname : given name)
    (howner : owner < d.netlist.instances.size)
    (h : (newSignal name owner).run d = .ok (id, d')) : d.Enriches given d' := by
  cases h
  exact ⟨.addSignal hname howner, .refl⟩

theorem newSignals_enriches {names : List String} {owner : InstanceId} {bits : Bits}
    (hnames : ∀ y ∈ names, given y) (howner : owner < d.netlist.instances.size)
    (h : (newSignals owner names).run d = .ok (bits, d')) : d.Enriches given d' := by
  induction names generalizing d bits with
  | nil =>
    obtain ⟨-, rfl⟩ := pure_eq_ok.1 h
    exact refl _
  | cons name rest ih =>
    obtain ⟨hname, hrest⟩ := List.forall_mem_cons.1 hnames
    obtain ⟨id, d₁, hid, h⟩ := bind_eq_ok.1 h
    obtain ⟨ids, d₂, hids, h⟩ := bind_eq_ok.1 h
    obtain ⟨-, rfl⟩ := pure_eq_ok.1 h
    have hfirst := newSignal_enriches hname howner hid
    exact hfirst.trans (ih hrest (howner.trans_le hfirst.netlist.grows.instances_le) hids)

/-! ## Declarations -/

/-- A declaration makes a signal for each bit, under its global name. -/
theorem declare_steps {name : String} {width : Nat} {bits : Bits}
    (h : (declare name width).run d = .ok (bits, d')) :
    ∃ d₁, (newSignals d.scope.owner ((bitNames name (max 1 width)).map d.scope.globalName)).run d =
        .ok (bits, d₁) ∧ d' = { d₁ with scope := d₁.scope.bind name bits } := by
  obtain ⟨_, _, hscope, h⟩ := bind_eq_ok.1 h
  cases hscope
  obtain ⟨_, d₁, hnew, h⟩ := bind_eq_ok.1 h
  obtain ⟨_, d₂, hbind, h⟩ := bind_eq_ok.1 h
  obtain rfl := modifyScope_eq_ok.1 hbind
  obtain ⟨rfl, rfl⟩ := pure_eq_ok.1 h
  exact ⟨d₁, hnew, rfl⟩

theorem map_globalName_bitNames (s : Scope) (name : String) (width : Nat) :
    (bitNames name width).map s.globalName = bitNames (s.globalName name) width := by
  unfold bitNames
  split
  · rfl
  · rw [List.map_map]
    refine List.map_congr_left fun k _ => ?_
    simp only [Function.comp, Scope.globalName, bitName, String.append_assoc]

theorem declare_accrues {name : String} {width : Nat} {bits : Bits} (hbound : bound name)
    (hnames : ∀ z ∈ bitNames (d.scope.globalName name) (max 1 width), given z)
    (howner : d.scope.owner < d.netlist.instances.size)
    (h : (declare name width).run d = .ok (bits, d')) : d.Accrues given bound d' := by
  obtain ⟨d₁, hnew, rfl⟩ := declare_steps h
  rw [map_globalName_bitNames] at hnew
  exact (newSignals_enriches hnames howner hnew).bind hbound bits

end Elab

/-! ## Names of instances for their ports -/

variable {given bound : String → Prop} {m : ModuleDecl} {d d' : Draft} {u : Unit}

/-- The name may be given, and so may the names of its bits. -/
structure Covers (given : String → Prop) (y : String) : Prop where
  name : given y
  bit : ∀ k, given (bitName y k)

theorem Covers.bitNames {y : String} (h : Covers given y) (width : Nat) :
    ∀ z ∈ Elab.bitNames y width, given z := by
  intro z hz
  unfold Elab.bitNames at hz
  split at hz
  · exact List.mem_singleton.1 hz ▸ h.name
  · obtain ⟨k, -, rfl⟩ := List.mem_map.1 hz
    exact h.bit k

theorem Netlist.LocalName.covers {n : Netlist} {p : Program} {i : InstanceId} {inst : Instance}
    {x : String} (h : n.LocalName p i m x) (hplaces : n.Places p i inst m) :
    Covers (n.Given p) (inst.namePrefix ++ x) :=
  ⟨.name hplaces h, .bit hplaces h⟩

theorem aliasFrom_enriches {name : String} {start : Nat} {bits : Bits} (hname : Covers given name)
    (h : (aliasBits.aliasFrom name start bits).run d = .ok (u, d')) : d.Enriches given d' := by
  induction bits generalizing d start with
  | nil =>
    obtain ⟨-, rfl⟩ := pure_eq_ok.1 h
    exact refl _
  | cons id rest ih =>
    obtain ⟨_, d₁, halias, h⟩ := bind_eq_ok.1 h
    exact (modifyNetlist_enriches (.addAlias (hname.bit start) id) halias).trans (ih h)

theorem aliasBits_enriches {name : String} {bits : Bits} (hname : Covers given name)
    (h : (aliasBits name bits).run d = .ok (u, d')) : d.Enriches given d' := by
  unfold aliasBits at h
  split at h
  · obtain ⟨-, rfl⟩ := pure_eq_ok.1 h
    exact refl _
  · exact modifyNetlist_enriches (.addAlias hname.name _) h
  · exact aliasFrom_enriches hname h

section

variable {inst : Instance} {child child' : Scope}

theorem bindParams_enriches {params : List Port} {args : List Bits}
    (hnames : ∀ q ∈ params, Covers given (inst.namePrefix ++ q.name))
    (h : (bindParams inst child params args).run d = .ok (child', d')) : d.Enriches given d' := by
  induction params generalizing d child args with
  | nil =>
    obtain ⟨-, rfl⟩ := pure_eq_ok.1 h
    exact refl _
  | cons q params ih =>
    obtain ⟨hq, hrest⟩ := List.forall_mem_cons.1 hnames
    cases args with
    | nil =>
      obtain ⟨-, rfl⟩ := pure_eq_ok.1 h
      exact refl _
    | cons arg args =>
      obtain ⟨_, d₁, halias, h⟩ := bind_eq_ok.1 h
      exact (aliasBits_enriches hq halias).trans (ih hrest h)

theorem bindFirst_enriches {first : Bits}
    (hnames : ∀ q ∈ m.outputs, Covers given (inst.namePrefix ++ q.name))
    (h : (bindFirst m inst child first).run d = .ok (child', d')) : d.Enriches given d' := by
  unfold bindFirst at h
  split at h
  · obtain ⟨-, rfl⟩ := pure_eq_ok.1 h
    exact refl _
  · next out _ houts =>
    obtain ⟨_, d₁, halias, h⟩ := bind_eq_ok.1 h
    obtain ⟨-, rfl⟩ := pure_eq_ok.1 h
    exact aliasBits_enriches (hnames out (houts ▸ List.mem_cons_self)) halias

theorem bindOutputs_accrues {target callerPrefix : String} {outs : List Port}
    (hbound : ∀ out ∈ outs, bound (memberName target out.name))
    (hnames : ∀ out ∈ outs, Covers given (inst.namePrefix ++ out.name))
    (hpublished : ∀ out ∈ outs, Covers given (callerPrefix ++ memberName target out.name))
    (hinst : inst.id < d.netlist.instances.size)
    (h : (bindOutputs target callerPrefix inst child outs).run d = .ok (child', d')) :
    d.Accrues given bound d' := by
  induction outs generalizing d child with
  | nil =>
    obtain ⟨-, rfl⟩ := pure_eq_ok.1 h
    exact refl _
  | cons out rest ih =>
    obtain ⟨hout, houts⟩ := List.forall_mem_cons.1 hbound
    obtain ⟨hname, hnames⟩ := List.forall_mem_cons.1 hnames
    obtain ⟨hmember, hpublished⟩ := List.forall_mem_cons.1 hpublished
    obtain ⟨bits, d₁, hnew, h⟩ := bind_eq_ok.1 h
    obtain ⟨_, d₂, halias, h⟩ := bind_eq_ok.1 h
    obtain ⟨_, d₃, hbind, h⟩ := bind_eq_ok.1 h
    obtain rfl := modifyScope_eq_ok.1 hbind
    have hfills := (newSignals_enriches (hname.bitNames _) hinst hnew).trans
      (aliasBits_enriches hmember halias)
    exact (hfills.bind hout bits).trans (ih houts hnames hpublished
      (hinst.trans_le hfills.netlist.grows.instances_le) h)

/-- The first output takes the bits of its target. If it is wider, the other bits belong to the instance
or to its caller. -/
theorem firstOutputBits_accrues {target : String} {width : Nat} {first : Bits}
    (hbound : d.scope.isPort target = false → bound target)
    (hname : d.scope.isPort target = false → Covers given (d.scope.globalName target))
    (hsurplus : Covers given (inst.namePrefix ++ target))
    (hinst : inst.id < d.netlist.instances.size)
    (howner : d.scope.owner < d.netlist.instances.size)
    (h : (firstOutputBits target width inst).run d = .ok (first, d')) : d.Accrues given bound d' := by
  have hmissing : ∀ {y start}, Covers given (y ++ target) →
      ∀ z ∈ (missingBitNames target start width).map (y ++ ·), given z := by
    intro y start hy z hz
    obtain ⟨_, hx, rfl⟩ := List.mem_map.1 hz
    obtain ⟨k, -, rfl⟩ := List.mem_map.1 hx
    have heq : y ++ bitName target (start + k) = bitName (y ++ target) (start + k) := by
      simp only [bitName, String.append_assoc]
    exact heq ▸ hy.bit _
  -- A target that is no port is widened, and bound once more.
  have hwiden : ∀ {d₀ : Draft} {bits : Bits}, d.Enriches given d₀ → d.scope.isPort target = false →
      (do
        let bits := bits ++ (← Elab.newSignals d.scope.owner
          ((missingBitNames target bits.length width).map d.scope.globalName))
        Elab.modifyScope (·.bind target bits)
        return bits : Elab Bits).run d₀ = .ok (first, d') → d.Accrues given bound d' := by
    intro d₀ bits hd₀ hport hrun
    obtain ⟨more, d₁, hmore, hrest⟩ := bind_eq_ok.1 hrun
    obtain ⟨_, d₂, hbind, hdone⟩ := bind_eq_ok.1 hrest
    obtain rfl := modifyScope_eq_ok.1 hbind
    obtain ⟨-, rfl⟩ := pure_eq_ok.1 hdone
    have hnew := newSignals_enriches (hmissing (hname hport))
      (howner.trans_le hd₀.netlist.grows.instances_le) hmore
    exact (hd₀.trans hnew).bind (hbound hport) _
  unfold firstOutputBits at h
  obtain ⟨bits, e, hbits, hrest⟩ := bind_eq_ok.1 h
  obtain ⟨hbits, rfl⟩ := bitsOf_eq_ok.1 hbits
  obtain ⟨_, _, hscope, hrest⟩ := bind_eq_ok.1 hrest
  cases hscope
  split at hrest
  · obtain ⟨-, rfl⟩ := pure_eq_ok.1 hrest
    exact refl _
  · dsimp only at hrest
    split at hrest
    · obtain ⟨more, d₁, hmore, hrest⟩ := bind_eq_ok.1 hrest
      obtain ⟨-, rfl⟩ := pure_eq_ok.1 hrest
      exact (newSignals_enriches (hmissing hsurplus) hinst hmore).widen
    · next hport =>
      rw [Bool.not_eq_true] at hport
      split at hrest
      · obtain ⟨_, d₁, halias, hrest⟩ := bind_eq_ok.1 hrest
        exact hwiden (modifyNetlist_enriches (.addAlias ((hname hport).bit 0) _) halias) hport hrest
      · exact hwiden (refl _) hport hrest

end

end NandHdl
