-- SUMMARY: The body of a top module finds its ports bound and named (`openTop_opened`), and it leaves their names alone (`elaborateBody_keepsPorts`), so they stand for the same signals after it (`KeepsPorts.targets_eq`).
import NandHdl.Proofs.Elaboration.Growth
import NandHdl.Proofs.Netlist.Buses
import NandHdl.Proofs.Reordering.Bodies

/-!
# Names of ports

The names of a netlist are first come, first served. The ports of a top module come first, so what
the body is made of takes no name from them. It could still make a port wider than it is, by a name
for one more bit. But no declared target has the name of a port, and gates and flip-flops have no
names with `[`.
-/

namespace NandHdl

/-! ## Names of a port -/

namespace Netlist

variable {n n' : Netlist}

/-- All bits of the port have names. -/
def Names (n : Netlist) (p : Port) : Prop :=
  ∀ z ∈ Elab.bitNames p.name (max 1 p.width), (n.signalId? z).isSome

theorem Names.signalId?_eq {p : Port} (h : n.Names p) (hgrows : n.Grows n') {z : String}
    (hz : z ∈ Elab.bitNames p.name (max 1 p.width)) : n'.signalId? z = n.signalId? z := by
  obtain ⟨id, hid⟩ := Option.isSome_iff_exists.1 (h z hz)
  rw [hid, hgrows.signalId? hid]

theorem Names.grows {p : Port} (h : n.Names p) (hgrows : n.Grows n') : n'.Names p := fun z hz =>
  (h.signalId?_eq hgrows hz).symm ▸ h z hz

/-- The first bit of a port that is no bus has the name of the port. -/
theorem Names.mem_bitNames {p : Port} (h : n.Names p)
    (hfirst : n.signalId? (bitName p.name 0) = none) :
    p.name ∈ Elab.bitNames p.name (max 1 p.width) := by
  by_cases hone : max 1 p.width = 1
  · rw [Elab.bitNames, if_pos hone]
    exact List.mem_singleton_self _
  · have hpos : 0 < max 1 p.width := Nat.lt_of_lt_of_le Nat.one_pos (Nat.le_max_left _ _)
    have hmem : bitName p.name 0 ∈ Elab.bitNames p.name (max 1 p.width) := by
      rw [Elab.bitNames, if_neg hone]
      exact List.mem_map_of_mem (List.mem_range.2 hpos)
    have hsome := h _ hmem
    rw [hfirst] at hsome
    exact absurd hsome Bool.false_ne_true

end Netlist

/-! ## Scopes -/

namespace Scope

variable {s : Scope} {l : List (String × Bits)}

theorem namePrefix_bindPorts (s : Scope) (l : List (String × Bits)) :
    (s.bindPorts l).namePrefix = s.namePrefix :=
  bindPorts_keeps (P := fun e => e.namePrefix = s.namePrefix)
    (fun b _ e he => (e.namePrefix_bind b.1 b.2).trans he) rfl

theorem NoMembers.bindPorts (h : s.NoMembers) (hl : ∀ b ∈ l, Dotless b.1) :
    (s.bindPorts l).NoMembers :=
  bindPorts_keeps (fun b hb _ hs => hs.bind (hl b hb) b.2) h

theorem buses_bindPorts {z : String} (hz : z ∉ l.map Prod.fst) :
    (s.bindPorts l).buses[z]? = s.buses[z]? := by
  refine bindPorts_keeps (P := fun e => e.buses[z]? = s.buses[z]?) (fun b hb e he => ?_) rfl
  have hne : b.1 ≠ z := fun heq => hz (heq ▸ List.mem_map_of_mem hb)
  exact (e.buses_bind b.1 z b.2).trans ((if_neg hne).trans he)

end Scope

/-! ## Opening the top module -/

open Elab

variable {d d' d₁ e e' : Draft} {u : Unit} {bits : Bits} {m : ModuleDecl} {p : Port} {top : String}

/-- The ports of the module are bound and named, and none of its targets is bound but as a port. -/
structure ModuleDecl.Opened (m : ModuleDecl) (d : Draft) : Prop where
  accounted : d.Accounted
  surrounds : d.scope.Surrounds m.statements
  isPort_iff : ∀ x, d.scope.isPort x = true ↔ x ∈ m.portNames
  named : ∀ p ∈ m.params ++ m.outputs, d.netlist.Names p

theorem names_declare (hd : d.Lawful) (hlocal : d.scope.namePrefix = "")
    (h : (declare p.name p.width).run d = .ok (bits, d₁)) :
    d₁.netlist.Names p ∧ d₁.scope.namePrefix = "" := by
  obtain ⟨bits', e, hrun, he⟩ := declare_run hd.driven_size p.name p.width
  cases h.symm.trans hrun
  refine ⟨fun z hz => he.named z ?_, ?_⟩
  · have hglobal : d.scope.globalName z = z := by
      rw [Scope.globalName, hlocal, String.empty_append]
    exact hglobal ▸ List.mem_map_of_mem hz
  · rw [he.scope_eq, Scope.namePrefix_bind, hlocal]

theorem names_declareInputs {ports : List Port} (hd : d.Lawful) (hlocal : d.scope.namePrefix = "")
    (h : (declareInputs ports).run d = .ok (u, d')) : ∀ p ∈ ports, d'.netlist.Names p := by
  induction ports generalizing d with
  | nil => exact nofun
  | cons p rest ih =>
    obtain ⟨bits, d₁, d₂, clock, hdeclare, hmark, hrest⟩ := declareInputs_cons_eq_ok h
    obtain ⟨hnames, hlocal₁⟩ := names_declare hd hlocal hdeclare
    have hmarked := markInputs_spec (declare_spec hd hdeclare).1.lawful hmark
    have hnumbered := hmarked.lawful.numbered
    have hlawful : { d₂ with netlist := { d₂.netlist with clock } }.Lawful :=
      (hmarked.lawful.adds_netlist (n := { d₂.netlist with clock })
        ⟨hnumbered.signal, hnumbered.gate⟩ rfl rfl rfl rfl).lawful
    have hgrows : d₁.netlist.Grows { d₂.netlist with clock } :=
      (markInputs_grows bits _ _ _ hmark).tail (.clock _ _)
    refine List.forall_mem_cons.2 ⟨?_, ih (hlawful.rebinds_self _).lawful ?_ hrest⟩
    · exact (hnames.grows hgrows).grows (declareInputs_grows rest _ _ _ hrest)
    · exact (congrArg Scope.namePrefix hmarked.scope_eq).trans hlocal₁

theorem names_declareOutputs {ports : List Port} (hd : d.Lawful)
    (hlocal : d.scope.namePrefix = "") (h : (declareOutputs ports).run d = .ok (u, d')) :
    ∀ p ∈ ports, d'.netlist.Names p := by
  induction ports generalizing d with
  | nil => exact nofun
  | cons p rest ih =>
    obtain ⟨bits, d₁, d₂, hdeclare, hmark, hrest⟩ := declareOutputs_cons_eq_ok h
    obtain ⟨hnames, hlocal₁⟩ := names_declare hd hlocal hdeclare
    have hmarked := markOutputs_spec (declare_spec hd hdeclare).1.lawful hmark
    have hgrows : d₂.netlist.Grows d'.netlist :=
      declareOutputs_grows rest { d₂ with scope := d₂.scope.addPort p.name } _ _ hrest
    refine List.forall_mem_cons.2 ⟨?_, ih (hmarked.lawful.rebinds_self _).lawful ?_ hrest⟩
    · exact (hnames.grows (markOutputs_grows bits _ _ _ hmark)).grows hgrows
    · exact (congrArg Scope.namePrefix hmarked.scope_eq).trans hlocal₁

theorem openTop_names (h : (openTop m).run (.empty top) = .ok (u, d)) :
    ∀ p ∈ m.params ++ m.outputs, d.netlist.Names p := by
  obtain ⟨d₁, hinputs, houtputs⟩ := openTop_eq_ok h
  obtain ⟨l, -, -, hins⟩ := declareInputs_spec (Draft.lawful_constants top) hinputs
  have hlocal : d₁.scope.namePrefix = "" := by
    rw [hins.scope_eq, Scope.namePrefix_bindPorts]
    rfl
  refine List.forall_mem_append.2
    ⟨fun p hp => ?_, names_declareOutputs hins.lawful hlocal houtputs⟩
  exact (names_declareInputs (Draft.lawful_constants top) rfl hinputs p hp).grows
    (declareOutputs_grows m.outputs _ _ _ houtputs)

theorem openTop_opened (hports : ∀ x ∈ m.portNames, PlainName x)
    (htargets : ∀ x ∈ m.targets, PlainName x) (h : (openTop m).run (.empty top) = .ok (u, d)) :
    m.Opened d := by
  obtain ⟨l, hnames, -, hopened⟩ := openTop_scope h
  have hplain : ∀ b ∈ l, PlainName b.1 := fun b hb =>
    hports b.1 (hnames ▸ List.mem_map_of_mem hb)
  have hport : ∀ x, d.scope.isPort x = true ↔ x ∈ m.portNames := by
    intro x
    rw [hopened.scope_eq, Scope.isPort_bindPorts, hnames]
    refine or_iff_left ?_
    rw [Draft.constants, Scope.isPort_bind, Scope.isPort_bind]
    simp [Scope.isPort, Scope.top]
  refine ⟨?_, ⟨?_, ?_, fun t ht htarget => ?_⟩, hport, openTop_names h⟩
  · exact (openTop_meets m top).of_run h
  · rw [hopened.scope_eq, Scope.namePrefix_bindPorts]
    rfl
  · have hconstants : (Draft.constants top).scope.NoMembers := by
      have htop : (Scope.top top).NoMembers := fun _ _ =>
        ⟨Std.TreeMap.getElem?_emptyc, Std.TreeMap.getElem?_emptyc⟩
      have hplain : PlainName zeroName ∧ PlainName oneName := by decide
      exact (htop.bind hplain.1.2 _).bind hplain.2.2 _
    rw [hopened.scope_eq]
    exact hconstants.bindPorts fun b hb => (hplain b hb).2
  · have hnot : t.target ∉ l.map Prod.fst := by
      rw [hnames, ← hport, htarget]
      exact Bool.false_ne_true
    refine ⟨htargets _ (List.mem_map_of_mem ht), ?_⟩
    rw [Scope.widthOf, Std.TreeMap.getD_eq_getD_getElem?, hopened.scope_eq,
      Scope.buses_bindPorts hnot]
    simp [Draft.constants, Scope.buses_bind, Scope.top]

/-! ## Bodies -/

/-- The circuit has the same outputs, and bits of ports have names as before. -/
structure Draft.KeepsPorts (d e : Draft) : Prop where
  namePrefix_eq : e.scope.namePrefix = d.scope.namePrefix
  outputs_eq : e.netlist.primaryOutputs = d.netlist.primaryOutputs
  bit_eq : ∀ x, d.scope.isPort x = true → Unindexed x → ∀ i,
    e.netlist.signalId? (bitName x i) = d.netlist.signalId? (bitName x i)

variable {cx : Context} {statements : List Statement} {x t : String} {width : Nat}

namespace Draft.KeepsPorts

theorem refl (d : Draft) : d.KeepsPorts d := ⟨rfl, rfl, fun _ _ _ _ => rfl⟩

/-- The declaration of a target that is no port. -/
theorem declares (h : d.KeepsPorts d') (hlocal : d.scope.namePrefix = "")
    (hport : d.scope.isPort t = false) (ht : Unindexed t) (he : d'.Declares t width e) :
    d.KeepsPorts e where
  namePrefix_eq := by rw [he.scope_eq, Scope.namePrefix_bind, h.namePrefix_eq]
  outputs_eq := he.gains.outputs.trans h.outputs_eq
  bit_eq x hx hindex i := by
    refine (he.other _ fun hmem => ?_).trans (h.bit_eq x hx hindex i)
    obtain ⟨z, hz, heq⟩ := List.mem_map.1 hmem
    rw [Scope.globalName, h.namePrefix_eq, hlocal, String.empty_append] at heq
    rw [heq, bitNames] at hz
    split at hz
    · exact bitName_ne ht x i (List.mem_singleton.1 hz)
    · obtain ⟨j, -, hbit⟩ := List.mem_map.1 hz
      rw [(bitName_inj.1 hbit).1, hx] at hport
      exact Bool.false_ne_true hport.symm

theorem emits (h : d.KeepsPorts d') {F : Fragment} (he : d'.Emits e F) : d.KeepsPorts e where
  namePrefix_eq := (congrArg Scope.namePrefix he.scope_eq).trans h.namePrefix_eq
  outputs_eq := he.outputs.trans h.outputs_eq
  bit_eq x hx hindex i := by
    have hindexed : ¬Unindexed (bitName x i) := fun hnot => bitName_ne hnot x i rfl
    exact (he.indexed _ hindexed).trans (h.bit_eq x hx hindex i)

/-- A port has the signals that it had. -/
theorem targets_eq (h : d.KeepsPorts e) (hgrows : d.netlist.Grows e.netlist)
    (hport : d.scope.isPort p.name = true) (hp : Unindexed p.name) (hnames : d.netlist.Names p) :
    e.netlist.targets p.name = d.netlist.targets p.name :=
  Netlist.targets_eq_of_bits (h.bit_eq p.name hport hp) fun hfirst =>
    hnames.signalId?_eq hgrows (hnames.mem_bitNames hfirst)

end Draft.KeepsPorts

/-- Statements that are elaborated have a fragment. -/
theorem elaborateStatements_emits (hcx : cx.Safe) (hd : d.Accounted)
    (hcalls : ∀ t ∈ statements, t.expr.callees = [])
    (h : (elaborateStatements cx statements).run d = .ok (u, e)) : ∃ F, d.Emits e F := by
  induction statements generalizing d with
  | nil =>
    obtain ⟨-, rfl⟩ := pure_eq_ok.1 h
    exact ⟨{}, .refl hd.driven_size⟩
  | cons t rest ih =>
    obtain ⟨ht, hrest⟩ := List.forall_mem_cons.1 hcalls
    obtain ⟨_, d₁, hfirst, h⟩ := bind_eq_ok.1 h
    obtain ⟨F, hF⟩ := elaborateStatement_emits hd ht hfirst
    obtain ⟨G, hG⟩ := ih (elaborateStatement_accounted hcx hd hfirst) hrest h
    exact ⟨F ++ G, hF.trans hG⟩

theorem elaborateBody_keepsPorts (hcx : cx.Safe) (hd : d.Accounted)
    (hscope : d.scope.Surrounds statements) (hcalls : ∀ t ∈ statements, t.expr.callees = [])
    (h : (elaborateBody cx statements).run d = .ok (u, e)) : d.KeepsPorts e := by
  have hdeclare := declareTargets_induct (P := d.KeepsPorts) hd
    (inferWidths d.scope cx.program statements) statements (.refl d) fun ht hport hkeep he =>
      hkeep.declares hscope.namePrefix_eq hport (hscope.target _ ht hport).1.1 he
  obtain ⟨d₁, hrun, hacc, hkeep⟩ := hdeclare
  rw [← declareBody_run] at hrun
  rw [elaborateBody, run_andThen hrun] at h
  obtain ⟨F, hF⟩ := elaborateStatements_emits hcx hacc hcalls h
  exact hkeep.emits hF

end NandHdl
