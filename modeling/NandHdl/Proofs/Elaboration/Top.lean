-- SUMMARY: The draft in which the body of the top module starts (`openTop_spec`): constants that are driven, and ports that are bound.
import NandHdl.Proofs.Elaboration.Instances

/-!
# Opening the top module

The constants are the first two signals and count as driven from the start, so no gate is ever
attached to them. The ports of the top module have signals of their own.
-/

namespace NandHdl

variable {d d' : Draft} {u : Unit}

/-! ## Constants -/

/-- The draft that holds the constants and nothing else. -/
def Draft.constants (top : String) : Draft where
  netlist := ((Netlist.empty top).addSignal zeroName 0).addSignal oneName 0
  driven := #[true, true]
  scope := ((Scope.top top).bind zeroName [zeroId]).bind oneName [oneId]

theorem declareConstants_run (top : String) :
    (do declareConstant zeroName; declareConstant oneName : Elab Unit).run (.empty top) =
      .ok ((), .constants top) :=
  rfl

theorem Draft.lawful_constants (top : String) : (Draft.constants top).Lawful where
  numbered := ((Netlist.Numbered.empty top).addSignal _ _).addSignal _ _
  driven_size := rfl
  zero_driven := rfl
  one_driven := rfl
  gate_out := by simp [constants, Netlist.addSignal, Netlist.empty]

/-! ## Ports -/

/-- Marking a signal leaves everything but the signal alone. -/
theorem addPrimaryInput_spec (hd : d.Lawful) {id : SignalId} {n : Netlist}
    (h : d.netlist.addPrimaryInput id = .ok n) : d.Adds { d with netlist := n } := by
  have hnumbered := hd.numbered.addPrimaryInput h
  obtain ⟨signals, hsignals, hn⟩ := Except.bind_eq_ok.1 h
  obtain ⟨-, rfl⟩ := Checked.modify_eq_ok.1 hsignals
  cases hn
  exact hd.adds_netlist hnumbered Array.size_modify rfl rfl rfl

theorem addPrimaryOutput_spec (hd : d.Lawful) {id : SignalId} {n : Netlist}
    (h : d.netlist.addPrimaryOutput id = .ok n) : d.Adds { d with netlist := n } := by
  have hnumbered := hd.numbered.addPrimaryOutput h
  obtain ⟨signals, hsignals, hn⟩ := Except.bind_eq_ok.1 h
  obtain ⟨-, rfl⟩ := Checked.modify_eq_ok.1 hsignals
  cases hn
  exact hd.adds_netlist hnumbered Array.size_modify rfl rfl rfl

theorem markInputs_cons_eq_ok {id : SignalId} {rest : Bits}
    (h : (markInputs (id :: rest)).run d = .ok (u, d')) :
    ∃ n d₁, d.netlist.addPrimaryInput id = .ok n ∧
      (Elab.claimDriver id).run { d with netlist := n } = .ok ((), d₁) ∧
      (markInputs rest).run d₁ = .ok (u, d') := by
  obtain ⟨_, _, hget, h⟩ := Elab.bind_eq_ok.1 h
  cases hget
  obtain ⟨n, _, hchecked, hmark⟩ := Elab.bind_eq_ok.1 h
  obtain ⟨hn, rfl⟩ := Elab.ofChecked_eq_ok.1 hchecked
  obtain ⟨_, d₁, hset, hmark⟩ := Elab.bind_eq_ok.1 hmark
  obtain rfl := Elab.modifyNetlist_eq_ok.1 hset
  obtain ⟨_, d₂, hclaim, hrest⟩ := Elab.bind_eq_ok.1 hmark
  exact ⟨n, d₂, hn, hclaim, hrest⟩

theorem markInputs_spec (hd : d.Lawful) {bits : Bits} (h : (markInputs bits).run d = .ok (u, d')) :
    d.Adds d' := by
  induction bits generalizing d with
  | nil =>
    obtain ⟨-, rfl⟩ := Elab.pure_eq_ok.1 h
    exact hd.adds_self
  | cons id rest ih =>
    obtain ⟨n, d₁, hn, hclaim, hrest⟩ := markInputs_cons_eq_ok h
    have hmarked := addPrimaryInput_spec hd hn
    obtain ⟨hclaimed, -⟩ := Elab.claimDriver_spec hmarked.lawful hclaim
    exact (hmarked.trans hclaimed).trans (ih hclaimed.lawful hrest)

theorem markOutputs_cons_eq_ok {id : SignalId} {rest : Bits}
    (h : (markOutputs (id :: rest)).run d = .ok (u, d')) :
    ∃ n, d.netlist.addPrimaryOutput id = .ok n ∧
      (markOutputs rest).run { d with netlist := n } = .ok (u, d') := by
  obtain ⟨_, _, hget, h⟩ := Elab.bind_eq_ok.1 h
  cases hget
  obtain ⟨n, _, hchecked, hmark⟩ := Elab.bind_eq_ok.1 h
  obtain ⟨hn, rfl⟩ := Elab.ofChecked_eq_ok.1 hchecked
  obtain ⟨_, d₁, hset, hrest⟩ := Elab.bind_eq_ok.1 hmark
  obtain rfl := Elab.modifyNetlist_eq_ok.1 hset
  exact ⟨n, hn, hrest⟩

theorem markOutputs_spec (hd : d.Lawful) {bits : Bits}
    (h : (markOutputs bits).run d = .ok (u, d')) : d.Adds d' := by
  induction bits generalizing d with
  | nil =>
    obtain ⟨-, rfl⟩ := Elab.pure_eq_ok.1 h
    exact hd.adds_self
  | cons id rest ih =>
    obtain ⟨n, hn, hrest⟩ := markOutputs_cons_eq_ok h
    have hmarked := addPrimaryOutput_spec hd hn
    exact hmarked.trans (ih hmarked.lawful hrest)

/-- The draft has the ports bound, each to at least one bit. -/
def DeclaresPorts (d d' : Draft) (ports : List Port) : Prop :=
  ∃ l : List (String × Bits), l.map Prod.fst = ports.map Port.name ∧ (∀ b ∈ l, b.2 ≠ []) ∧
    d.Rebinds d' (d.scope.bindPorts l)

theorem DeclaresPorts.nil (hd : d.Lawful) : DeclaresPorts d d [] :=
  ⟨[], rfl, nofun, hd.adds_self⟩

/-- A port is declared, its signals are marked, and its name becomes one that is bound from
outside. -/
theorem DeclaresPorts.cons {d₁ d₂ : Draft} {p : Port} {rest : List Port} {bits : Bits}
    (hd : d.Lawful) (hdeclare : (Elab.declare p.name p.width).run d = .ok (bits, d₁))
    (hmark : d₁.Lawful → d₁.Adds d₂)
    (hrest : d₂.Lawful → DeclaresPorts { d₂ with scope := d₂.scope.addPort p.name } d' rest) :
    DeclaresPorts d d' (p :: rest) := by
  obtain ⟨hbound, hlength⟩ := Elab.declare_spec hd hdeclare
  have hmarked := hbound.adds (hmark hbound.lawful)
  obtain ⟨l, hnames, hl, hports⟩ := hrest hmarked.lawful
  refine ⟨(p.name, bits) :: l, ?_, ?_, ?_⟩
  · rw [List.map_cons, List.map_cons, hnames]
  · exact List.forall_mem_cons.2 ⟨Elab.ne_nil_of_length hlength, hl⟩
  · rw [Scope.bindPorts_cons, ← hmarked.scope_eq]
    exact (hmarked.trans (hmarked.lawful.rebinds_self _)).trans hports

/-- The first input is declared and marked, and it may be noted as the clock. -/
theorem declareInputs_cons_eq_ok {p : Port} {rest : List Port}
    (h : (declareInputs (p :: rest)).run d = .ok (u, d')) :
    ∃ bits d₁ d₂ clock, (Elab.declare p.name p.width).run d = .ok (bits, d₁) ∧
      (markInputs bits).run d₁ = .ok ((), d₂) ∧
      (declareInputs rest).run { d₂ with
        netlist := { d₂.netlist with clock }, scope := d₂.scope.addPort p.name } = .ok (u, d') := by
  obtain ⟨bits, d₁, hdeclare, h⟩ := Elab.bind_eq_ok.1 h
  obtain ⟨_, d₂, hmark, h⟩ := Elab.bind_eq_ok.1 h
  by_cases hp : (p.width = 1 && clockNames.contains p.name) = true
  · simp only [hp, if_true] at h
    obtain ⟨_, d₃, hset, h⟩ := Elab.bind_eq_ok.1 h
    obtain rfl := Elab.modifyNetlist_eq_ok.1 hset
    obtain ⟨_, d₄, hport, hrest⟩ := Elab.bind_eq_ok.1 h
    obtain rfl := Elab.modifyScope_eq_ok.1 hport
    exact ⟨bits, d₁, d₂, bits.head?, hdeclare, hmark, hrest⟩
  · simp only [hp] at h
    obtain ⟨_, d₃, hport, hrest⟩ := Elab.bind_eq_ok.1 h
    obtain rfl := Elab.modifyScope_eq_ok.1 hport
    exact ⟨bits, d₁, d₂, d₂.netlist.clock, hdeclare, hmark, hrest⟩

theorem declareInputs_spec (hd : d.Lawful) {ports : List Port}
    (h : (declareInputs ports).run d = .ok (u, d')) : DeclaresPorts d d' ports := by
  induction ports generalizing d with
  | nil =>
    obtain ⟨-, rfl⟩ := Elab.pure_eq_ok.1 h
    exact .nil hd
  | cons p rest ih =>
    obtain ⟨bits, d₁, d₂, clock, hdeclare, hmark, hrest⟩ := declareInputs_cons_eq_ok h
    have hmarked : d₁.Lawful → d₁.Adds { d₂ with netlist := { d₂.netlist with clock } } := by
      intro hd₁
      have hadds := markInputs_spec hd₁ hmark
      have hnumbered := hadds.lawful.numbered
      exact hadds.trans
        (hadds.lawful.adds_netlist ⟨hnumbered.signal, hnumbered.gate⟩ rfl rfl rfl rfl)
    exact .cons hd hdeclare hmarked fun hd₂ => ih (hd₂.rebinds_self _).lawful hrest

/-- The first output is declared and marked. -/
theorem declareOutputs_cons_eq_ok {p : Port} {rest : List Port}
    (h : (declareOutputs (p :: rest)).run d = .ok (u, d')) :
    ∃ bits d₁ d₂, (Elab.declare p.name p.width).run d = .ok (bits, d₁) ∧
      (markOutputs bits).run d₁ = .ok ((), d₂) ∧
      (declareOutputs rest).run { d₂ with scope := d₂.scope.addPort p.name } = .ok (u, d') := by
  obtain ⟨bits, d₁, hdeclare, h⟩ := Elab.bind_eq_ok.1 h
  obtain ⟨_, d₂, hmark, h⟩ := Elab.bind_eq_ok.1 h
  obtain ⟨_, d₃, hport, hrest⟩ := Elab.bind_eq_ok.1 h
  obtain rfl := Elab.modifyScope_eq_ok.1 hport
  exact ⟨bits, d₁, d₂, hdeclare, hmark, hrest⟩

theorem declareOutputs_spec (hd : d.Lawful) {ports : List Port}
    (h : (declareOutputs ports).run d = .ok (u, d')) : DeclaresPorts d d' ports := by
  induction ports generalizing d with
  | nil =>
    obtain ⟨-, rfl⟩ := Elab.pure_eq_ok.1 h
    exact .nil hd
  | cons p rest ih =>
    obtain ⟨bits, d₁, d₂, hdeclare, hmark, hrest⟩ := declareOutputs_cons_eq_ok h
    exact .cons hd hdeclare (fun hd₁ => markOutputs_spec hd₁ hmark)
      fun hd₂ => ih (hd₂.rebinds_self _).lawful hrest

/-! ## Opening -/

/-- The constants are made first, then the inputs and then the outputs. -/
theorem openTop_eq_ok {m : ModuleDecl} {top : String}
    (h : (openTop m).run (.empty top) = .ok (u, d)) :
    ∃ d₁, (declareInputs m.params).run (.constants top) = .ok ((), d₁) ∧
      (declareOutputs m.outputs).run d₁ = .ok (u, d) := by
  obtain ⟨_, d₁, hzero, h⟩ := Elab.bind_eq_ok.1 h
  obtain ⟨_, d₂, hone, h⟩ := Elab.bind_eq_ok.1 h
  obtain ⟨_, d₃, hinputs, houtputs⟩ := Elab.bind_eq_ok.1 h
  have hconstants := (declareConstants_run top).symm.trans (Elab.bind_eq_ok.2 ⟨_, _, hzero, hone⟩)
  obtain rfl : Draft.constants top = d₂ := (Prod.mk.inj (Except.ok.inj hconstants)).2
  exact ⟨d₃, hinputs, houtputs⟩

/-- The ports are bound on top of the constants. -/
theorem openTop_scope {m : ModuleDecl} {top : String}
    (h : (openTop m).run (.empty top) = .ok (u, d)) :
    ∃ l : List (String × Bits), l.map Prod.fst = m.portNames ∧ (∀ b ∈ l, b.2 ≠ []) ∧
      (Draft.constants top).Rebinds d ((Draft.constants top).scope.bindPorts l) := by
  obtain ⟨d₁, hinputs, houtputs⟩ := openTop_eq_ok h
  obtain ⟨l, hnames, hne, hins⟩ := declareInputs_spec (Draft.lawful_constants top) hinputs
  obtain ⟨l', hnames', hne', houts⟩ := declareOutputs_spec hins.lawful houtputs
  refine ⟨l ++ l', ?_, fun b hb => (List.mem_append.1 hb).elim (hne b) (hne' b), ?_⟩
  · rw [List.map_append, hnames, hnames', ← List.map_append]
    rfl
  · rw [Scope.bindPorts_append, ← hins.scope_eq]
    exact hins.trans houts

theorem openTop_spec {program : Program} {m : ModuleDecl} (hm : m.Disciplined program)
    {top : String} (h : (openTop m).run (.empty top) = .ok (u, d)) :
    d.Lawful ∧ d.scope.Starts m ∧ d.scope.owner = 0 ∧
      d.netlist.instances = (Netlist.empty top).instances := by
  obtain ⟨l, hnames, hne, hopened⟩ := openTop_scope h
  refine ⟨hopened.lawful, ?_, ?_, hopened.instances_eq⟩
  · rw [hopened.scope_eq]
    exact Scope.starts_bindPorts hm (fun _ => by simp [Draft.constants, Scope.bind, Scope.top,
      Scope.isPort]) hnames hne
  · rw [hopened.scope_eq]
    exact Scope.owner_bindPorts _ _

end NandHdl
