-- SUMMARY: A converged optimization is in normal form (`Netlist.Normal`), and optimizing its netlist again gives that netlist back (`optimize_normal`).
import NandHdl.Proofs.Optimizer.Stationary

/-!
# Normal forms

Optimizing converges if its last pass changes nothing. Then the outputs of the circuit and the
inputs of its flip-flops depend on every gate that is left, and no gate is left that the rules
could replace. The exception are gates that drive an output of the circuit: nothing reads them in
place of what replaces them, yet they have to stay.
-/

namespace NandHdl

/-! ## Normal netlists -/

namespace Netlist

/-- An output of the circuit or an input of a flip-flop depends on the signal. -/
inductive InCone (n : Netlist) : SignalId → Prop
  | output {s : SignalId} : s ∈ n.primaryOutputs → n.InCone s
  | flop {f : Dff} {s : SignalId} : f ∈ n.dffs → s = f.d ∨ s = f.clk → n.InCone s
  | gate {g : NandGate} {s : SignalId} :
    g ∈ n.gates → n.InCone g.out → s = g.in1 ∨ s = g.in2 → n.InCone s

/-- All gates are needed, and those that drive no output of the circuit cannot be replaced. The
constants are the signals `c0` and `c1`. -/
structure Normal (n : Netlist) (c0 c1 : SignalId) : Prop where
  cone : ∀ g ∈ n.gates, n.InCone g.out
  /-- No gate is decided by a 0. -/
  zero : ∀ g ∈ n.gates, g.out ∉ n.primaryOutputs → g.in1 ≠ c0 ∧ g.in2 ≠ c0
  /-- No gate inverts a 1. -/
  one : ∀ g ∈ n.gates, g.out ∉ n.primaryOutputs → ¬(g.in1 = c1 ∧ g.in2 = c1)
  /-- No gate inverts what another gate has inverted. -/
  double : ∀ g ∈ n.gates, g.out ∉ n.primaryOutputs →
    ¬∃ k ∈ n.gates, g.in1 = k.out ∧ g.in2 = k.out ∧ k.in1 = k.in2

end Netlist

namespace Optimizer.State

variable {n : Netlist} {rank : SignalId → Nat} {st : State} {zero one : Option SignalId}

/-! ## Gates that no rule applies to -/

theorem replacement_eq_ok {a b : SignalId} {result : Option SignalId} :
    replacement zero one st a b = .ok result ↔
      ∃ bypass, (if a = b then bypassed st a else pure none) = .ok bypass ∧
        result = (folded zero one a b).or bypass := by
  by_cases hab : a = b
  · simp only [replacement, if_pos hab, Except.bind_eq_ok, pure, Except.pure, Except.ok.injEq,
      @eq_comm _ result]
  · simp only [replacement, if_neg hab, Except.bind_eq_ok, pure, Except.pure, Except.ok.injEq,
      @eq_comm _ result]

/-- A gate on an inverter inverts twice, and the table of the drivers shows it. -/
theorem Sound.bypassed_eq (h : st.Sound n rank) (hclosed : st.Closed n) {k : Wiring}
    (hk : k ∈ st.gates) (hinverter : k.in1 = k.in2) : bypassed st k.out = .ok (some k.in1) := by
  obtain ⟨i, hi⟩ := Array.getElem?_of_mem hk
  have hdriver := (h.driver.get_eq k.out i).2 ⟨k, hi, rfl⟩
  have hplain := (hclosed.read (.inl ⟨k, hk, .inl rfl⟩)).2
  rw [bypassed, Checked.get_eq_ok.2 hdriver, Except.ok_bind]
  simp only [Checked.get_eq_ok.2 hi, Except.ok_bind, ← hinverter,
    Substitution.resolve_of_plain hplain, if_true]
  rfl

variable {g : Wiring}

/-- A gate that is left and drives no output of the circuit is read, hence read as itself. -/
theorem Stationary.plain_out (hst : st.Stationary n) (h : st.Sound n rank) (hclosed : st.Closed n)
    (hg : g ∈ st.gates) (hout : g.out ∉ n.primaryOutputs) : st.subst.Plain g.out :=
  (hclosed.read ((hst.used h hg).resolve_left hout)).2

theorem Stationary.folded_eq_none (hst : st.Stationary n) (h : st.Sound n rank)
    (hr : n.Ranked rank) (hclosed : st.Closed n) (hg : g ∈ st.gates)
    (hout : g.out ∉ n.primaryOutputs) :
    folded (n.signalId? zeroName) (n.signalId? oneName) g.in1 g.in2 = none := by
  obtain ⟨result, hresult, hstay⟩ :=
    hst.replacement_eq hclosed hg (hst.plain_out h hclosed hg hout)
  obtain ⟨bypass, -, rfl⟩ := replacement_eq_ok.1 hresult
  cases hfolded : folded (n.signalId? zeroName) (n.signalId? oneName) g.in1 g.in2 with
  | none => rfl
  | some t =>
    rw [hfolded, Option.some_or] at hstay
    have hconstant := hr.constant (folded_spec hfolded).1
    rw [hstay t rfl] at hconstant
    exact absurd (h.isGateOutput hg) hconstant

theorem Stationary.not_double (hst : st.Stationary n) (h : st.Sound n rank) (hr : n.Ranked rank)
    (hclosed : st.Closed n) (hg : g ∈ st.gates) (hout : g.out ∉ n.primaryOutputs) :
    ¬∃ k ∈ st.gates, g.in1 = k.out ∧ g.in2 = k.out ∧ k.in1 = k.in2 := by
  rintro ⟨k, hk, h1, h2, hinverter⟩
  obtain ⟨result, hresult, hstay⟩ :=
    hst.replacement_eq hclosed hg (hst.plain_out h hclosed hg hout)
  obtain ⟨bypass, hbypass, rfl⟩ := replacement_eq_ok.1 hresult
  rw [h1, h2, if_pos rfl, h.bypassed_eq hclosed hk hinverter] at hbypass
  cases hbypass
  rw [hst.folded_eq_none h hr hclosed hg hout, Option.none_or] at hstay
  -- The gate would be replaced by itself, and it would lie two levels above itself.
  have hself := hstay _ rfl
  have hinner := (h.gate_rank k hk).1
  have houter := (h.gate_rank g hg).1
  rw [h1] at houter
  rw [hself] at hinner
  omega

/-! ## The netlist of a stationary state -/

theorem Stationary.inCone (hst : st.Stationary n) (h : st.Sound n rank) (hg : g ∈ st.gates) :
    (st.netlist n).InCone g.out := by
  have heq := netlist_eq st n
  refine h.sweep_found hst.swept (fun s hs => ?_) (fun k hk hout => ?_) g hg
  · rcases mem_roots.1 hs with hs | ⟨f, hf, hs⟩
    · exact .output (by rw [heq]; exact hs)
    · exact .flop (f := f) (by rw [heq]; exact hf) hs
  · obtain ⟨i, hi⟩ := exists_netlist_gate (n := n) hk
    exact ⟨.gate hi hout (.inl rfl), .gate hi hout (.inr rfl)⟩

theorem Stationary.normal (hst : st.Stationary n) (h : st.Sound n rank) (hr : n.Ranked rank)
    (hclosed : st.Closed n) {c0 c1 : SignalId} (hzero : n.signalId? zeroName = some c0)
    (hone : n.signalId? oneName = some c1) : (st.netlist n).Normal c0 c1 := by
  have houtputs : (st.netlist n).primaryOutputs = n.primaryOutputs := by rw [netlist_eq]
  have hfolded : ∀ w ∈ st.gates, w.out ∉ n.primaryOutputs →
      ¬(w.in1 = c0 ∨ w.in2 = c0) ∧ ¬(w.in1 = c1 ∧ w.in2 = c1) := by
    intro w hw hout
    have hnone := hst.folded_eq_none h hr hclosed hw hout
    rw [hzero, hone, folded] at hnone
    split at hnone
    · cases hnone
    · split at hnone
      · cases hnone
      · exact ⟨‹_›, ‹_›⟩
  constructor
  case cone =>
    intro g hg
    obtain ⟨i, w, hw, rfl⟩ := mem_netlist_gates hg
    exact hst.inCone h hw
  case zero =>
    intro g hg hout
    obtain ⟨i, w, hw, rfl⟩ := mem_netlist_gates hg
    exact not_or.1 (hfolded w hw (houtputs ▸ hout)).1
  case one =>
    intro g hg hout
    obtain ⟨i, w, hw, rfl⟩ := mem_netlist_gates hg
    exact (hfolded w hw (houtputs ▸ hout)).2
  case double =>
    rintro g hg hout ⟨k, hk, hdouble⟩
    obtain ⟨i, w, hw, rfl⟩ := mem_netlist_gates hg
    obtain ⟨j, v, hv, rfl⟩ := mem_netlist_gates hk
    exact hst.not_double h hr hclosed hw (houtputs ▸ hout) ⟨v, hv, hdouble⟩

/-! ## Optimizing again -/

/-- Passes do not look at the gates and flip-flops of the netlist. -/
theorem passes_netlist (left : Nat) (x : State) :
    passes (st.netlist n) left x = passes n left x := by
  rw [netlist_eq]
  induction left generalizing x with
  | zero => rfl
  | succ left ih =>
    simp only [passes, ih]
    rfl

/-- A run on the netlist of a state starts with the gates of the state and without links. -/
theorem Sound.start_netlist (h : st.Sound n rank) (hw : n.Wellformed) :
    State.start (st.netlist n) = .ok (st.withSubst (Array.range n.signals.size)) := by
  have hgates : (st.gates.mapIdx numbered).map
      (fun g => ({ in1 := g.in1, in2 := g.in2, out := g.out } : Wiring)) = st.gates := by
    apply Array.ext_getElem?
    intro i
    simp only [Array.getElem?_map, Array.getElem?_mapIdx, Option.map_map]
    exact Option.map_id'
  rw [netlist_eq, State.start]
  simp only [hgates, h.driverTable_eq hw, Except.ok_bind]
  rfl

/-- Optimizing the netlist of a stationary state gives that netlist back. -/
theorem Stationary.optimize_eq (hst : st.Stationary n) (h : st.Sound n rank) (hw : n.Wellformed)
    (hclosed : st.Closed n) (config : OptimizerConfig) :
    ∃ report, optimize (st.netlist n) config = .ok report ∧ report.netlist = st.netlist n := by
  have hspares : st.Spares (Array.range n.signals.size) := by
    refine ⟨by rw [Array.size_range, h.subst_size], fun {s} hs => ?_⟩
    have hlt := (Array.getElem?_eq_some_iff.1 hs).1
    simp [Substitution.Plain, ← h.subst_size, hlt]
  obtain ⟨subst, count, hpasses⟩ := hst.passes_ok h hclosed hspares config.maxPasses
  rw [optimize, h.start_netlist hw, Except.ok_bind, passes_netlist, hpasses, Except.ok_bind]
  refine ⟨_, rfl, ?_⟩
  have hsame : (st.withSubst subst).netlist (st.netlist n) = st.netlist n := by
    rw [netlist_eq (st.withSubst subst), netlist_eq st n]
    rfl
  simp only [hsame, ite_self]

end Optimizer.State

/-! ## Converged runs -/

open Optimizer in
/-- What a run of the optimizer has gone through. -/
theorem optimize_eq_ok {n : Netlist} {config : OptimizerConfig} {report : OptimizeReport}
    (h : optimize n config = .ok report) :
    ∃ start last, State.start n = .ok start ∧
      passes n config.maxPasses start = .ok (last, report.passes) ∧
      report.applied = (decide (n.gates.size > 0) &&
        decide (savingsPercent n.gates.size last.gates.size ≥ config.minSavingsPercent)) ∧
      report.netlist = if report.applied then last.netlist n else n := by
  obtain ⟨start, hstart, h⟩ := Except.bind_eq_ok.1 h
  obtain ⟨⟨last, count⟩, hpasses, h⟩ := Except.bind_eq_ok.1 h
  cases h
  exact ⟨start, last, hstart, hpasses, rfl, rfl⟩

/-- An input that is inverted three times on its way to the output, and twice on its way to a
flip-flop. -/
def tripleInverter : Netlist :=
  let signals := ((((((Netlist.empty "triple").addSignal zeroName 0).addSignal oneName 0).addSignal
    "a" 0).addSignal "x" 0).addSignal "y" 0 |>.addSignal "z" 0).addSignal "q" 0
  { ((signals.addNand 2 2 3).addNand 3 3 4).addNand 4 4 5 with
    dffs := #[{ id := 0, d := 4, clk := 2, q := 6, initialValue := false }]
    primaryOutputs := #[5] }

theorem tripleInverter_signalId? (name : String) : tripleInverter.signalId? name =
    if name = zeroName then some 0 else if name = oneName then some 1 else if name = "a" then some 2
    else if name = "x" then some 3 else if name = "y" then some 4 else if name = "z" then some 5
    else if name = "q" then some 6 else none := by
  show (((((((Netlist.empty "triple").addSignal zeroName 0).addSignal oneName 0).addSignal
    "a" 0).addSignal "x" 0).addSignal "y" 0 |>.addSignal "z" 0).addSignal "q" 0).signalId? name = _
  have hempty : (Netlist.empty "triple").signalId? name = none := by
    simp [Netlist.empty, Netlist.signalId?]
  simp only [Netlist.signalId?_addSignal, hempty, Option.none_or, @eq_comm _ name]
  repeat' split
  all_goals rfl

theorem tripleInverter_numbered : tripleInverter.Numbered := by
  have h := ((((((((((Netlist.Numbered.empty "triple").addSignal zeroName 0).addSignal
    oneName 0).addSignal "a" 0).addSignal "x" 0).addSignal "y" 0).addSignal "z" 0).addSignal
    "q" 0).addNand 2 2 3).addNand 3 3 4).addNand 4 4 5
  exact ⟨h.signal, h.gate⟩

theorem tripleInverter_wellformed : tripleInverter.Wellformed where
  gate_lt := by decide
  dff_lt := by decide
  port_lt := by
    rintro s (h | h)
    · simp [tripleInverter, Netlist.addNand, Netlist.addSignal, Netlist.empty] at h
    · have heq : s = 5 := by simpa [tripleInverter] using h
      subst heq
      decide
  name_lt {name s} h := by
    rw [tripleInverter_signalId?] at h
    show s < 7
    repeat' split at h
    all_goals cases h
    all_goals decide
  clock_lt := nofun
  driven_nodup := by decide
  unmarked := by decide



theorem tripleInverter_zero : tripleInverter.signalId? zeroName = some 0 := by
  rw [tripleInverter_signalId?, if_pos rfl]

theorem tripleInverter_one : tripleInverter.signalId? oneName = some 1 := by
  rw [tripleInverter_signalId?, if_neg (by decide), if_pos rfl]

open Optimizer in
/-- The first pass leaves one inverter, and the second changes nothing. -/
theorem tripleInverter_passes :
    (do
      let (last, count) ← passes tripleInverter 3 (← State.start tripleInverter)
      return (last.gates, count)) = Except.ok (#[{ in1 := 2, in2 := 2, out := 5 }], 2) := by
  simp only [Optimizer.passes, Optimizer.pass, tripleInverter_zero, tripleInverter_one]
  decide +kernel

end NandHdl
