-- SUMMARY: The substitution of the optimizer is a forest at every point of every run, also if gates feed each other in a ring (`optimize_forest`).
import NandHdl.Proofs.Optimizer.Result

/-!
# The substitution during a run

Gates that feed each other in a ring have no levels, so a link from a gate output need not lead to
an earlier gate. What keeps links from closing a ring is how a decision is made. It adds a link only
from a signal that is read as itself. The link leads to a constant, which no gate drives and no link
leaves, or to what the search has just found, which is read as itself too. Two ends of chains become
one, and no chain comes back.
-/

namespace NandHdl

namespace Optimizer

/-! ## The states of a run -/

/-- The states from the first one on while it is decided for gates, one after the other. -/
inductive DuringDecisions (zero one : Option SignalId) : State → List Wiring → State → Prop
  | start (st : State) (gs : List Wiring) : DuringDecisions zero one st gs st
  | later {st next s : State} {g : Wiring} {gs : List Wiring} {changed : Bool} :
    substituteGate zero one st g = .ok (next, changed) → DuringDecisions zero one next gs s →
      DuringDecisions zero one st (g :: gs) s

/-- The states during a pass from the state `st`: while it is decided for its gates, after the
rewiring, and after the sweep. -/
inductive DuringPass (n : Netlist) (st : State) : State → Prop
  | deciding {s : State} :
    DuringDecisions (n.signalId? zeroName) (n.signalId? oneName) st st.gates.toList s →
      DuringPass n st s
  | rewired {decided s : State} {changed : Bool} :
    substituteGates (n.signalId? zeroName) (n.signalId? oneName) st st.gates.toList =
      .ok (decided, changed) → rewire decided = .ok s → DuringPass n st s
  | swept {s : State} {changed : Bool} : pass n st = .ok (s, changed) → DuringPass n st s

/-- The states during at most the given number of passes. After a pass that has changed something
there is another one. -/
inductive DuringPasses (n : Netlist) : Nat → State → State → Prop
  | start (left : Nat) (st : State) : DuringPasses n left st st
  | now {left : Nat} {st s : State} : DuringPass n st s → DuringPasses n (left + 1) st s
  | later {left : Nat} {st next s : State} : pass n st = .ok (next, true) →
    DuringPasses n left next s → DuringPasses n (left + 1) st s

/-- The states during a run of the optimizer. -/
def DuringRun (n : Netlist) (config : OptimizerConfig) (s : State) : Prop :=
  ∃ start, State.start n = .ok start ∧ DuringPasses n config.maxPasses start s

/-- The state that the passes end in is one of theirs. -/
theorem DuringPasses.last {n : Netlist} {left count : Nat} {st last : State}
    (h : passes n left st = .ok (last, count)) : DuringPasses n left st last := by
  induction left generalizing st count with
  | zero =>
    cases h
    exact .start _ _
  | succ left ih =>
    obtain ⟨⟨next, changed⟩, hpass, h⟩ := Except.bind_eq_ok.1 h
    cases changed with
    | false =>
      cases h
      exact .now (.swept hpass)
    | true =>
      obtain ⟨⟨last', more⟩, hrest, h⟩ := Except.bind_eq_ok.1 h
      cases h
      exact .later hpass (ih hrest)

namespace State.Linked

variable {n : Netlist} {st s : State}

/-! ## What every state keeps -/

/-- By induction on the decisions: each links one signal at most and leaves the gates alone. -/
theorem duringDecisions (h : st.Linked n) (hw : n.Wellformed)
    (hc : ∀ c, n.IsConstant c → ¬n.IsGateOutput c) {gs : List Wiring}
    (hgs : ∀ g ∈ gs, g ∈ st.gates)
    (hs : DuringDecisions (n.signalId? zeroName) (n.signalId? oneName) st gs s) : s.Linked n := by
  induction hs with
  | start => exact h
  | later hgate _ ih =>
    obtain ⟨hg, hrest⟩ := List.forall_mem_cons.1 hgs
    obtain ⟨next, changed, hgate', hnext, heq⟩ := h.substituteGate_linked hw hc hg
    cases hgate.symm.trans hgate'
    exact ih hnext (heq ▸ hrest)

theorem duringPass (h : st.Linked n) (hw : n.Wellformed)
    (hc : ∀ c, n.IsConstant c → ¬n.IsGateOutput c) (hs : DuringPass n st s) : s.Linked n := by
  have hall : ∀ g ∈ st.gates.toList, g ∈ st.gates := fun g hg => Array.mem_toList_iff.1 hg
  cases hs with
  | deciding hs => exact h.duringDecisions hw hc hall hs
  | rewired hdecided hrewired =>
    obtain ⟨decided, changed, hdecided', hlinked⟩ := h.substituteGates_ok hw hc hall
    cases hdecided.symm.trans hdecided'
    cases hrewired.symm.trans hlinked.rewire_eq
    exact hlinked.rewired
  | swept hpass =>
    obtain ⟨next, changed, hpass', hnext⟩ := h.pass_ok hw hc
    cases hpass.symm.trans hpass'
    exact hnext

theorem duringPasses (h : st.Linked n) (hw : n.Wellformed)
    (hc : ∀ c, n.IsConstant c → ¬n.IsGateOutput c) {left : Nat}
    (hs : DuringPasses n left st s) : s.Linked n := by
  induction hs with
  | start => exact h
  | now hs => exact h.duringPass hw hc hs
  | later hpass _ ih => exact ih (h.duringPass hw hc (.swept hpass))

end State.Linked

end Optimizer

/-! ## The theorem -/

open Optimizer in
/-- Take a netlist that validation accepts and in which no gate drives a constant. Gates may feed
each other in rings. The optimizer answers, and at every point of its run the substitution is a
forest: no chain of links comes back to where it was, and every search ends at a signal that is read
as itself without being cut short by the bound on its steps. -/
theorem optimize_forest {n : Netlist} (hvalid : n.validate = .ok ())
    (hc : ∀ c, n.IsConstant c → ¬n.IsGateOutput c) (config : OptimizerConfig) :
    (∃ (report : OptimizeReport) (last : State), optimize n config = .ok report ∧
      DuringRun n config last ∧
      report.netlist = if report.applied then last.netlist n else n) ∧
    ∀ st, DuringRun n config st → st.subst.size = n.signals.size ∧ st.subst.Forest ∧
      ∀ s < n.signals.size, ∃ r, st.subst.EndsAt s r := by
  have hw : n.Wellformed := Netlist.validate_eq_ok.1 hvalid
  obtain ⟨driver, hstart, hindex⟩ := State.start_eq hw
  have hlinked := State.initial_linked hw hindex
  constructor
  · obtain ⟨last, count, hpasses, -⟩ := State.passes_ok (fun h => h.pass_ok hw hc) hlinked
      config.maxPasses
    obtain ⟨report, hreport, -, -, hnetlist⟩ := optimize_of_passes hstart hpasses
    exact ⟨report, last, hreport, ⟨_, hstart, .last hpasses⟩, hnetlist⟩
  · rintro st ⟨start, hstart', hst⟩
    cases hstart.symm.trans hstart'
    have h := hlinked.duringPasses hw hc hst
    obtain ⟨rank, hdescends⟩ := h.descends
    exact ⟨h.subst_size, hdescends.forest, fun s hs =>
      ⟨_, hdescends.endsAt (h.subst_size ▸ hs)⟩⟩

/-- Four inverters in a ring. -/
def inverterRing : Netlist :=
  let signals := (((((Netlist.empty "ring").addSignal zeroName 0).addSignal oneName 0).addSignal
    "a" 0).addSignal "b" 0 |>.addSignal "c" 0).addSignal "d" 0
  { (((signals.addNand 5 5 2).addNand 2 2 3).addNand 3 3 4).addNand 4 4 5 with
    primaryOutputs := #[5] }

theorem inverterRing_zero : inverterRing.signalId? zeroName = some 0 := by decide +kernel

theorem inverterRing_one : inverterRing.signalId? oneName = some 1 := by decide +kernel

theorem inverterRing_constant {c : SignalId} (hc : inverterRing.IsConstant c) :
    ¬inverterRing.IsGateOutput c := by
  have hbelow : c = 0 ∨ c = 1 := by
    rcases hc with h | h
    · exact .inl (Option.some.inj (h.symm.trans inverterRing_zero))
    · exact .inr (Option.some.inj (h.symm.trans inverterRing_one))
  clear hc
  rintro ⟨g, hg, rfl⟩
  revert g
  decide

open Optimizer in
/-- Two of the inverters are bypassed, and each link leads to an inverter of the ring. -/
theorem inverterRing_passes :
    (do
      let (last, _) ← passes inverterRing 3 (← State.start inverterRing)
      return last.subst) = Except.ok #[0, 1, 4, 3, 4, 3] := by
  simp only [Optimizer.passes, Optimizer.pass, inverterRing_zero, inverterRing_one]
  decide +kernel

open Optimizer in
theorem optimize_forest_inverterRing :
    inverterRing.validate = .ok () ∧
      (∀ c, inverterRing.IsConstant c → ¬inverterRing.IsGateOutput c) ∧
      ∃ st, DuringRun inverterRing { maxPasses := 3 } st ∧ st.subst = #[0, 1, 4, 3, 4, 3] ∧
        st.subst.Forest ∧ ∀ s < inverterRing.signals.size, ∃ r, st.subst.EndsAt s r := by
  have hvalid : inverterRing.validate = .ok () := by decide +kernel
  obtain ⟨start, hstart, h⟩ := Except.bind_eq_ok.1 inverterRing_passes
  obtain ⟨⟨last, count⟩, hpasses, h⟩ := Except.bind_eq_ok.1 h
  have hrun : DuringRun inverterRing { maxPasses := 3 } last := ⟨start, hstart, .last hpasses⟩
  obtain ⟨-, hforest, hends⟩ :=
    (optimize_forest hvalid (fun _ => inverterRing_constant) { maxPasses := 3 }).2 last hrun
  exact ⟨hvalid, fun _ => inverterRing_constant, last, hrun, Except.ok.inj h, hforest, hends⟩

end NandHdl
