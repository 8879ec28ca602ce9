-- SUMMARY: The optimizer answers for every netlist with levels, and its netlist has levels and stands for the given one (`optimize_ok`).
import NandHdl.Proofs.Optimizer.Redirect
import NandHdl.Proofs.Optimizer.Sweep

/-!
# The optimized netlist

Every pass keeps the state sound and closed, however many passes there are. A netlist that is
built from such a state is well formed, and since its gates still read signals of lower rank, it
has levels.
-/

namespace NandHdl

/-! ## Standing for a netlist -/

namespace Netlist

/-- Signals whose value matters: outputs of the circuit, and what gates and flip-flops read. -/
def Needs (n : Netlist) (s : SignalId) : Prop :=
  s ∈ n.primaryOutputs ∨ (∃ g ∈ n.gates, s = g.in1 ∨ s = g.in2) ∨ ∃ f ∈ n.dffs, s = f.d

/-- The netlist `r` stands for `n`. It has the same signals, and whatever is consistent with `n`
settles `r`. What `r` needs and a gate of `n` computes, a gate of `r` computes. -/
structure StandsFor (r n : Netlist) (rank : SignalId → Nat) : Prop where
  signals_eq : r.signals = n.signals
  names_eq : r.names = n.names
  primaryOutputs_eq : r.primaryOutputs = n.primaryOutputs
  output : ∀ {s}, r.IsGateOutput s → n.IsGateOutput s
  settled : ∀ {v}, n.Consistent v → r.Settled v
  rank_lt : ∀ g ∈ r.gates, rank g.in1 < rank g.out ∧ rank g.in2 < rank g.out
  needed : ∀ {s}, r.Needs s → n.IsGateOutput s → r.IsGateOutput s
  dffs : List.Forall₂ (Optimizer.SameFlop n) n.dffs.toList r.dffs.toList

end Netlist

namespace Optimizer.State

variable {n : Netlist} {rank : SignalId → Nat} {st : State}

/-! ## Passes -/

/-- What every pass keeps holds when the passes end. -/
theorem passes_ok {P : State → Prop}
    (hpass : ∀ {st}, P st → ∃ next changed, pass n st = .ok (next, changed) ∧ P next) (h : P st)
    (left : Nat) : ∃ last count, passes n left st = .ok (last, count) ∧ P last := by
  induction left generalizing st with
  | zero => exact ⟨st, 0, rfl, h⟩
  | succ left ih =>
    obtain ⟨next, changed, hnext, hP⟩ := hpass h
    cases changed with
    | false =>
      refine ⟨next, 1, ?_, hP⟩
      simp only [passes, hnext, Except.ok_bind]
      rfl
    | true =>
      obtain ⟨last, count, hrest, hlast⟩ := ih hP
      refine ⟨last, count + 1, ?_, hlast⟩
      simp only [passes, hnext, Except.ok_bind, if_true, hrest]
      rfl

theorem Linked.pass_ok (h : st.Linked n) (hw : n.Wellformed)
    (hc : ∀ c, n.IsConstant c → ¬n.IsGateOutput c) :
    ∃ next changed, pass n st = .ok (next, changed) ∧ next.Linked n := by
  obtain ⟨linked, changed, hlinked, h'⟩ := h.substituteGates_ok hw hc
    fun g hg => Array.mem_toList_iff.1 hg
  obtain ⟨next, hsweep, hnext⟩ := h'.rewired.sweep_ok hw
  refine ⟨next, changed || next.gates.size < (linked.gates.map linked.rewired).size, ?_, hnext⟩
  simp only [pass, hlinked, Except.ok_bind, h'.rewire_eq, hsweep]
  rfl

theorem Sound.pass_ok (h : st.Sound n rank) (hr : n.Ranked rank) (hw : n.Wellformed)
    (hclosed : st.Closed n) :
    ∃ next changed, pass n st = .ok (next, changed) ∧ next.Sound n rank ∧ next.Closed n := by
  obtain ⟨linked, changed, hlinked, hsound, hext⟩ := substituteGates_ok h hr hw hclosed
    (Extends.refl st n) h fun g hg => Array.mem_toList_iff.1 hg
  obtain ⟨next, hnext, hsound', hclosed'⟩ :=
    hsound.rewired.sweep_ok hw (hext.closed hsound h hclosed)
  refine ⟨next, changed || next.gates.size < (linked.gates.map linked.rewired).size, ?_,
    hsound', hclosed'⟩
  simp only [pass, hlinked, Except.ok_bind, hsound.linked.rewire_eq, hnext]
  rfl

theorem Sound.passes_ok (h : st.Sound n rank) (hr : n.Ranked rank) (hw : n.Wellformed)
    (hclosed : st.Closed n) (left : Nat) :
    ∃ last count, passes n left st = .ok (last, count) ∧ last.Sound n rank ∧ last.Closed n :=
  State.passes_ok (P := fun st => st.Sound n rank ∧ st.Closed n)
    (fun hst => hst.1.pass_ok hr hw hst.2) ⟨h, hclosed⟩ left

/-! ## The netlist of a state -/

/-- The gate with a number. -/
def numbered (i : Nat) (g : Wiring) : NandGate := { id := i, in1 := g.in1, in2 := g.in2, out := g.out }

theorem addNands_eq (gs : List Wiring) (m : Netlist) :
    gs.foldl (fun n g => n.addNand g.in1 g.in2 g.out) m =
      { m with gates := m.gates ++ (gs.mapIdx fun i g => numbered (m.gates.size + i) g).toArray } := by
  induction gs generalizing m with
  | nil => simp
  | cons g rest ih =>
    rw [List.foldl_cons, ih]
    simp [Netlist.addNand, numbered, List.mapIdx_cons, Nat.add_right_comm, Nat.add_assoc]

theorem netlist_eq (st : State) (n : Netlist) :
    st.netlist n = { n with dffs := st.dffs, gates := st.gates.mapIdx numbered } := by
  rw [netlist, ← Array.foldl_toList, addNands_eq]
  simp [← List.mapIdx_toArray]

theorem mem_netlist_gates {g : NandGate} (hg : g ∈ (st.netlist n).gates) :
    ∃ i, ∃ w ∈ st.gates, g = numbered i w := by
  rw [netlist_eq] at hg
  obtain ⟨i, hi, rfl⟩ := Array.mem_mapIdx.1 hg
  exact ⟨i, st.gates[i], Array.getElem_mem hi, rfl⟩

theorem exists_netlist_gate {w : Wiring} (hw : w ∈ st.gates) :
    ∃ i, numbered i w ∈ (st.netlist n).gates := by
  obtain ⟨i, hi, rfl⟩ := Array.getElem_of_mem hw
  rw [netlist_eq]
  exact ⟨i, Array.mem_mapIdx.2 ⟨i, hi, rfl⟩⟩

theorem netlist_numbered (hn : n.Numbered) : (st.netlist n).Numbered where
  signal hi := by
    rw [netlist_eq] at hi
    exact hn.signal hi
  gate {i g} hi := by
    rw [netlist_eq, Array.getElem?_mapIdx] at hi
    obtain ⟨w, -, rfl⟩ := Option.map_eq_some_iff.1 hi
    rfl

theorem netlist_outs (st : State) (n : Netlist) :
    (st.netlist n).gates.toList.map NandGate.out = st.gates.toList.map Wiring.out := by
  rw [netlist_eq]
  apply List.ext_getElem?
  intro i
  simp only [List.getElem?_map, Array.getElem?_toList, Array.getElem?_mapIdx, Option.map_map]
  rfl

/-- Flip-flops keep their outputs. -/
theorem Sound.qs_eq (h : st.Sound n rank) :
    st.dffs.toList.map Dff.q = n.dffs.toList.map Dff.q := by
  have hqs : List.Forall₂ (fun q q' : SignalId => q = q') (st.dffs.toList.map Dff.q)
      (n.dffs.toList.map Dff.q) := by
    rw [List.forall₂_map_left_iff, List.forall₂_map_right_iff]
    exact h.dffs.flip.imp fun _ _ hflop => hflop.q_eq
  exact List.forall₂_eq_eq_eq ▸ hqs

theorem Sound.netlist_wellformed (h : st.Sound n rank) (hw : n.Wellformed) :
    (st.netlist n).Wellformed := by
  have heq := netlist_eq st n
  have hsignals : (st.netlist n).signals = n.signals := by rw [heq]
  have hdffs : (st.netlist n).dffs = st.dffs := by rw [heq]
  have hnames : ∀ name, (st.netlist n).signalId? name = n.signalId? name := fun _ => by rw [heq]; rfl
  exact {
    gate_lt := by
      intro g hg
      obtain ⟨i, w, hw', rfl⟩ := mem_netlist_gates hg
      exact hsignals ▸ h.gate_lt w hw'
    dff_lt := by
      intro f hf
      rw [hdffs] at hf
      have hq : f.q ∈ n.dffs.toList.map Dff.q :=
        h.qs_eq ▸ List.mem_map_of_mem (Array.mem_toList_iff.2 hf)
      obtain ⟨k, hk, hkq⟩ := List.mem_map.1 hq
      rw [hsignals, ← hkq]
      exact ⟨h.reads_lt (.inr ⟨f, hf, .inl rfl⟩), h.reads_lt (.inr ⟨f, hf, .inr rfl⟩),
        (hw.dff_lt k (Array.mem_toList_iff.1 hk)).2.2⟩
    port_lt := by
      rw [heq]
      exact hw.port_lt
    name_lt := fun hname => hsignals ▸ hw.name_lt (hnames _ ▸ hname)
    clock_lt := by
      rw [heq]
      exact hw.clock_lt
    driven_nodup := by
      rw [Netlist.drivenSignals, netlist_outs, hdffs, h.qs_eq]
      exact hw.driven_nodup.sublist ((List.Sublist.refl _).append h.outs)
    unmarked := by
      intro g hg
      obtain ⟨i, w, hw', rfl⟩ := mem_netlist_gates hg
      obtain ⟨k, hk, hout⟩ := h.isGateOutput hw'
      have hmark := hw.unmarked k hk
      rw [hout] at hmark
      exact hsignals ▸ hmark }

/-- A netlist with ranked gates has levels. -/
theorem levelize_of_rank {r : Netlist} (hw : r.Wellformed) (hn : r.Numbered)
    (hrank : ∀ g ∈ r.gates, rank g.in1 < rank g.out ∧ rank g.in2 < rank g.out) :
    ∃ l, levelize r = .ok l := by
  refine @levelize_ok _ hw hn (fun i => rank ((r.gates[i]?).map NandGate.out |>.getD 0)) ?_
  rintro i d ⟨g, hg, hdrives⟩
  have hgate := hrank g (Array.mem_of_getElem? hg)
  have hbelow : ∀ s, r.Drives d s → rank ((r.gates[d]?).map NandGate.out |>.getD 0) = rank s := by
    rintro s ⟨k, hk, rfl⟩
    rw [hk]
    rfl
  rw [hg]
  rcases hdrives with hd | hd
  · rw [hbelow _ hd]
    exact hgate.1
  · rw [hbelow _ hd]
    exact hgate.2

theorem Sound.standsFor (h : st.Sound n rank) (hclosed : st.Closed n) :
    (st.netlist n).StandsFor n rank := by
  have heq := netlist_eq st n
  have hdffs : (st.netlist n).dffs = st.dffs := by rw [heq]
  have hcomputes : ∀ {s}, st.Computes n s → n.IsGateOutput s → (st.netlist n).IsGateOutput s := by
    intro s hs hout
    obtain ⟨w, hw, rfl⟩ := hs hout
    obtain ⟨i, hi⟩ := exists_netlist_gate (n := n) hw
    exact ⟨_, hi, rfl⟩
  exact {
    signals_eq := by rw [heq]
    names_eq := by rw [heq]
    primaryOutputs_eq := by rw [heq]
    output := by
      rintro s ⟨g, hg, rfl⟩
      obtain ⟨i, w, hw, rfl⟩ := mem_netlist_gates hg
      exact h.isGateOutput hw
    settled := by
      intro v hv g hg
      obtain ⟨i, w, hw, rfl⟩ := mem_netlist_gates hg
      exact h.gate_value hv w hw
    rank_lt := by
      intro g hg
      obtain ⟨i, w, hw, rfl⟩ := mem_netlist_gates hg
      exact h.gate_rank w hw
    needed := by
      intro s hs
      rcases hs with hs | ⟨g, hg, hs⟩ | ⟨f, hf, rfl⟩
      · rw [heq] at hs
        exact hcomputes (hclosed.output s hs)
      · obtain ⟨i, w, hw, rfl⟩ := mem_netlist_gates hg
        exact hcomputes (hclosed.read (.inl ⟨w, hw, hs⟩)).1
      · exact hcomputes (hclosed.read (.inr ⟨f, hdffs ▸ hf, .inl rfl⟩)).1
    dffs := hdffs ▸ h.dffs }

end Optimizer.State

theorem Netlist.StandsFor.refl {n : Netlist} {rank : SignalId → Nat} (hw : n.Wellformed)
    (hr : n.Ranked rank) : n.StandsFor n rank where
  signals_eq := rfl
  names_eq := rfl
  primaryOutputs_eq := rfl
  output := id
  settled hv := hv.settled
  rank_lt := hr.gate
  needed _ := id
  dffs := List.forall₂_same.2 fun f hf =>
    have hlt := hw.dff_lt f (Array.mem_toList_iff.1 hf)
    ⟨rfl, rfl, rfl, hlt.1, hlt.2.1, fun _ => rfl⟩

open Optimizer in
/-- If the passes end, the report is about the netlist of their last state or about the given
one. -/
theorem optimize_of_passes {n : Netlist} {config : OptimizerConfig} {start last : State}
    {count : Nat} (hstart : State.start n = .ok start)
    (hpasses : passes n config.maxPasses start = .ok (last, count)) :
    ∃ report : OptimizeReport, optimize n config = .ok report ∧
      report.gatesBefore = n.gates.size ∧ report.gatesAfter = report.netlist.gates.size ∧
      report.netlist = if report.applied then last.netlist n else n := by
  let applied := decide (n.gates.size > 0) &&
    decide (savingsPercent n.gates.size last.gates.size ≥ config.minSavingsPercent)
  let result := if applied then last.netlist n else n
  refine ⟨{ netlist := result, gatesBefore := n.gates.size, gatesAfter := result.gates.size,
            passes := count, applied }, ?_, rfl, rfl, rfl⟩
  rw [optimize, hstart, Except.ok_bind, hpasses]
  rfl

open Optimizer in
/-- The passes end in a sound state, and the report is about its netlist or about the given one. -/
theorem optimize_eq {n : Netlist} {rank : SignalId → Nat} (hw : n.Wellformed) (hr : n.Ranked rank)
    (config : OptimizerConfig) :
    ∃ (report : OptimizeReport) (last : State), optimize n config = .ok report ∧
      last.Sound n rank ∧ last.Closed n ∧ report.gatesBefore = n.gates.size ∧
      report.gatesAfter = report.netlist.gates.size ∧
      report.netlist = if report.applied then last.netlist n else n := by
  obtain ⟨start, hstart, hsound, hclosed⟩ := State.start_ok hw hr
  obtain ⟨last, count, hpasses, hlast, hclosed'⟩ := hsound.passes_ok hr hw hclosed config.maxPasses
  obtain ⟨report, hreport, hfields⟩ := optimize_of_passes hstart hpasses
  exact ⟨report, last, hreport, hlast, hclosed', hfields⟩

open Optimizer in
/-- The optimizer answers with a netlist that has levels and stands for the given one. -/
theorem optimize_ok {n : Netlist} {rank : SignalId → Nat} (hn : n.Numbered) (hw : n.Wellformed)
    (hr : n.Ranked rank) (config : OptimizerConfig) :
    ∃ report l, optimize n config = .ok report ∧ report.netlist.Numbered ∧
      report.netlist.StandsFor n rank ∧ levelize report.netlist = .ok l := by
  obtain ⟨report, last, hok, hlast, hclosed, -, -, hnetlist⟩ := optimize_eq hw hr config
  have hresult : report.netlist.Numbered ∧ report.netlist.Wellformed ∧
      report.netlist.StandsFor n rank := by
    rw [hnetlist]
    split
    · exact ⟨State.netlist_numbered hn, hlast.netlist_wellformed hw, hlast.standsFor hclosed⟩
    · exact ⟨hn, hw, .refl hw hr⟩
  obtain ⟨hnumbered, hwell, hstands⟩ := hresult
  obtain ⟨l, hl⟩ := State.levelize_of_rank hwell hnumbered hstands.rank_lt
  exact ⟨report, l, hok, hnumbered, hstands, hl⟩

end NandHdl
