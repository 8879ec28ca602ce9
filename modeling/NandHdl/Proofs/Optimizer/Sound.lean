-- SUMMARY: What holds of the optimizer's state before and after every pass (`State.Linked`, `State.Sound`, `State.Closed`), and that it holds at the start.
import NandHdl.Proofs.Optimizer.Substitution
import NandHdl.Proofs.Settling
import Mathlib.Data.List.Forall2

/-!
# The invariant of the optimizer

The passes do not go through the gates in the order of their levels, so what they keep is not a
statement about an order. It is a statement about all values under which the given gates have
settled and the constants are what they are called: under such values

* a signal and the one that is read instead are equal,
* the gates that are left hold,
* a flip-flop captures what it captured before.

Beside that, gates read signals of lower rank, and whatever is still read is still computed.

In a netlist with a cycle of gates there are no such ranks. What is left of the invariant then
(`Linked`) is enough for every step to succeed: links start from gate outputs only, lead down in
some order of their own, and all numbers are in range.
-/

namespace NandHdl

namespace Netlist

/-- The signal is looked up as one of the constants. -/
def IsConstant (n : Netlist) (c : SignalId) : Prop :=
  n.signalId? zeroName = some c ∨ n.signalId? oneName = some c

theorem Wellformed.constant_lt {n : Netlist} (h : n.Wellformed) {c : SignalId}
    (hc : n.IsConstant c) : c < n.signals.size :=
  hc.elim h.name_lt h.name_lt

/-- The gates have settled, and the constants have their values. -/
structure Consistent (n : Netlist) (v : Valuation) : Prop where
  settled : n.Settled v
  zero : ∀ {c}, n.signalId? zeroName = some c → v c = false
  one : ∀ {c}, n.signalId? oneName = some c → v c = true

/-- Gates read signals of lower rank. What no gate drives, the constants among it, is at the
bottom. -/
structure Ranked (n : Netlist) (rank : SignalId → Nat) : Prop where
  gate : ∀ g ∈ n.gates, rank g.in1 < rank g.out ∧ rank g.in2 < rank g.out
  source : ∀ {s}, ¬n.IsGateOutput s → rank s = 0
  constant : ∀ {c}, n.IsConstant c → ¬n.IsGateOutput c

end Netlist

/-! ## Ranks from levels -/

open Classical in
/-- The level of the gate that drives a signal, and 0 if there is none. -/
noncomputable def Netlist.levelAt (n : Netlist) (level : GateId → Nat) (s : SignalId) : Nat :=
  if h : ∃ i, n.Drives i s then level h.choose else 0

theorem Netlist.levelAt_eq {n : Netlist} (hw : n.Wellformed) {level : GateId → Nat} {i : GateId}
    {s : SignalId} (h : n.Drives i s) : n.levelAt level s = level i := by
  have hex : ∃ i, n.Drives i s := ⟨i, h⟩
  have heq : hex.choose = i := by
    obtain ⟨g, hg, hgs⟩ := hex.choose_spec
    obtain ⟨k, hk, hks⟩ := h
    have hg' : (n.gates.toList.map NandGate.out)[hex.choose]? = some s := by simp [hg, hgs]
    have hk' : (n.gates.toList.map NandGate.out)[i]? = some s := by simp [hk, hks]
    have hlt : hex.choose < (n.gates.toList.map NandGate.out).length := by
      simpa using (Array.getElem?_eq_some_iff.1 hg).1
    exact (List.getElem?_inj hlt hw.gate_out_nodup).1 (hg'.trans hk'.symm)
  rw [levelAt, dif_pos hex, heq]

/-- The levels of a netlist rank its signals. -/
theorem LevelizedNetlist.Sorted.ranked {l : LevelizedNetlist} {n : Netlist} {level : GateId → Nat}
    (h : l.Sorted n level) (hw : n.Wellformed)
    (hconstant : ∀ {c}, n.IsConstant c → ¬n.IsGateOutput c) : n.Ranked (n.levelAt level) where
  gate g hg := by
    obtain ⟨i, hi⟩ := Array.getElem?_of_mem hg
    have hout : n.levelAt level g.out = level i := n.levelAt_eq hw ⟨g, hi, rfl⟩
    have hin : ∀ s, s = g.in1 ∨ s = g.in2 → n.levelAt level s < level i := by
      intro s hs
      by_cases hex : ∃ d, n.Drives d s
      · obtain ⟨d, hd⟩ := hex
        rw [n.levelAt_eq hw hd]
        refine h.level_lt ⟨g, hi, ?_⟩
        rcases hs with rfl | rfl
        · exact .inl hd
        · exact .inr hd
      · rw [Netlist.levelAt, dif_neg hex]
        exact h.level_pos i (Array.getElem?_eq_some_iff.1 hi).1
    rw [hout]
    exact ⟨hin _ (.inl rfl), hin _ (.inr rfl)⟩
  source {s} hs := by
    apply dif_neg
    rintro ⟨i, g, hg, rfl⟩
    exact hs ⟨g, Array.mem_of_getElem? hg, rfl⟩
  constant := hconstant

namespace Optimizer

/-! ## The invariant -/

/-- The flip-flop `f'` is `f` with inputs that are read as others. -/
structure SameFlop (n : Netlist) (f f' : Dff) : Prop where
  id_eq : f'.id = f.id
  q_eq : f'.q = f.q
  initialValue_eq : f'.initialValue = f.initialValue
  d_lt : f'.d < n.signals.size
  clk_lt : f'.clk < n.signals.size
  value : ∀ {v}, n.Consistent v → v f'.d = v f.d

/-- The table says which gate drives a signal. -/
structure Indexes (driver : Array (Option Nat)) (gates : Array Wiring) (signals : Nat) : Prop where
  size_eq : driver.size = signals
  get_eq : ∀ (s : SignalId) (i : Nat), driver[s]? = some (some i) ↔
    ∃ g : Wiring, gates[i]? = some g ∧ g.out = s

namespace State

/-- The gate is left and, if a gate of the netlist drove the signal, one still does. -/
def Computes (st : State) (n : Netlist) (s : SignalId) : Prop :=
  n.IsGateOutput s → ∃ g ∈ st.gates, g.out = s

/-- A gate or a flip-flop reads the signal. -/
def Reads (st : State) (s : SignalId) : Prop :=
  (∃ g ∈ st.gates, s = g.in1 ∨ s = g.in2) ∨ ∃ f ∈ st.dffs, s = f.d ∨ s = f.clk

/-- Links lead from gate outputs, in an order of their own, and the tables are about the signals of
the netlist. -/
structure Linked (n : Netlist) (st : State) : Prop where
  subst_size : st.subst.size = n.signals.size
  descends : ∃ rank, st.subst.Descends rank
  link_from : ∀ {s t : SignalId}, st.subst[s]? = some t → t ≠ s → n.IsGateOutput s
  gate_lt : ∀ g ∈ st.gates, g.in1 < n.signals.size ∧ g.in2 < n.signals.size ∧ g.out < n.signals.size
  flop_lt : ∀ f ∈ st.dffs, f.d < n.signals.size ∧ f.clk < n.signals.size
  outs : (st.gates.toList.map Wiring.out).Sublist (n.gates.toList.map NandGate.out)
  driver : Indexes st.driver st.gates n.signals.size

/-- The state stands for the netlist. -/
structure Sound (n : Netlist) (rank : SignalId → Nat) (st : State) : Prop where
  subst_size : st.subst.size = n.signals.size
  descends : st.subst.Descends rank
  link_from : ∀ {s t : SignalId}, st.subst[s]? = some t → t ≠ s → n.IsGateOutput s
  link_value : ∀ {v}, n.Consistent v → ∀ {s t : SignalId}, st.subst[s]? = some t → v t = v s
  gate_lt : ∀ g ∈ st.gates, g.in1 < n.signals.size ∧ g.in2 < n.signals.size ∧ g.out < n.signals.size
  gate_rank : ∀ g ∈ st.gates, rank g.in1 < rank g.out ∧ rank g.in2 < rank g.out
  gate_value : ∀ {v}, n.Consistent v → ∀ g ∈ st.gates, v g.out = !(v g.in1 && v g.in2)
  outs : (st.gates.toList.map Wiring.out).Sublist (n.gates.toList.map NandGate.out)
  driver : Indexes st.driver st.gates n.signals.size
  dffs : List.Forall₂ (SameFlop n) n.dffs.toList st.dffs.toList

/-- What is needed is computed, and what is read is read as itself. -/
structure Closed (n : Netlist) (st : State) : Prop where
  output : ∀ s ∈ n.primaryOutputs, st.Computes n s
  read : ∀ {s}, st.Reads s → st.Computes n s ∧ st.subst.Plain s

variable {n : Netlist} {rank : SignalId → Nat} {st : State}

theorem Linked.isGateOutput (h : st.Linked n) {g : Wiring} (hg : g ∈ st.gates) :
    n.IsGateOutput g.out := by
  have hmem := h.outs.subset (List.mem_map_of_mem (Array.mem_toList_iff.2 hg))
  obtain ⟨k, hk, heq⟩ := List.mem_map.1 hmem
  exact ⟨k, Array.mem_toList_iff.1 hk, heq⟩

theorem Linked.reads_lt (h : st.Linked n) {s : SignalId} (hs : st.Reads s) :
    s < n.signals.size := by
  rcases hs with ⟨g, hg, rfl | rfl⟩ | ⟨f, hf, rfl | rfl⟩
  · exact (h.gate_lt g hg).1
  · exact (h.gate_lt g hg).2.1
  · exact (h.flop_lt f hf).1
  · exact (h.flop_lt f hf).2

/-- What no gate drives is read as itself. -/
theorem Linked.plain_of_source (h : st.Linked n) {s : SignalId} (hlt : s < n.signals.size)
    (hs : ¬n.IsGateOutput s) : st.subst.Plain s := by
  have hget := Array.getElem?_eq_getElem (h.subst_size ▸ hlt : s < st.subst.size)
  by_contra hplain
  refine hs (h.link_from hget fun heq => hplain ?_)
  rw [Substitution.Plain, hget, heq]

theorem Sound.linked (h : st.Sound n rank) : st.Linked n where
  subst_size := h.subst_size
  descends := ⟨rank, h.descends⟩
  link_from := h.link_from
  gate_lt := h.gate_lt
  flop_lt f hf := by
    obtain ⟨i, hi, hget⟩ := List.getElem_of_mem (Array.mem_toList_iff.2 hf)
    have hflop := h.dffs.get (by rw [h.dffs.length_eq]; exact hi) hi
    simp only [List.get_eq_getElem, hget] at hflop
    exact ⟨hflop.d_lt, hflop.clk_lt⟩
  outs := h.outs
  driver := h.driver

theorem Sound.isGateOutput (h : st.Sound n rank) {g : Wiring} (hg : g ∈ st.gates) :
    n.IsGateOutput g.out :=
  h.linked.isGateOutput hg

theorem Sound.reads_lt (h : st.Sound n rank) {s : SignalId} (hs : st.Reads s) :
    s < n.signals.size :=
  h.linked.reads_lt hs

theorem Sound.plain_of_source (h : st.Sound n rank) {s : SignalId} (hlt : s < n.signals.size)
    (hs : ¬n.IsGateOutput s) : st.subst.Plain s :=
  h.linked.plain_of_source hlt hs

/-! ## The start -/

theorem driverTable_ok {signals : Nat} {gates : Array Wiring}
    (hlt : ∀ g ∈ gates, g.out < signals) (hnodup : (gates.toList.map Wiring.out).Nodup) :
    ∃ table, driverTable signals gates = .ok table ∧ Indexes table gates signals := by
  obtain ⟨table, hok, hsize, htable⟩ := Checked.foldlM_set (fun p : Wiring × Nat => p.1.out)
    Prod.snd gates.zipIdx.toList signals
    (fun p hp => hlt p.1 (Array.fst_mem_of_mem_zipIdx (Array.mem_toList_iff.1 hp))) (by
      have heq : gates.zipIdx.toList.map (fun p : Wiring × Nat => p.1.out) =
          gates.toList.map Wiring.out := by
        rw [Array.toList_zipIdx]
        conv_rhs => rw [← List.zipIdx_map_fst 0 gates.toList, List.map_map]
        rfl
      exact heq ▸ hnodup)
  refine ⟨table, ?_, hsize, fun s i => ?_⟩
  · rw [driverTable, ← Array.foldlM_toList]
    exact hok
  · rw [htable]
    constructor
    · rintro ⟨⟨g, j⟩, hp, hout, rfl⟩
      refine ⟨g, ?_, hout⟩
      simpa using Array.mem_zipIdx_iff_getElem?.1 (Array.mem_toList_iff.1 hp)
    · rintro ⟨g, hg, hout⟩
      exact ⟨(g, i), Array.mem_toList_iff.2 (Array.mem_zipIdx_iff_getElem?.2 (by simpa using hg)),
        hout, rfl⟩

/-- The gates of a netlist without their numbers and levels. -/
def wirings (n : Netlist) : Array Wiring :=
  n.gates.map fun g => { in1 := g.in1, in2 := g.in2, out := g.out }

/-- Nothing is replaced yet. -/
def initial (n : Netlist) (driver : Array (Option Nat)) : State where
  gates := wirings n
  subst := Array.range n.signals.size
  driver := driver
  dffs := n.dffs

theorem wirings_outs (n : Netlist) :
    (wirings n).toList.map Wiring.out = n.gates.toList.map NandGate.out := by
  simp [wirings, Function.comp_def]

theorem exists_gate {g : Wiring} (hg : g ∈ wirings n) :
    ∃ k ∈ n.gates, k.in1 = g.in1 ∧ k.in2 = g.in2 ∧ k.out = g.out := by
  obtain ⟨k, hk, rfl⟩ := Array.mem_map.1 hg
  exact ⟨k, hk, rfl, rfl, rfl⟩

theorem wirings_lt (hw : n.Wellformed) {g : Wiring} (hg : g ∈ wirings n) :
    g.in1 < n.signals.size ∧ g.in2 < n.signals.size ∧ g.out < n.signals.size := by
  obtain ⟨k, hk, h1, h2, hout⟩ := exists_gate hg
  rw [← h1, ← h2, ← hout]
  exact hw.gate_lt k hk

theorem initial_link {driver : Array (Option Nat)} {s t : SignalId}
    (h : (initial n driver).subst[s]? = some t) : t = s ∧ s < n.signals.size := by
  obtain ⟨hs, heq⟩ := Array.getElem?_eq_some_iff.1 h
  exact ⟨by simpa [initial] using heq.symm, by simpa [initial] using hs⟩

theorem initial_linked (hw : n.Wellformed) {driver : Array (Option Nat)}
    (hdriver : Indexes driver (wirings n) n.signals.size) : (initial n driver).Linked n where
  subst_size := Array.size_range
  descends := by
    refine ⟨fun _ => 0, fun h => ?_, fun h hne => absurd (initial_link h).1 hne⟩
    obtain ⟨rfl, hlt⟩ := initial_link h
    simpa [initial] using hlt
  link_from h hne := absurd (initial_link h).1 hne
  gate_lt _ hg := wirings_lt hw hg
  flop_lt f hf := ⟨(hw.dff_lt f hf).1, (hw.dff_lt f hf).2.1⟩
  outs := wirings_outs n ▸ List.Sublist.refl _
  driver := hdriver

theorem initial_sound (hw : n.Wellformed) (hr : n.Ranked rank) {driver : Array (Option Nat)}
    (hdriver : Indexes driver (wirings n) n.signals.size) : (initial n driver).Sound n rank where
  subst_size := (initial_linked hw hdriver).subst_size
  descends := by
    obtain ⟨_, hdescends⟩ := (initial_linked hw hdriver).descends
    exact ⟨hdescends.lt, fun h hne => absurd (initial_link h).1 hne⟩
  link_from := (initial_linked hw hdriver).link_from
  link_value _ _ _ h := by rw [(initial_link h).1]
  gate_lt := (initial_linked hw hdriver).gate_lt
  gate_rank g hg := by
    obtain ⟨k, hk, h1, h2, hout⟩ := exists_gate hg
    rw [← h1, ← h2, ← hout]
    exact hr.gate k hk
  gate_value {v} hv g hg := by
    obtain ⟨k, hk, h1, h2, hout⟩ := exists_gate hg
    rw [← h1, ← h2, ← hout]
    exact hv.settled k hk
  outs := (initial_linked hw hdriver).outs
  driver := hdriver
  dffs := by
    refine List.forall₂_same.2 fun f hf => ?_
    have hf := hw.dff_lt f (Array.mem_toList_iff.1 hf)
    exact ⟨rfl, rfl, rfl, hf.1, hf.2.1, fun _ => rfl⟩

theorem initial_closed {driver : Array (Option Nat)} (h : (initial n driver).Sound n rank) :
    (initial n driver).Closed n := by
  have hcomputes : ∀ s, (initial n driver).Computes n s := by
    rintro s ⟨k, hk, rfl⟩
    exact ⟨_, Array.mem_map_of_mem hk, rfl⟩
  refine ⟨fun s _ => hcomputes s, fun {s} hs => ⟨hcomputes s, ?_⟩⟩
  simp [initial, Substitution.Plain, h.reads_lt hs]

theorem start_eq (hw : n.Wellformed) :
    ∃ driver, State.start n = .ok (initial n driver) ∧
      Indexes driver (wirings n) n.signals.size := by
  obtain ⟨driver, hdriver, hindex⟩ := driverTable_ok (fun g hg => (wirings_lt hw hg).2.2)
    (wirings_outs n ▸ hw.gate_out_nodup)
  refine ⟨driver, ?_, hindex⟩
  unfold wirings at hdriver
  rw [State.start, hdriver]
  rfl

/-- At the start nothing is replaced and nothing is missing. -/
theorem start_ok (hw : n.Wellformed) (hr : n.Ranked rank) :
    ∃ st, State.start n = .ok st ∧ st.Sound n rank ∧ st.Closed n := by
  obtain ⟨driver, hstart, hindex⟩ := start_eq hw
  have hsound := initial_sound hw hr hindex
  exact ⟨_, hstart, hsound, initial_closed hsound⟩

end State

end Optimizer

end NandHdl
