-- SUMMARY: The engine over gate objects as functions on valuations: what a pass over gates and a clock edge do to the bits of a store.
import NandHdl.Kernel.Object
import NandHdl.Proofs.Levels.Order
import NandHdl.Proofs.Store.Bits

/-!
# Passes of the engine over objects

On a store with enough words no action of the engine fails. What it does to the bits of the store
is a function on valuations: computing a gate replaces the value of its output, and a clock edge
replaces the values of all flip-flop outputs by values read before.
-/

namespace NandHdl

/-- A value for every signal. -/
abbrev Valuation := SignalId → Bool

/-! ## Gates -/

namespace GateWires

/-- What the gate puts out. -/
def value (g : GateWires) (v : Valuation) : Bool := !(v g.in1 && v g.in2)

/-- The values after computing gates in their order. -/
def computeAll : List GateWires → Valuation → Valuation
  | [], v => v
  | g :: rest, v => computeAll rest (Function.update v g.out (g.value v))

/-- All signals of a gate are below a bound. -/
def Below (g : GateWires) (signals : Nat) : Prop :=
  g.in1 < signals ∧ g.in2 < signals ∧ g.out < signals

theorem Below.mono {g : GateWires} {count signals : Nat} (h : g.Below count)
    (hle : count ≤ signals) : g.Below signals :=
  ⟨Nat.lt_of_lt_of_le h.1 hle, Nat.lt_of_lt_of_le h.2.1 hle, Nat.lt_of_lt_of_le h.2.2 hle⟩

end GateWires

/-- The store after computing gates in their order. -/
def Store.compute (s : Store) : List GateWires → Store
  | [] => s
  | g :: rest => (s.put g.out (g.value s.bit)).compute rest

/-- Computing gates changes bits only, and those as the gates say. -/
theorem Store.compute_spec {s : Store} {signals : Nat} {gs : List GateWires}
    (hs : s.SizedFor signals) (hgs : ∀ g ∈ gs, g.Below signals) :
    (s.compute gs).SizedFor signals ∧ (s.compute gs).header = s.header ∧
      (s.compute gs).bit = GateWires.computeAll gs s.bit := by
  induction gs generalizing s with
  | nil => exact ⟨hs, rfl, rfl⟩
  | cons g rest ih =>
    simp only [List.mem_cons, forall_eq_or_imp] at hgs
    obtain ⟨hsized, hheader, hbit⟩ := ih (hs.put g.out (g.value s.bit)) hgs.2
    refine ⟨hsized, hheader.trans (put_header s _ _), ?_⟩
    rw [compute, hbit, bit_put_of_sized hs hgs.1.2.2, GateWires.computeAll]

namespace ObjectKernel

variable {s : Store} {signals : Nat}

theorem evalGate_run {g : GateWires} (hs : s.SizedFor signals) (hg : g.Below signals) :
    evalGate g s = .ok () (s.put g.out (g.value s.bit)) := by
  simp [evalGate, bind, EStateM.bind, Store.read_run hs hg.1, Store.read_run hs hg.2.1,
    Store.write_run hs hg.2.2, GateWires.value]

/-- A pass over gates never fails on a store with enough words. -/
theorem evalGates_run {gs : List GateWires} (hs : s.SizedFor signals)
    (hgs : ∀ g ∈ gs, g.Below signals) : evalGates gs s = .ok () (s.compute gs) := by
  induction gs generalizing s with
  | nil => rfl
  | cons g rest ih =>
    simp only [List.mem_cons, forall_eq_or_imp] at hgs
    have hrest := ih (hs.put g.out (g.value s.bit)) hgs.2
    simp [evalGates, bind, EStateM.bind, evalGate_run hs hgs.1, hrest, Store.compute]

theorem evalGates_append (gs more : List GateWires) :
    evalGates (gs ++ more) = (do evalGates gs; evalGates more) := by
  induction gs with
  | nil => simp [evalGates]
  | cons g rest ih => simp [evalGates, ih]

/-- Levels are computed as the row of their gates. -/
theorem evalLevels_eq (levels : List (List GateWires)) :
    evalLevels levels = evalGates levels.flatten := by
  induction levels with
  | nil => rfl
  | cons level rest ih => rw [evalLevels, ih, List.flatten_cons, evalGates_append]

end ObjectKernel

/-! ## Flip-flops -/

/-- What a clock edge writes on the values `v`. -/
def FlopWires.captured (flops : List FlopWires) (v : Valuation) : List (SignalId × Bool) :=
  flops.map fun f => (f.q, v f.d)

/-- The store after a clock edge. -/
def Store.edge (s : Store) (flops : List FlopWires) : Store :=
  s.putAll (FlopWires.captured flops s.bit)

theorem Store.SizedFor.edge {s : Store} {signals : Nat} (h : s.SizedFor signals)
    (flops : List FlopWires) : (s.edge flops).SizedFor signals :=
  h.putAll _

/-- The store after one more cycle was counted. -/
def Store.tick (s : Store) : Store := { words := s.words.modify cycleWord (· + 1) }

theorem Store.incrementCycle_run {s : Store} {signals : Nat} (hs : s.SizedFor signals) :
    incrementCycle s = .ok () s.tick := by
  have hword : cycleWord < s.words.size := by
    rw [hs, wordsFor, headerWords, cycleWord]
    omega
  simp [incrementCycle, modifyWord, tick, hword]

theorem Store.SizedFor.tick {s : Store} {signals : Nat} (h : s.SizedFor signals) :
    s.tick.SizedFor signals := by
  simpa [Store.SizedFor, Store.tick] using h

theorem Store.bit_tick (s : Store) : s.tick.bit = s.bit := by
  funext i
  have hne : cycleWord ≠ headerWords + i / 32 := by
    rw [cycleWord, headerWords]
    omega
  simp [bit, tick, Array.getElem?_modify, hne]

namespace ObjectKernel

variable {s : Store} {signals : Nat}

theorem writeFlops_run {flops : List FlopWires} {v : Valuation} (hs : s.SizedFor signals)
    (hflops : ∀ f ∈ flops, f.q < signals) :
    writeFlops flops (flops.map fun f => v f.d) s =
      .ok () (s.putAll (FlopWires.captured flops v)) := by
  induction flops generalizing s with
  | nil => rfl
  | cons f rest ih =>
    simp only [List.mem_cons, forall_eq_or_imp] at hflops
    have hrest := ih (hs.put f.q (v f.d)) hflops.2
    simp [writeFlops, bind, EStateM.bind, Store.write_run hs hflops.1, hrest,
      FlopWires.captured, Store.putAll]

/-- A clock edge writes what was read before it. -/
theorem capture_run {k : ObjectKernel} (hs : s.SizedFor signals)
    (hflops : ∀ f ∈ k.flops, f.d < signals ∧ f.q < signals) :
    k.capture s = .ok () (s.edge k.flops) := by
  have hread : Store.readAll (k.flops.map FlopWires.d) s =
      .ok ((k.flops.map FlopWires.d).map s.bit) s :=
    Store.readAll_run hs fun i hi => by
      obtain ⟨f, hf, rfl⟩ := List.mem_map.1 hi
      exact (hflops f hf).1
  simp only [capture, bind, EStateM.bind, hread, List.map_map]
  exact writeFlops_run hs fun f hf => (hflops f hf).2

end ObjectKernel

/-! ## The engine of a netlist -/

/-- The signals of a gate, without its number and level. -/
def NandGate.wires (g : NandGate) : GateWires := { in1 := g.in1, in2 := g.in2, out := g.out }

/-- The signals of a flip-flop that an engine looks at. -/
def Dff.wires (f : Dff) : FlopWires := { d := f.d, q := f.q }

namespace Netlist

/-- The signals of the gate at a position. -/
def wiresAt (n : Netlist) (g : GateId) : GateWires := ((n.gates[g]?).map NandGate.wires).getD default

theorem wiresAt_eq {n : Netlist} {i : GateId} {g : NandGate} (h : n.gates[i]? = some g) :
    n.wiresAt i = g.wires := by
  simp [wiresAt, h]

theorem wiresAt_withLevels (n : Netlist) (level : GateId → Nat) (g : GateId) :
    (n.withLevels level).wiresAt g = n.wiresAt g := by
  simp only [wiresAt, withLevels, Array.getElem?_mapIdx, Option.map_map]
  rfl

end Netlist

/-- The gates of a levelized netlist as their signals, in the order in which they are computed. -/
def LevelizedNetlist.wires (l : LevelizedNetlist) : List GateWires :=
  l.order.map l.netlist.wiresAt

namespace LevelizedNetlist.Sorted

variable {l : LevelizedNetlist} {n : Netlist} {level : GateId → Nat}

theorem lt_of_mem_order (h : l.Sorted n level) {g : GateId} (hg : g ∈ l.order) :
    g < n.gates.size :=
  List.mem_range.1 (h.order_perm.mem_iff.1 hg)

theorem gates_size (h : l.Sorted n level) : l.netlist.gates.size = n.gates.size := by
  rw [h.netlist_eq, Netlist.withLevels, Array.size_mapIdx]

theorem wiresAt_eq (h : l.Sorted n level) : l.netlist.wiresAt = n.wiresAt := by
  rw [h.netlist_eq]
  funext g
  exact n.wiresAt_withLevels level g

/-- The computed gates are the gates of the netlist. -/
theorem mem_wires (h : l.Sorted n level) {w : GateWires} :
    w ∈ l.wires ↔ ∃ g ∈ n.gates, g.wires = w := by
  simp only [LevelizedNetlist.wires, List.mem_map, h.order_perm.mem_iff, List.mem_range,
    h.wiresAt_eq]
  constructor
  · rintro ⟨i, hi, rfl⟩
    exact ⟨n.gates[i], Array.getElem_mem hi, (n.wiresAt_eq (Array.getElem?_eq_getElem hi)).symm⟩
  · rintro ⟨g, hg, rfl⟩
    obtain ⟨i, hi⟩ := Array.getElem?_of_mem hg
    exact ⟨i, (Array.getElem?_eq_some_iff.1 hi).1, n.wiresAt_eq hi⟩

theorem wires_below (h : l.Sorted n level) (hw : n.Wellformed) {w : GateWires} (hmem : w ∈ l.wires) :
    w.Below n.signals.size := by
  obtain ⟨g, hg, rfl⟩ := h.mem_wires.1 hmem
  exact hw.gate_lt g hg

/-- The gates of a level are there. -/
theorem getGate_ok (h : l.Sorted n level) {ids : Array GateId} (hids : ids ∈ l.levels.toList)
    {g : GateId} (hg : g ∈ ids.toList) :
    ∃ gate, Checked.get l.netlist.gates g = .ok gate ∧ gate.wires = l.netlist.wiresAt g := by
  have hmem : g ∈ l.order := by
    rw [LevelizedNetlist.order, List.mem_flatten]
    exact ⟨ids.toList, List.mem_map_of_mem hids, hg⟩
  have hlt : g < l.netlist.gates.size := h.gates_size ▸ h.lt_of_mem_order hmem
  have hget := Array.getElem?_eq_getElem hlt
  exact ⟨_, Checked.get_eq_ok.2 hget, (Netlist.wiresAt_eq hget).symm⟩

/-- The engine over objects can be built. Its levels hold the gates in order. -/
theorem objectKernel_ok (h : l.Sorted n level) :
    ∃ k, ObjectKernel.ofLevelized l = .ok k ∧ k.levels.flatten = l.wires ∧
      k.flops = n.dffs.toList.map Dff.wires := by
  have hlevel : ∀ ids ∈ l.levels.toList, ObjectKernel.wiresOf l.netlist ids.toList =
      .ok (ids.toList.map l.netlist.wiresAt) := by
    intro ids hids
    refine List.mapM_eq_ok fun g hg => ?_
    obtain ⟨gate, hget, hwires⟩ := h.getGate_ok hids hg
    rw [hget, ← hwires]
    rfl
  refine ⟨_, by rw [ObjectKernel.ofLevelized, List.mapM_eq_ok hlevel]; rfl, ?_, ?_⟩
  · rw [LevelizedNetlist.wires, LevelizedNetlist.order, List.map_flatten, List.map_map]
    rfl
  · rw [h.netlist_eq]
    rfl

end LevelizedNetlist.Sorted

end NandHdl
