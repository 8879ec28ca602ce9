-- SUMMARY: Clocked semantics (`cycle_clocked`): a cycle gives every flip-flop what its input was once the gates had settled, and over whole runs old gate outputs do not matter.
import NandHdl.Proofs.Settling

/-!
# Clocking

One cycle settles the gates, then moves all flip-flops at once, then counts. Between two cycles
signals may be written and the gates may be settled, any number of times. What the flip-flops hold
after a cycle is determined by the signals that no gate drives: all gate outputs are computed again
before a flip-flop looks at them.
-/

namespace NandHdl

/-- The store has the words that a number of signals needs, or more. -/
def Store.RoomFor (s : Store) (signals : Nat) : Prop := wordsFor signals ≤ s.words.size

instance (s : Store) (signals : Nat) : Decidable (s.RoomFor signals) :=
  inferInstanceAs (Decidable (_ ≤ _))

theorem Store.RoomFor.sized {s : Store} {signals : Nat} (h : s.RoomFor signals) :
    ∃ size, s.SizedFor size ∧ signals ≤ size := by
  simp only [RoomFor, wordsFor] at h
  refine ⟨32 * (s.words.size - headerWords), ?_, by omega⟩
  rw [SizedFor, wordsFor]
  omega

theorem Store.SizedFor.room {s : Store} {signals size : Nat} (h : s.SizedFor size)
    (hle : signals ≤ size) : s.RoomFor signals := by
  rw [RoomFor, h, wordsFor, wordsFor]
  omega

/-! ## What a cycle does -/

namespace Netlist

/-- From the values `v` the gates settle to the values `w`. -/
structure SettlesTo (n : Netlist) (v w : Valuation) : Prop where
  keeps : ∀ i, ¬n.IsGateOutput i → w i = v i
  settled : n.Settled w

/-- The store `t` is what one cycle makes of the store `s` if the gates settle to the values `w`:
the flip-flops hold the settled values of their inputs, every other signal has its settled value,
one more cycle is counted, and the rest of the header is as before. -/
structure Clocked (n : Netlist) (s : Store) (w : Valuation) (t : Store) : Prop where
  size_eq : t.words.size = s.words.size
  captured : ∀ f ∈ n.dffs, t.bit f.q = w f.d
  kept : ∀ i, (∀ f ∈ n.dffs, f.q ≠ i) → t.bit i = w i
  cycle_eq : t.cycle.toNat = (s.cycle.toNat + 1) % 2 ^ 32
  header_eq : ∀ k < Store.headerWords, k ≠ Store.cycleWord → t.words[k]? = s.words[k]?

/-- The flip-flops in the order of the netlist. -/
def registers (n : Netlist) : List SignalId := n.dffs.toList.map Dff.q

end Netlist

/-- The engine runs the levelized netlist, and the store has room for its signals. -/
structure Kernel.Ready (k : Kernel) (n : Netlist) (l : LevelizedNetlist) (s : Store) : Prop where
  runs : k.Runs l.wires n.flops
  fits : k.Fits n.signals.size
  room : s.RoomFor n.signals.size

/-- There is one way to settle. -/
theorem LevelizedNetlist.Sorted.settlesTo_unique {l : LevelizedNetlist} {n : Netlist}
    {level : GateId → Nat} (hs : l.Sorted n level) (hw : n.Wellformed) {u v w : Valuation}
    (hv : n.SettlesTo u v) (hw' : n.SettlesTo u w) : v = w :=
  hs.settled_unique hw hv.settled hw'.settled fun i hi => (hv.keeps i hi).trans (hw'.keeps i hi).symm

namespace Kernel.Ready

variable {k k' : Kernel} {n : Netlist} {l : LevelizedNetlist} {level : GateId → Nat} {s s' : Store}

/-- Computing the gates settles them and leaves the rest of a store alone. -/
theorem compute_spec (h : k.Ready n l s) (hs : l.Sorted n level) (hw : n.Wellformed) :
    k.Ready n l (s.compute l.wires) ∧ (s.compute l.wires).header = s.header ∧
      (s.compute l.wires).words.size = s.words.size ∧
      n.SettlesTo s.bit (s.compute l.wires).bit := by
  obtain ⟨size, hsized, hle⟩ := h.room.sized
  obtain ⟨hsized', hheader, hbit⟩ :=
    Store.compute_spec hsized fun g hg => (hs.wires_below hw hg).mono hle
  refine ⟨⟨h.runs, h.fits, hsized'.room hle⟩, hheader, hsized'.trans hsized.symm, ?_, ?_⟩
  · intro i hi
    rw [hbit, GateWires.computeAll_of_not_out (hs.not_isGateOutput_iff.1 hi)]
  · rw [hs.settled_iff, hbit]
    exact GateWires.holds_computeAll (hs.wires_inOrder hw) _

theorem evaluate_ok (h : k.Ready n l s) (hs : l.Sorted n level) (hw : n.Wellformed) :
    k.evaluate s = .ok () (s.compute l.wires) := by
  obtain ⟨size, hsized, hle⟩ := h.room.sized
  exact Kernel.evaluate_run h.runs h.fits hsized hle fun _ => hs.wires_below hw

theorem write_ok (h : k.Ready n l s) {i : SignalId} (hi : i < n.signals.size) (value : Bool) :
    Store.write i value s = .ok () (s.put i value) ∧ k.Ready n l (s.put i value) ∧
      ∀ j, (s.put i value).bit j = if j = i then value else s.bit j := by
  obtain ⟨size, hsized, hle⟩ := h.room.sized
  have hlt := Nat.lt_of_lt_of_le hi hle
  exact ⟨Store.write_run hsized hlt value, ⟨h.runs, h.fits, (hsized.put i value).room hle⟩,
    Store.bit_put (hsized.word_lt hlt) value⟩

theorem readRegisters_ok (h : k.Ready n l s) (hw : n.Wellformed) :
    Store.readAll n.registers s = .ok (n.registers.map s.bit) s := by
  obtain ⟨size, hsized, hle⟩ := h.room.sized
  refine Store.readAll_run hsized fun i hi => ?_
  obtain ⟨f, hf, rfl⟩ := List.mem_map.1 hi
  exact Nat.lt_of_lt_of_le (hw.dff_lt f (Array.mem_toList_iff.1 hf)).2.2 hle

/-- A clock edge gives each flip-flop the value that its input had before, also if the input is the
output of a flip-flop. -/
theorem edge_spec (h : k.Ready n l s) (hw : n.Wellformed) :
    (∀ f ∈ n.dffs, (s.edge n.flops).bit f.q = s.bit f.d) ∧
      ∀ i, (∀ f ∈ n.dffs, f.q ≠ i) → (s.edge n.flops).bit i = s.bit i := by
  obtain ⟨size, hsized, hle⟩ := h.room.sized
  have hputs : ∀ p ∈ FlopWires.captured n.flops s.bit, p.1 < size := by
    intro p hp
    obtain ⟨f, hf, rfl⟩ := List.mem_map.1 hp
    exact Nat.lt_of_lt_of_le (hw.flop_lt f hf).2 hle
  have houts : (FlopWires.captured n.flops s.bit).map Prod.fst = n.registers := by
    simp [FlopWires.captured, Netlist.flops, Netlist.registers, Dff.wires, Function.comp_def]
  constructor
  · intro f hf
    have hmem : (f.q, s.bit f.d) ∈ FlopWires.captured n.flops s.bit :=
      List.mem_map.2 ⟨f.wires, List.mem_map_of_mem (Array.mem_toList_iff.2 hf), rfl⟩
    have hnodup : ((FlopWires.captured n.flops s.bit).map Prod.fst).Nodup :=
      houts ▸ (Netlist.drivenSignals_nodup_iff.1 hw.driven_nodup).1
    have hwritten := Store.bit_putAll_of_mem hsized hputs hnodup hmem
    exact hwritten
  · intro i hi
    refine Store.bit_putAll_of_not_mem hsized hputs fun p hp heq => ?_
    have hmem : i ∈ n.registers := houts ▸ List.mem_map.2 ⟨p, hp, heq⟩
    obtain ⟨f, hf, hq⟩ := List.mem_map.1 hmem
    exact hi f (Array.mem_toList_iff.1 hf) hq

/-- A cycle never fails. It settles the gates, moves the flip-flops and counts. -/
theorem cycle_ok (h : k.Ready n l s) (hs : l.Sorted n level) (hw : n.Wellformed) :
    ∃ next t w, k.cycle s = .ok next t ∧ next.Ready n l t ∧ next.kind = k.kind ∧
      n.SettlesTo s.bit w ∧ n.Clocked s w t := by
  obtain ⟨size, hsized, hle⟩ := h.room.sized
  obtain ⟨hready, hheader, hsize, hsettles⟩ := h.compute_spec hs hw
  obtain ⟨hcaptured, hkept⟩ := hready.edge_spec hw
  obtain ⟨next, hrun, hruns, hkind⟩ :=
    Kernel.cycle_run h.runs h.fits hsized hle (fun _ => hs.wires_below hw) hw.flop_lt
  have hedge : ((s.compute l.wires).edge n.flops).SizedFor size :=
    Store.SizedFor.edge (hsize.trans hsized) n.flops
  have hword : ∀ j < Store.headerWords,
      ((s.compute l.wires).edge n.flops).words[j]? = s.words[j]? := fun j hj =>
    Store.getElem?_eq_of_header ((Store.putAll_header _ _).trans hheader) hj
  refine ⟨next, _, _, hrun, ⟨hruns, ?_, hedge.tick.room hle⟩, hkind, hsettles, ?_⟩
  · exact fun hbatch => h.fits (hkind ▸ hbatch)
  · constructor
    case size_eq => exact hedge.tick.trans hsized.symm
    case captured =>
      intro f hf
      rw [Store.bit_tick, hcaptured f hf]
    case kept =>
      intro i hi
      rw [Store.bit_tick, hkept i hi]
    case cycle_eq =>
      have hcycle := hword Store.cycleWord (by decide)
      have hlt : Store.cycleWord < s.words.size := by
        rw [hsized, Store.wordsFor, Store.headerWords, Store.cycleWord]
        omega
      simp only [Store.cycle, Store.tick, Array.getD_eq_getD_getElem?, Array.getElem?_modify,
        hcycle, Array.getElem?_eq_getElem hlt]
      exact UInt32.toNat_add _ _
    case header_eq =>
      intro j hj hne
      rw [Store.tick, Array.getElem?_modify, if_neg (Ne.symm hne), hword j hj]

end Kernel.Ready

/-! ## Whole runs -/

/-- What may happen to a clocked circuit. -/
inductive ClockOp where
  | write (i : SignalId) (value : Bool)
  | evaluate
  | step
  deriving Repr, DecidableEq, Inhabited

namespace ClockOp

/-- Whether the operation changes more than gate outputs. -/
def drives : ClockOp → Bool
  | .evaluate => false
  | _ => true

/-- The signals that are written before the first step. -/
def writtenFirst : List ClockOp → List SignalId
  | [] | .step :: _ => []
  | .write i _ :: ops => i :: writtenFirst ops
  | .evaluate :: ops => writtenFirst ops

end ClockOp

/-- Performs operations. Answers what the flip-flops of the netlist hold after each step. -/
def Kernel.trace (n : Netlist) : Kernel → List ClockOp → StoreM (List (List Bool))
  | _, [] => return []
  | k, .write i value :: ops => do
    Store.write i value
    k.trace n ops
  | k, .evaluate :: ops => do
    k.evaluate
    k.trace n ops
  | k, .step :: ops => do
    let next ← k.cycle
    let held ← Store.readAll n.registers
    return held :: (← next.trace n ops)

/-- The stores agree on the signals of the netlist that no gate drives, the given ones apart. -/
def Netlist.SourcesAgree (n : Netlist) (apart : List SignalId) (s t : Store) : Prop :=
  ∀ i < n.signals.size, ¬n.IsGateOutput i → i ∉ apart → s.bit i = t.bit i

namespace Netlist.SourcesAgree

variable {n : Netlist} {l : LevelizedNetlist} {level : GateId → Nat} {apart : List SignalId}
  {s s' t t' : Store} {w w' : Valuation}

theorem of_settlesTo (h : n.SourcesAgree apart s s') (ht : n.SettlesTo s.bit t.bit) :
    n.SourcesAgree apart t s' :=
  fun i hi hout hapart => (ht.keeps i hout).trans (h i hi hout hapart)

/-- A write to a signal makes up for what it held before. -/
theorem of_write {i : SignalId} {value : Bool} (h : n.SourcesAgree (i :: apart) s s')
    (ht : ∀ j, t.bit j = if j = i then value else s.bit j)
    (ht' : ∀ j, t'.bit j = if j = i then value else s'.bit j) : n.SourcesAgree apart t t' := by
  intro j hj hout hapart
  rw [ht, ht']
  split
  · rfl
  · next hne => exact h j hj hout (by simp [hne, hapart])

/-- Cycles from stores that agree on all sources lead to such stores. -/
theorem of_clocked (h : n.SourcesAgree [] s s') (hs : l.Sorted n level) (hw : n.Wellformed)
    (hsettles : n.SettlesTo s.bit w) (hsettles' : n.SettlesTo s'.bit w') (hclocked : n.Clocked s w t)
    (hclocked' : n.Clocked s' w' t') : n.SourcesAgree [] t t' := by
  have hsettled : ∀ i < n.signals.size, w i = w' i :=
    hs.settled_unique_below hw hsettles.settled hsettles'.settled fun i hi hout => by
      rw [hsettles.keeps i hout, hsettles'.keeps i hout, h i hi hout List.not_mem_nil]
  intro i hi _ _
  by_cases hflop : ∃ f ∈ n.dffs, f.q = i
  · obtain ⟨f, hf, rfl⟩ := hflop
    rw [hclocked.captured f hf, hclocked'.captured f hf, hsettled f.d (hw.dff_lt f hf).1]
  · have hnone : ∀ f ∈ n.dffs, f.q ≠ i := fun f hf heq => hflop ⟨f, hf, heq⟩
    rw [hclocked.kept i hnone, hclocked'.kept i hnone, hsettled i hi]

theorem registers_eq (h : n.SourcesAgree [] s s') (hw : n.Wellformed) :
    n.registers.map s.bit = n.registers.map s'.bit := by
  refine List.map_congr_left fun i hi => ?_
  obtain ⟨f, hf, rfl⟩ := List.mem_map.1 hi
  have hf' := Array.mem_toList_iff.1 hf
  refine h f.q (hw.dff_lt f hf').2.2 ?_ List.not_mem_nil
  rintro ⟨g, hg, heq⟩
  exact hw.gate_out_ne_q hf' hg heq

end Netlist.SourcesAgree

open Netlist ClockOp in
/-- A run from a store that agrees on the sources answers the same, also without the passes in
between. By induction on the operations: until the first step, what was left of the old values of
sources is overwritten in the same order, and from then on the stores agree on all sources. -/
theorem Kernel.Ready.trace_eq {n : Netlist} {l : LevelizedNetlist} {level : GateId → Nat}
    (hs : l.Sorted n level) (hw : n.Wellformed) {ops : List ClockOp}
    (hops : ∀ i value, .write i value ∈ ops → i < n.signals.size) {k k' : Kernel} {s s' : Store}
    (h : k.Ready n l s) (h' : k'.Ready n l s') (hagree : n.SourcesAgree (writtenFirst ops) s s') :
    ∃ held t t', k.trace n ops s = .ok held t ∧ k'.trace n (ops.filter drives) s' = .ok held t' := by
  induction ops generalizing k k' s s' with
  | nil => exact ⟨[], s, s', rfl, rfl⟩
  | cons op ops ih =>
    have hrest : ∀ i value, .write i value ∈ ops → i < n.signals.size := fun i value hmem =>
      hops i value (List.mem_cons_of_mem op hmem)
    cases op with
    | write i value =>
      have hi := hops i value List.mem_cons_self
      obtain ⟨hwrite, hready, hbit⟩ := h.write_ok hi value
      obtain ⟨hwrite', hready', hbit'⟩ := h'.write_ok hi value
      obtain ⟨held, t, t', hrun, hrun'⟩ := ih hrest hready hready' (hagree.of_write hbit hbit')
      refine ⟨held, t, t', ?_, ?_⟩
      · simp only [trace, bind, EStateM.bind, hwrite, hrun]
      · simp only [List.filter_cons, drives, reduceIte, trace, bind, EStateM.bind, hwrite', hrun']
    | evaluate =>
      obtain ⟨hready, -, -, hsettles⟩ := h.compute_spec hs hw
      obtain ⟨held, t, t', hrun, hrun'⟩ := ih hrest hready h' (hagree.of_settlesTo hsettles)
      refine ⟨held, t, t', ?_, hrun'⟩
      simp only [trace, bind, EStateM.bind, h.evaluate_ok hs hw, hrun]
    | step =>
      obtain ⟨next, u, w, hcycle, hready, -, hsettles, hclocked⟩ := h.cycle_ok hs hw
      obtain ⟨next', u', w', hcycle', hready', -, hsettles', hclocked'⟩ := h'.cycle_ok hs hw
      -- Nothing is written before a step that comes first, so the stores agree on all sources.
      have hagree' := hagree.of_clocked hs hw hsettles hsettles' hclocked hclocked'
      obtain ⟨held, t, t', hrun, hrun'⟩ := ih hrest hready hready'
        fun i hi hout _ => hagree' i hi hout List.not_mem_nil
      refine ⟨n.registers.map u.bit :: held, t, t', ?_, ?_⟩
      · simp only [trace, bind, EStateM.bind, hcycle, hready.readRegisters_ok hw, hrun]
        rfl
      · simp only [List.filter_cons, drives, reduceIte, trace, bind, EStateM.bind, hcycle',
          hready'.readRegisters_ok hw, hrun', hagree'.registers_eq hw]
        rfl

/-- Two flip-flops that pass their values to each other, one of them through a gate. -/
def exchange : Checked Netlist := do
  let n := (((((Netlist.empty "exchange").addSignal "clk" 0).addSignal "a" 0).addSignal "p" 0
    ).addSignal "q" 0).addSignal "x" 0
  let n ← (n.addNand 2 1 4).addDff 3 0 2 false
  n.addDff 4 0 3 true

theorem exchange_numbered {n : Netlist} (h : exchange = .ok n) : n.Numbered := by
  obtain ⟨first, hfirst, h⟩ := Except.bind_eq_ok.1 h
  exact (((((((Netlist.Numbered.empty "exchange").addSignal "clk" 0).addSignal "a" 0).addSignal "p" 0
    ).addSignal "q" 0).addSignal "x" 0).addNand 2 1 4).addDff hfirst |>.addDff h

end NandHdl
