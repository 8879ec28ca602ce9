-- SUMMARY: The states of a clocked circuit from a reset on (`Netlist.History`), and that there is one such row of states for given inputs.
import NandHdl.Proofs.Clocking
import NandHdl.Proofs.Optimizer.Runs

/-!
# Histories

The state of a circuit is what its store holds right after a clock cycle, or after the inputs were
applied. From every state the gates settle, and the settled values lead to the next state. A
circuit that settles once more before the next cycle goes through the same states, since a pass
over settled gates changes nothing.
-/

namespace NandHdl

theorem Store.cycle_of_header {s t : Store} (h : s.header = t.header) : s.cycle = t.cycle := by
  have hword := Store.getElem?_eq_of_header h (k := cycleWord) (by decide)
  rw [cycle, cycle, Array.getD_eq_getD_getElem?, Array.getD_eq_getD_getElem?, hword]

theorem Store.cycle_new (signals : Nat) : (Store.new signals).cycle = 0 := by
  have hlt : 0 < wordsFor signals - 3 := by
    rw [wordsFor, headerWords]
    omega
  rw [cycle, new, cycleWord, Array.getD_eq_getD_getElem?, Array.getElem?_append_right (by simp)]
  simp [hlt]

theorem Store.putAll_append (s : Store) (ps qs : List (Nat × Bool)) :
    s.putAll (ps ++ qs) = (s.putAll ps).putAll qs := by
  induction ps generalizing s with
  | nil => rfl
  | cons p rest ih => exact ih _

namespace Netlist

/-- What inputs write to signals, in their order. -/
def writes (n : Netlist) (inputs : List (String × UInt64)) : List (SignalId × Bool) :=
  inputs.flatMap fun (name, value) => Store.pokes value 0 (n.targets name)

/-- The circuit is reset, the inputs are applied, and then it is clocked. `state k` is its store
after `k` cycles, and `settled k` is what the gates settle to from there. -/
structure History (n : Netlist) (inputs : List (String × UInt64)) (state settled : Nat → Store) :
    Prop where
  start : ∃ reset, Store.forNetlist n = .ok reset ∧ state 0 = reset.putAll (n.writes inputs)
  settles : ∀ k, n.SettledFrom (state k) (settled k)
  clocked : ∀ k, n.Clocked (state k) (settled k).bit (state (k + 1))

end Netlist

/-- A cycle leads to one store. -/
theorem Netlist.Clocked.unique {n : Netlist} {s t t' : Store} {w : Valuation}
    (h : n.Clocked s w t) (h' : n.Clocked s w t') (hs : s.SizedFor n.signals.size) : t = t' := by
  have hword : ∀ k < Store.headerWords, t.words[k]? = t'.words[k]? := by
    intro k hk
    by_cases hcycle : k = Store.cycleWord
    · have hlt : k < s.words.size := by
        rw [hs, Store.wordsFor]
        omega
      have ht : k < t.words.size := h.size_eq.symm ▸ hlt
      have ht' : k < t'.words.size := h'.size_eq.symm ▸ hlt
      have hcount : t.cycle = t'.cycle := UInt32.toNat_inj.1 (h.cycle_eq.trans h'.cycle_eq.symm)
      rw [Store.cycle, Store.cycle, ← hcycle] at hcount
      simpa [ht, ht'] using hcount
    · rw [h.header_eq k hk hcycle, h'.header_eq k hk hcycle]
  refine Store.ext_bit (h.size_eq.trans h'.size_eq.symm) ?_ fun i => ?_
  · apply List.ext_getElem?
    intro k
    simp only [Store.header, List.getElem?_take, Array.getElem?_toList]
    split
    · next hk => exact hword k hk
    · rfl
  · by_cases hflop : ∃ f ∈ n.dffs, f.q = i
    · obtain ⟨f, hf, rfl⟩ := hflop
      rw [h.captured f hf, h'.captured f hf]
    · have hnone : ∀ f ∈ n.dffs, f.q ≠ i := fun f hf heq => hflop ⟨f, hf, heq⟩
      rw [h.kept i hnone, h'.kept i hnone]

/-! ## Cycles of a store -/

section Cycled

variable {l : LevelizedNetlist} {n : Netlist} {level : GateId → Nat} {s : Store}

/-- A second pass changes nothing. -/
theorem LevelizedNetlist.Sorted.compute_compute (hs : l.Sorted n level) (hw : n.Wellformed)
    (hsized : s.SizedFor n.signals.size) :
    (s.compute l.wires).compute l.wires = s.compute l.wires := by
  have hfirst := hs.compute_settledFrom hw hsized
  have hsecond := hs.compute_settledFrom hw hfirst.sized
  exact hs.settledFrom_unique hw hsecond
    ⟨hfirst.sized, rfl, fun _ _ => rfl, hfirst.settled⟩

/-- The store after a cycle is what clocking makes of the store before. -/
theorem LevelizedNetlist.Sorted.cycled_clocked (hs : l.Sorted n level) (hw : n.Wellformed)
    (hsized : s.SizedFor n.signals.size) :
    n.Clocked s (s.compute l.wires).bit (Simulation.cycled l n s) := by
  obtain ⟨k, hk, hruns⟩ := hs.kernel_ok .object
  have hobject : k.kind ≠ .batch := by
    rw [Kernel.kind_ofLevelized hk]
    decide
  have hready : k.Ready n l s :=
    ⟨hruns, fun hbatch => absurd hbatch hobject, hsized.room (Nat.le_refl _)⟩
  obtain ⟨next, t, w, hcycle, -, -, hsettles, hclocked⟩ := hready.cycle_ok hs hw
  obtain ⟨next', hcycle', -⟩ := Kernel.cycle_run hruns (fun hbatch => absurd hbatch hobject) hsized
    (Nat.le_refl _) (fun _ => hs.wires_below hw) hw.flop_lt
  cases hcycle.symm.trans hcycle'
  have hfrom := hs.compute_settledFrom hw hsized
  rw [hs.settlesTo_unique hw hsettles ⟨hfrom.bit_eq, hfrom.settled⟩] at hclocked
  exact hclocked

namespace Simulation

/-- The store after some cycles. -/
def stateAt (l : LevelizedNetlist) (n : Netlist) (s : Store) (k : Nat) : Store :=
  (cycled l n)^[k] s

/-- The store after some cycles and a pass. -/
def settledAt (l : LevelizedNetlist) (n : Netlist) (s : Store) (k : Nat) : Store :=
  (stateAt l n s k).compute l.wires

theorem stateAt_succ (k : Nat) : stateAt l n s (k + 1) = cycled l n (stateAt l n s k) :=
  Function.iterate_succ_apply' _ _ _

theorem stateAt_sizedFor (hs : l.Sorted n level) (hw : n.Wellformed)
    (hsized : s.SizedFor n.signals.size) (k : Nat) :
    (stateAt l n s k).SizedFor n.signals.size := by
  induction k with
  | zero => exact hsized
  | succ k ih =>
    rw [stateAt_succ]
    exact (hs.cycled_clocked hw ih).size_eq.trans ih

/-- A cycle from the settled store leads to the same state as one from the store before. -/
theorem cycled_settledAt (hs : l.Sorted n level) (hw : n.Wellformed)
    (hsized : s.SizedFor n.signals.size) (k : Nat) :
    cycled l n (settledAt l n s k) = stateAt l n s (k + 1) := by
  rw [stateAt_succ, cycled, settledAt, hs.compute_compute hw (stateAt_sizedFor hs hw hsized k)]
  rfl

/-- Clocking after a reset and inputs is a history. -/
theorem history_of_reset (hs : l.Sorted n level) (hw : n.Wellformed) {reset : Store}
    (hreset : Store.forNetlist n = .ok reset) (hsized : reset.SizedFor n.signals.size)
    (inputs : List (String × UInt64)) :
    n.History inputs (stateAt l n (reset.putAll (n.writes inputs)))
      (settledAt l n (reset.putAll (n.writes inputs))) where
  start := ⟨reset, hreset, rfl⟩
  settles k := hs.compute_settledFrom hw (stateAt_sizedFor hs hw (hsized.putAll _) k)
  clocked k := by
    rw [stateAt_succ]
    exact hs.cycled_clocked hw (stateAt_sizedFor hs hw (hsized.putAll _) k)

end Simulation

end Cycled

/-! ## What a history determines -/

namespace Netlist.History

variable {n : Netlist} {inputs : List (String × UInt64)} {state settled : Nat → Store}

/-- After a reset the cycles count from 0. -/
theorem cycle_eq (h : n.History inputs state settled) (hn : n.Numbered) (hw : n.Wellformed)
    (k : Nat) : (state k).cycle.toNat = k % 2 ^ 32 := by
  induction k with
  | zero =>
    obtain ⟨reset, hreset, hstate⟩ := h.start
    cases (Store.forNetlist_ok hn hw).symm.trans hreset
    have hheader : (state 0).header = (Store.new n.signals.size).header := by
      rw [hstate, Store.putAll_header, Store.putAll_header]
    rw [Store.cycle_of_header hheader, Store.cycle_new]
    rfl
  | succ k ih =>
    rw [(h.clocked k).cycle_eq, ih, Nat.mod_add_mod]

theorem settled_cycle_eq (h : n.History inputs state settled) (hn : n.Numbered) (hw : n.Wellformed)
    (k : Nat) : (settled k).cycle.toNat = k % 2 ^ 32 := by
  rw [Store.cycle_of_header (h.settles k).header_eq, h.cycle_eq hn hw]

/-- Settling leaves the flip-flops alone. -/
theorem state_register (h : n.History inputs state settled) (hw : n.Wellformed) {f : Dff}
    (hf : f ∈ n.dffs) (k : Nat) : (state k).bit f.q = (settled k).bit f.q := by
  refine ((h.settles k).bit_eq f.q ?_).symm
  rintro ⟨g, hg, heq⟩
  exact hw.gate_out_ne_q hf hg heq

theorem state_sizedFor (h : n.History inputs state settled) (hn : n.Numbered) (hw : n.Wellformed)
    (k : Nat) : (state k).SizedFor n.signals.size := by
  induction k with
  | zero =>
    obtain ⟨reset, hreset, hstate⟩ := h.start
    cases (Store.forNetlist_ok hn hw).symm.trans hreset
    rw [hstate]
    exact ((Store.new_sizedFor _).putAll _).putAll _
  | succ k ih => exact (h.clocked k).size_eq.trans ih

/-- There is one history for given inputs. -/
theorem unique (h : n.History inputs state settled) {l : LevelizedNetlist} (hn : n.Numbered)
    (hl : levelize n = .ok l) {state' settled' : Nat → Store}
    (h' : n.History inputs state' settled') : state = state' ∧ settled = settled' := by
  obtain ⟨hw, level, hs⟩ := levelize_sorted hn hl
  have hstate : ∀ k, state k = state' k := by
    intro k
    induction k with
    | zero =>
      obtain ⟨reset, hreset, hstart⟩ := h.start
      obtain ⟨reset', hreset', hstart'⟩ := h'.start
      cases hreset.symm.trans hreset'
      rw [hstart, hstart']
    | succ k ih =>
      have hsettled : settled k = settled' k :=
        hs.settledFrom_unique hw (h.settles k) (ih ▸ h'.settles k)
      have hclocked' := h'.clocked k
      rw [← ih, ← hsettled] at hclocked'
      exact (h.clocked k).unique hclocked' (h.state_sizedFor hn hw k)
  exact ⟨funext hstate, funext fun k =>
    hs.settledFrom_unique hw (h.settles k) (hstate k ▸ h'.settles k)⟩

end Netlist.History

end NandHdl
