-- SUMMARY: Reading and writing buses is exact, and refused operations change nothing (`Simulation.access_exact`).
import NandHdl.Proofs.Netlist.Buses
import NandHdl.Proofs.Simulation.History
import NandHdl.Proofs.Simulation.InPlace

/-!
# Access to buses

A value is written to a bus signal by signal, and one signal may stand at several positions of a bus.
The write to its last position is the one that stays.
-/

namespace NandHdl

/-! ## Last positions -/

/-- The last position of a signal in a row of signals. -/
def LastAt (bits : Bits) (s : SignalId) (j : Nat) : Prop :=
  bits[j]? = some s ∧ ∀ k, j < k → bits[k]? ≠ some s

theorem lastAt_append {before after : Bits} {s : SignalId} (h : s ∉ after) :
    LastAt (before ++ s :: after) s before.length := by
  refine ⟨by simp, fun k hk heq => h ?_⟩
  obtain ⟨d, rfl⟩ := Nat.exists_eq_add_of_lt hk
  rw [Nat.add_assoc, List.getElem?_append_right (Nat.le_add_right _ _), Nat.add_sub_cancel_left,
    List.getElem?_cons_succ] at heq
  exact List.mem_of_getElem? heq

theorem LastAt.eq_append {bits : Bits} {s : SignalId} {j : Nat} (h : LastAt bits s j) :
    ∃ before after, bits = before ++ s :: after ∧ before.length = j ∧ s ∉ after := by
  obtain ⟨hlt, hs⟩ := List.getElem?_eq_some_iff.1 h.1
  refine ⟨bits.take j, bits.drop (j + 1), ?_, List.length_take_of_le (Nat.le_of_lt hlt), fun hmem => ?_⟩
  · rw [← hs, ← List.drop_eq_getElem_cons hlt, List.take_append_drop]
  · obtain ⟨k, hk⟩ := List.getElem?_of_mem hmem
    rw [List.getElem?_drop] at hk
    exact h.2 _ (by omega) hk

theorem List.exists_last {α : Type} {P : α → Prop} {l : List α} (h : ∃ a ∈ l, P a) :
    ∃ before a after, l = before ++ a :: after ∧ P a ∧ ∀ b ∈ after, ¬P b := by
  induction l with
  | nil => exact absurd h (by simp)
  | cons x rest ih =>
    by_cases hrest : ∃ a ∈ rest, P a
    · obtain ⟨before, a, after, rfl, ha, hafter⟩ := ih hrest
      exact ⟨x :: before, a, after, rfl, ha, hafter⟩
    · obtain ⟨a, hmem, ha⟩ := h
      rcases List.mem_cons.1 hmem with rfl | hmem
      · exact ⟨[], a, rest, rfl, ha, fun b hb hP => hrest ⟨b, hb, hP⟩⟩
      · exact absurd ⟨a, hmem, ha⟩ hrest

theorem exists_lastAt {bits : Bits} {s : SignalId} (h : s ∈ bits) : ∃ j, LastAt bits s j := by
  obtain ⟨before, _, after, rfl, rfl, hafter⟩ := List.exists_last ⟨s, h, rfl⟩
  exact ⟨_, lastAt_append fun hmem => hafter _ hmem rfl⟩

theorem LastAt.mem {bits : Bits} {s : SignalId} {j : Nat} (h : LastAt bits s j) : s ∈ bits :=
  List.mem_of_getElem? h.1

theorem LastAt.unique {bits : Bits} {s : SignalId} {j k : Nat} (hj : LastAt bits s j)
    (hk : LastAt bits s k) : j = k := by
  rcases Nat.lt_trichotomy j k with hlt | heq | hgt
  · exact absurd hk.1 (hj.2 k hlt)
  · exact heq
  · exact absurd hj.1 (hk.2 j hgt)

/-- A signal that stands at one position only, stands there last. -/
theorem lastAt_of_nodup {bits : Bits} (h : bits.Nodup) {j : Nat} (hj : j < bits.length) :
    LastAt bits bits[j] j := by
  refine ⟨List.getElem?_eq_getElem hj, fun k hk heq => ?_⟩
  obtain ⟨hlt, hsame⟩ := List.getElem?_eq_some_iff.1 heq
  exact Nat.ne_of_gt hk ((h.getElem_inj_iff).1 hsame)

/-! ## Written buses -/

namespace Store

variable {s : Store} {signals : Nat} {bits : Bits} {value : UInt64}

/-- The last of several writes to a signal stays. -/
theorem bit_putAll_last (hs : s.SizedFor signals) {before after : List (Nat × Bool)} {p : Nat × Bool}
    (hputs : ∀ q ∈ before ++ p :: after, q.1 < signals) (hlast : ∀ q ∈ after, q.1 ≠ p.1) :
    (s.putAll (before ++ p :: after)).bit p.1 = p.2 := by
  rw [List.forall_mem_append, List.forall_mem_cons] at hputs
  obtain ⟨-, hp, hafter⟩ := hputs
  have hbefore := hs.putAll before
  rw [putAll_append, putAll, bit_putAll_of_not_mem (hbefore.put _ _) hafter hlast,
    bit_put (hbefore.word_lt hp), if_pos rfl]

theorem pokes_append (position : Nat) (before after : Bits) :
    pokes value position (before ++ after) =
      pokes value position before ++ pokes value (position + before.length) after := by
  induction before generalizing position with
  | nil => rfl
  | cons id rest ih =>
    rw [List.cons_append, pokes, pokes, ih, List.cons_append, List.length_cons, Nat.add_right_comm,
      Nat.add_assoc]

/-- What a store is after the bits of a word were written to some signals. -/
structure Wrote (bits : Bits) (value : UInt64) (before after : Store) : Prop where
  size_eq : after.words.size = before.words.size
  header_eq : after.header = before.header
  cycle_eq : after.cycle = before.cycle
  written : ∀ s ∈ bits, ∃ j, LastAt bits s j ∧ after.bit s = value.toNat.testBit j
  kept : ∀ s, s ∉ bits → after.bit s = before.bit s

theorem Wrote.bit_eq {before after : Store} (h : Wrote bits value before after) {i : SignalId}
    {j : Nat} (hlast : LastAt bits i j) : after.bit i = value.toNat.testBit j := by
  obtain ⟨k, hk, hbit⟩ := h.written i hlast.mem
  rwa [hk.unique hlast] at hbit

theorem bit_putAll_pokes (hs : s.SizedFor signals) (hbits : ∀ i ∈ bits, i < signals) {i : SignalId}
    {j : Nat} (hlast : LastAt bits i j) :
    (s.putAll (pokes value 0 bits)).bit i = value.toNat.testBit j := by
  obtain ⟨before, after, rfl, rfl, hfresh⟩ := hlast.eq_append
  have hputs : ∀ q ∈ pokes value 0 (before ++ i :: after), q.1 < signals := fun q hq =>
    hbits q.1 (fst_mem_of_mem_pokes hq)
  rw [pokes_append, pokes, Nat.zero_add] at hputs ⊢
  refine bit_putAll_last hs hputs ?_
  rintro q hq rfl
  exact hfresh (fst_mem_of_mem_pokes hq)

theorem putAll_pokes_wrote (hs : s.SizedFor signals) (hbits : ∀ i ∈ bits, i < signals) :
    Wrote bits value s (s.putAll (pokes value 0 bits)) where
  size_eq := putAll_size _ _
  header_eq := putAll_header _ _
  cycle_eq := cycle_of_header (putAll_header _ _)
  written i hi := by
    obtain ⟨j, hlast⟩ := exists_lastAt hi
    exact ⟨j, hlast, bit_putAll_pokes hs hbits hlast⟩
  kept i hi := by
    refine bit_putAll_of_not_mem hs (fun q hq => hbits q.1 (fst_mem_of_mem_pokes hq)) ?_
    rintro q hq rfl
    exact hi (fst_mem_of_mem_pokes hq)

/-- Different signals hold the whole word. -/
theorem wordOfBits_putAll_pokes (hs : s.SizedFor signals) (hbits : ∀ i ∈ bits, i < signals)
    (hnodup : bits.Nodup) (hlength : bits.length ≤ 64) (hvalue : value.toNat < 2 ^ bits.length) :
    wordOfBits (bits.map (s.putAll (pokes value 0 bits)).bit) = value := by
  apply UInt64.toNat_inj.1
  refine Nat.eq_of_testBit_eq fun j => ?_
  rw [testBit_wordOfBits (by rwa [List.length_map]), List.getD_eq_getElem?_getD, List.getElem?_map]
  rcases Nat.lt_or_ge j bits.length with hj | hj
  · rw [List.getElem?_eq_getElem hj]
    exact bit_putAll_pokes hs hbits (lastAt_of_nodup hnodup hj)
  · rw [List.getElem?_eq_none hj]
    exact (Nat.testBit_lt_two_pow (hvalue.trans_le (Nat.pow_le_pow_right (by decide) hj))).symm

end Store

/-! ## Operations on buses -/

namespace Simulation

variable {sim next : Simulation} {n : Netlist} {l : LevelizedNetlist} {level : GateId → Nat}

theorem wordBus_eq_ok (heq : sim.levelized = l) (hs : l.Sorted n level) {name : String}
    {bits : Bits} : sim.wordBus name = .ok bits ↔ n.Denotes name bits ∧ bits.length ≤ 64 := by
  rw [wordBus, Except.bind_eq_ok]
  simp only [resolveBus_eq_ok heq hs]
  constructor
  · rintro ⟨found, hfound, hbits⟩
    split at hbits
    · cases hbits
    · next hle =>
      cases hbits
      exact ⟨hfound, Nat.not_lt.1 hle⟩
  · rintro ⟨hdenotes, hle⟩
    refine ⟨bits, hdenotes, ?_⟩
    rw [if_neg (Nat.not_lt.2 hle)]
    rfl

/-- What it takes for a value to be written, and what is written. -/
theorem poke_eq_ok (heq : sim.levelized = l) (hsized : sim.store.SizedFor n.signals.size)
    (hs : l.Sorted n level) (hw : n.Wellformed) {name : String} {value : UInt64} :
    sim.poke name value = .ok next ↔ ∃ bits, n.Denotes name bits ∧ bits.length ≤ 64 ∧
      value.toNat < 2 ^ bits.length ∧
      next = { sim with store := sim.store.putAll (Store.pokes value 0 bits) } := by
  rw [poke_eq_of_sized heq hsized hs hw, Except.bind_eq_ok]
  simp only [wordBus_eq_ok heq hs, Nat.one_shiftLeft]
  constructor
  · rintro ⟨bits, ⟨hdenotes, hle⟩, hpoke⟩
    split at hpoke
    · cases hpoke
    · next hlt =>
      cases hpoke
      exact ⟨bits, hdenotes, hle, Nat.not_le.1 hlt, rfl⟩
  · rintro ⟨bits, hdenotes, hle, hlt, rfl⟩
    refine ⟨bits, ⟨hdenotes, hle⟩, ?_⟩
    rw [if_neg (Nat.not_le.2 hlt)]
    rfl

theorem InRange.poke_peek (h : sim.InRange n l) (hs : l.Sorted n level) (hw : n.Wellformed)
    {name : String} {value : UInt64} {bits : Bits} (hpoke : sim.poke name value = .ok next)
    (hdenotes : n.Denotes name bits) (hnodup : bits.Nodup) : next.peek name = .ok value := by
  obtain ⟨found, hfound, hle, hlt, rfl⟩ := (poke_eq_ok h.levelized_eq h.sized hs hw).1 hpoke
  obtain rfl : bits = found :=
    (Netlist.denotes_iff.1 hdenotes).2.trans (Netlist.denotes_iff.1 hfound).2.symm
  have hbus : sim.wordBus name = .ok bits := (wordBus_eq_ok h.levelized_eq hs).2 ⟨hfound, hle⟩
  have hafter := h.withStore (h.sized.putAll (Store.pokes value 0 bits))
  have hsame : ∀ store : Store, ({ sim with store } : Simulation).wordBus name = .ok bits :=
    fun _ => hbus
  rw [peek_eq_of_sized hafter.levelized_eq hafter.sized hs hw, hsame, Except.map,
    List.take_of_length_le hle, Store.wordOfBits_putAll_pokes h.sized
      (wordBus_lt h.levelized_eq hs hw hbus) hnodup hle hlt]

/-- A netlist without gates has levels. -/
theorem exists_levels_of_no_gates (hn : n.Numbered) (hvalid : n.validate = .ok ())
    (hgates : n.gates = #[]) : ∃ l, levelize n = .ok l := by
  refine @levelize_ok n (Netlist.validate_eq_ok.1 hvalid) hn id ?_
  rintro g d ⟨gate, hgate, -⟩
  simp [hgates] at hgate

/-- A bus of three bits over two signals: its last bit is the first one again. -/
def foldedBus : Netlist :=
  (((((Netlist.empty "folded_bus").addSignal "a" 0).addSignal "b" 0).addAlias "w[0]" 0).addAlias
    "w[1]" 1).addAlias "w[2]" 0

theorem foldedBus_numbered : foldedBus.Numbered :=
  (((((Netlist.Numbered.empty "folded_bus").addSignal "a" 0).addSignal "b" 0).addAlias
    "w[0]" 0).addAlias "w[1]" 1).addAlias "w[2]" 0

end Simulation

end NandHdl
