-- SUMMARY: A store as a header and a row of bits: reading and writing signals, and equality of stores bit by bit.
import NandHdl.Store.Basic
import Mathlib.Algebra.Group.Nat.Defs
import Mathlib.Tactic.Common

/-!
# Bits of a store

A store is read here as its header and one bit per position. Positions past the last signal, up to
the end of the last word, are bits like the others; a statement about all positions is therefore a
statement about the padding too.
-/

namespace NandHdl

/-! ## Bits of a word -/

namespace Store

theorem toNat_mask {i : Nat} (h : i < 32) : ((1 : UInt32) <<< UInt32.ofNat i).toNat = 2 ^ i := by
  have hpow : 2 ^ i < 2 ^ 32 := Nat.pow_lt_pow_right (by omega) h
  have hmod : i % 2 ^ 32 % 32 = i := by omega
  simp only [UInt32.toNat_shiftLeft, UInt32.toNat_ofNat', UInt32.toNat_one, Nat.one_shiftLeft]
  rw [hmod, Nat.mod_eq_of_lt hpow]

theorem testBit_mask {i j : Nat} (h : i < 32) :
    ((1 : UInt32) <<< UInt32.ofNat i).toNat.testBit j = decide (i = j) := by
  rw [toNat_mask h, Nat.testBit_two_pow]

theorem testBit_not {w : UInt32} {j : Nat} (h : j < 32) :
    (~~~w).toNat.testBit j = !w.toNat.testBit j := by
  rw [← UInt32.toNat_toBitVec, UInt32.toBitVec_not, BitVec.testBit_toNat, BitVec.getLsbD_not,
    ← BitVec.testBit_toNat, UInt32.toNat_toBitVec]
  simp [h]

theorem eq_of_testBit {a b : UInt32}
    (h : ∀ j < 32, a.toNat.testBit j = b.toNat.testBit j) : a = b := by
  rw [← UInt32.toBitVec_inj]
  ext j hj
  simpa [← BitVec.testBit_toNat, ← BitVec.getLsbD_eq_getElem] using h j hj

theorem testBit_withBit {w : UInt32} {i j : Nat} {b : Bool} (hi : i < 32) (hj : j < 32) :
    (withBit w i b).toNat.testBit j = if j = i then b else w.toNat.testBit j := by
  unfold withBit
  cases b with
  | true =>
    simp only [reduceIte, UInt32.toNat_or, Nat.testBit_or, testBit_mask hi]
    by_cases h : j = i
    · simp [h]
    · simp [h, Ne.symm h]
  | false =>
    simp only [Bool.false_eq_true, reduceIte, UInt32.toNat_and, Nat.testBit_and, testBit_not hj,
      testBit_mask hi]
    by_cases h : j = i
    · simp [h]
    · simp [h, Ne.symm h]

/-- Replacing a bit in a row of words that starts at word `start`. -/
theorem testBit_modify_row {words : Array UInt32} {start i : Nat} (h : start + i / 32 < words.size)
    (b : Bool) (j : Nat) :
    ((words.modify (start + i / 32) fun w => withBit w (i % 32) b).getD
        (start + j / 32) 0).toNat.testBit (j % 32) =
      if j = i then b else (words.getD (start + j / 32) 0).toNat.testBit (j % 32) := by
  simp only [Array.getD_eq_getD_getElem?, Array.getElem?_modify]
  by_cases hword : start + i / 32 = start + j / 32
  · have hbit : (j % 32 = i % 32) = (j = i) := by
      apply propext
      omega
    rw [if_pos hword, ← hword, Array.getElem?_eq_getElem h]
    simp only [Option.map_some, Option.getD_some]
    rw [testBit_withBit (Nat.mod_lt _ (by omega)) (Nat.mod_lt _ (by omega))]
    simp only [hbit]
  · have hne : j ≠ i := fun hji => hword (by rw [hji])
    rw [if_neg hword, if_neg hne]

/-! ## Header and bits -/

/-- The words before the signals. -/
def header (s : Store) : List UInt32 := s.words.toList.take headerWords

/-- The bit at a position; 0 past the end. -/
def bit (s : Store) (i : Nat) : Bool :=
  (s.words.getD (headerWords + i / 32) 0).toNat.testBit (i % 32)

/-- The store with one bit replaced. -/
def put (s : Store) (i : Nat) (value : Bool) : Store :=
  { words := s.words.modify (headerWords + i / 32) fun w => withBit w (i % 32) value }

/-- The store has the words that a number of signals needs. -/
def SizedFor (s : Store) (signals : Nat) : Prop := s.words.size = wordsFor signals

instance (s : Store) (signals : Nat) : Decidable (s.SizedFor signals) :=
  inferInstanceAs (Decidable (_ = _))

theorem SizedFor.word_lt {s : Store} {signals i : Nat} (h : s.SizedFor signals) (hi : i < signals) :
    headerWords + i / 32 < s.words.size := by
  have : i / 32 < (signals + 31) / 32 := by omega
  rw [h, wordsFor]
  omega

@[simp] theorem put_size (s : Store) (i : Nat) (value : Bool) :
    (s.put i value).words.size = s.words.size := by
  simp [put]

theorem SizedFor.put {s : Store} {signals : Nat} (h : s.SizedFor signals) (i : Nat) (value : Bool) :
    (s.put i value).SizedFor signals := by
  rw [SizedFor, put_size, h]

@[simp] theorem put_header (s : Store) (i : Nat) (value : Bool) :
    (s.put i value).header = s.header := by
  apply List.ext_getElem?
  intro k
  simp only [header, put, List.getElem?_take, Array.getElem?_toList, Array.getElem?_modify]
  have : k < headerWords → headerWords + i / 32 ≠ k := by omega
  split <;> simp_all

/-- Replacing a bit that exists changes that bit and no other. -/
theorem bit_put {s : Store} {i : Nat} (h : headerWords + i / 32 < s.words.size) (value : Bool)
    (j : Nat) : (s.put i value).bit j = if j = i then value else s.bit j :=
  testBit_modify_row h value j

theorem bit_put_of_sized {s : Store} {signals i : Nat} (h : s.SizedFor signals) (hi : i < signals)
    (value : Bool) : (s.put i value).bit = Function.update s.bit i value := by
  funext j
  rw [bit_put (h.word_lt hi), Function.update_apply]

/-- Stores with the same header have the same words in it. -/
theorem getElem?_eq_of_header {s t : Store} (h : s.header = t.header) {k : Nat}
    (hk : k < headerWords) : s.words[k]? = t.words[k]? := by
  have hget := congrArg (·[k]?) h
  simpa [header, List.getElem?_take, hk] using hget

/-- Stores of one size with the same header and the same bits, padding included, are equal. -/
theorem ext_bit {s t : Store} (hsize : s.words.size = t.words.size) (hheader : s.header = t.header)
    (hbit : ∀ i, s.bit i = t.bit i) : s = t := by
  have hword : s.words = t.words := by
    apply Array.ext hsize
    intro k hs ht
    by_cases hk : k < headerWords
    · simpa [hs, ht] using getElem?_eq_of_header hheader hk
    · apply eq_of_testBit
      intro j hj
      have := hbit (32 * (k - headerWords) + j)
      have hpos : headerWords + (32 * (k - headerWords) + j) / 32 = k := by omega
      have hmod : (32 * (k - headerWords) + j) % 32 = j := by omega
      simpa [bit, hpos, hmod, hs, ht] using this
  cases s
  cases t
  simpa using hword

/-- The store with several bits replaced, one after the other. -/
def putAll (s : Store) : List (Nat × Bool) → Store
  | [] => s
  | (i, value) :: rest => (s.put i value).putAll rest

@[simp] theorem putAll_size (s : Store) (puts : List (Nat × Bool)) :
    (s.putAll puts).words.size = s.words.size := by
  induction puts generalizing s with
  | nil => rfl
  | cons p rest ih => rw [putAll, ih, put_size]

@[simp] theorem putAll_header (s : Store) (puts : List (Nat × Bool)) :
    (s.putAll puts).header = s.header := by
  induction puts generalizing s with
  | nil => rfl
  | cons p rest ih => rw [putAll, ih, put_header]

theorem SizedFor.putAll {s : Store} {signals : Nat} (h : s.SizedFor signals)
    (puts : List (Nat × Bool)) : (s.putAll puts).SizedFor signals := by
  rw [SizedFor, putAll_size, h]

/-- Stores that agree on a signal agree on it after the same writes. -/
theorem bit_putAll_congr {s t : Store} {signals : Nat} (hs : s.SizedFor signals)
    (ht : t.SizedFor signals) {puts : List (Nat × Bool)} (hputs : ∀ p ∈ puts, p.1 < signals)
    {i : Nat} (h : s.bit i = t.bit i) : (s.putAll puts).bit i = (t.putAll puts).bit i := by
  induction puts generalizing s t with
  | nil => exact h
  | cons p rest ih =>
    simp only [List.mem_cons, forall_eq_or_imp] at hputs
    refine ih (hs.put _ _) (ht.put _ _) hputs.2 ?_
    rw [bit_put (hs.word_lt hputs.1), bit_put (ht.word_lt hputs.1), h]

/-- Writes leave the other signals alone. -/
theorem bit_putAll_of_not_mem {s : Store} {signals : Nat} (hs : s.SizedFor signals)
    {puts : List (Nat × Bool)} (hputs : ∀ p ∈ puts, p.1 < signals) {i : Nat} (h : ∀ p ∈ puts, p.1 ≠ i) :
    (s.putAll puts).bit i = s.bit i := by
  induction puts generalizing s with
  | nil => rfl
  | cons p rest ih =>
    simp only [List.mem_cons, forall_eq_or_imp] at hputs h
    rw [putAll, ih (hs.put _ _) hputs.2 h.2, bit_put (hs.word_lt hputs.1), if_neg (Ne.symm h.1)]

/-- Writes to different signals all stay. -/
theorem bit_putAll_of_mem {s : Store} {signals : Nat} (hs : s.SizedFor signals)
    {puts : List (Nat × Bool)} (hputs : ∀ p ∈ puts, p.1 < signals) (hnodup : (puts.map Prod.fst).Nodup)
    {p : Nat × Bool} (hp : p ∈ puts) : (s.putAll puts).bit p.1 = p.2 := by
  induction puts generalizing s with
  | nil => exact nomatch hp
  | cons q rest ih =>
    simp only [List.mem_cons, forall_eq_or_imp] at hputs
    obtain ⟨hfresh, hrest⟩ := List.nodup_cons.1 hnodup
    rcases List.mem_cons.1 hp with rfl | hp
    · rw [putAll, bit_putAll_of_not_mem (hs.put _ _) hputs.2, bit_put (hs.word_lt hputs.1),
        if_pos rfl]
      exact fun r hr heq => hfresh (List.mem_map.2 ⟨r, hr, heq⟩)
    · exact ih (hs.put _ _) hputs.2 hrest hp

/-! ## Words of bits -/

theorem toNat_wordOfBits_cons (b : Bool) {rest : List Bool} (h : rest.length < 64)
    (hlt : (wordOfBits rest).toNat < 2 ^ rest.length) :
    (wordOfBits (b :: rest)).toNat = 2 * (wordOfBits rest).toNat + b.toNat := by
  have hpow : 2 ^ (rest.length + 1) ≤ 2 ^ 64 := Nat.pow_le_pow_right (by omega) h
  rw [Nat.pow_succ] at hpow
  have hword : wordOfBits (b :: rest) = 2 * wordOfBits rest + if b then 1 else 0 := rfl
  cases b with
  | false =>
    simp only [hword, Bool.false_eq_true, if_false, UInt64.toNat_add, UInt64.toNat_mul,
      UInt64.reduceToNat, Bool.toNat_false]
    omega
  | true =>
    simp only [hword, if_true, UInt64.toNat_add, UInt64.toNat_mul, UInt64.reduceToNat,
      Bool.toNat_true]
    omega

theorem toNat_wordOfBits_lt {bits : List Bool} (h : bits.length ≤ 64) :
    (wordOfBits bits).toNat < 2 ^ bits.length := by
  induction bits with
  | nil => decide
  | cons b rest ih =>
    rw [List.length_cons] at h
    have hrest := ih (by omega)
    rw [toNat_wordOfBits_cons b h hrest, List.length_cons, Nat.pow_succ]
    have := b.toNat_le
    omega

/-- Bit `i` of the word is the value at position `i`. -/
theorem testBit_wordOfBits {bits : List Bool} (h : bits.length ≤ 64) (i : Nat) :
    (wordOfBits bits).toNat.testBit i = bits.getD i false := by
  induction bits generalizing i with
  | nil => simp [wordOfBits]
  | cons b rest ih =>
    rw [List.length_cons] at h
    rw [toNat_wordOfBits_cons b h (toNat_wordOfBits_lt (by omega))]
    cases i with
    | zero =>
      rw [Nat.testBit_zero]
      cases b <;> simp
    | succ i =>
      have hhalf : (2 * (wordOfBits rest).toNat + b.toNat) / 2 = (wordOfBits rest).toNat := by
        have := b.toNat_le
        omega
      rw [Nat.testBit_succ, hhalf, ih (by omega), List.getD_cons_succ]

/-! ## Actions -/

theorem read_run {s : Store} {signals i : Nat} (h : s.SizedFor signals) (hi : i < signals) :
    read i s = .ok (s.bit i) s := by
  simp [read, readWord, bit, bind, EStateM.bind, pure, EStateM.pure, h.word_lt hi]

theorem write_run {s : Store} {signals i : Nat} (h : s.SizedFor signals) (hi : i < signals)
    (value : Bool) : write i value s = .ok () (s.put i value) := by
  simp [write, modifyWord, put, h.word_lt hi]

theorem readAll_run {s : Store} {signals : Nat} {ids : List SignalId} (h : s.SizedFor signals)
    (hids : ∀ i ∈ ids, i < signals) : readAll ids s = .ok (ids.map s.bit) s := by
  induction ids with
  | nil => rfl
  | cons i rest ih =>
    simp only [List.mem_cons, forall_eq_or_imp] at hids
    simp [readAll, bind, EStateM.bind, read_run h hids.1, ih hids.2, pure, EStateM.pure]

end Store

end NandHdl
