-- SUMMARY: Blanks around a text fall away (`Text.trimChars_surround`), and digits of either case are read as the number they were written for (`Text.digitsFrom?_padded`).
import NandHdl.Text
import Mathlib.Data.List.Basic

/-!
# Blanks and digits

Trimming takes blanks from both ends and stops at the first other character, so more blanks around a
text change nothing. Digits are read from the highest on: the digits of `n` without the last one are
those of `n` divided by the radix, and leading zeros leave the number read so far at zero.
-/

namespace NandHdl.Text

/-! ## Blanks -/

/-- The text holds blanks alone. -/
def Blank (s : String) : Prop := ∀ c ∈ s.toList, isBlank c = true

instance (s : String) : Decidable (Blank s) :=
  decidable_of_iff (s.toList.all isBlank = true) List.all_eq_true

theorem Blank.not_mem {s : String} {c : Char} (h : Blank s) (hc : isBlank c = false) :
    c ∉ s.toList := by
  intro hmem
  rw [h c hmem] at hc
  cases hc

/-- Blanks around a text fall away. -/
theorem trimChars_surround {before after : List Char} (hbefore : ∀ c ∈ before, isBlank c = true)
    (hafter : ∀ c ∈ after, isBlank c = true) (cs : List Char) :
    trimChars (before ++ cs ++ after) = trimChars cs := by
  have hreverse : ∀ c ∈ after.reverse, isBlank c = true := fun c hc =>
    hafter c (List.mem_reverse.1 hc)
  rw [trimChars, trimChars, List.append_assoc, List.dropWhile_append_of_pos hbefore,
    List.dropWhile_append]
  split
  · next hempty =>
    rw [List.isEmpty_iff.1 hempty, ← List.append_nil after, List.dropWhile_append_of_pos hafter]
    rfl
  · rw [List.reverse_append, List.dropWhile_append_of_pos hreverse]

theorem trimChars_eq_self {cs : List Char} (h : ∀ c ∈ cs, isBlank c = false) :
    trimChars cs = cs := by
  have hdrop : ∀ {cs : List Char}, (∀ c ∈ cs, isBlank c = false) → cs.dropWhile isBlank = cs := by
    intro cs h
    cases cs with
    | nil => rfl
    | cons c rest => exact List.dropWhile_cons_of_neg (by simp [h c List.mem_cons_self])
  rw [trimChars, hdrop h, hdrop fun c hc => h c (List.mem_reverse.1 hc), List.reverse_reverse]

theorem toList_trim (s : String) : (trim s).toList = trimChars s.toList := by
  rw [trim, String.toList_ofList]

/-! ## Cutting -/

theorem cutChars?_append {c : Char} {before after : List Char} (h : c ∉ before) :
    cutChars? c (before ++ c :: after) = some (before, after) := by
  have hall : ∀ d ∈ before, (d != c) = true := fun d hd => bne_iff_ne.2 fun heq => h (heq ▸ hd)
  rw [cutChars?, List.dropWhile_append_of_pos hall, List.takeWhile_append_of_pos hall]
  simp

/-! ## Digits -/

/-- Letters of either case have the same value. -/
theorem digitValue?_toLower (c : Char) : digitValue? c.toLower = digitValue? c := by
  by_cases h : 'A' ≤ c ∧ c ≤ 'Z'
  · have hall : ∀ k < 26, digitValue? (Char.ofNat (65 + k)).toLower =
        digitValue? (Char.ofNat (65 + k)) := by decide
    have hlow : 65 ≤ c.toNat := h.1
    have hhigh : c.toNat ≤ 90 := h.2
    have hc := hall (c.toNat - 65) (by omega)
    rwa [Nat.add_sub_cancel' hlow, Char.ofNat_toNat] at hc
  · have hlower : c.toLower = c := dif_neg h
    rw [hlower]

theorem digitsFrom?_toLower (radix n : Nat) (cs : List Char) :
    digitsFrom? radix n (cs.map Char.toLower) = digitsFrom? radix n cs := by
  induction cs generalizing n with
  | nil => rfl
  | cons c rest ih => simp [digitsFrom?, digit?, digitValue?_toLower, ih]

theorem digitsFrom?_append (radix n : Nat) (cs ds : List Char) :
    digitsFrom? radix n (cs ++ ds) =
      (digitsFrom? radix n cs).bind fun m => digitsFrom? radix m ds := by
  induction cs generalizing n with
  | nil => rfl
  | cons c rest ih =>
    simp only [List.cons_append, digitsFrom?, Option.bind_eq_bind, ih, Option.bind_assoc]

theorem digit?_digitChar {radix d : Nat} (hradix : radix ≤ 16) (hd : d < radix) :
    digit? radix (Nat.digitChar d) = some d := by
  have hall : ∀ d < 16, digitValue? (Nat.digitChar d) = some d := by decide
  rw [digit?, hall d (by omega), Option.filter_some, if_pos (decide_eq_true hd)]

theorem digitsFrom?_singleton {radix n d : Nat} {c : Char} (h : digit? radix c = some d) :
    digitsFrom? radix n [c] = some (radix * n + d) := by
  simp [digitsFrom?, h]

theorem digitsFrom?_toDigits {radix : Nat} (hradix : 1 < radix) (hle : radix ≤ 16) (n : Nat) :
    digitsFrom? radix 0 (Nat.toDigits radix n) = some n := by
  induction n using Nat.strongRecOn with
  | ind n ih =>
    rcases Nat.lt_or_ge n radix with hlt | hge
    · rw [Nat.toDigits_of_lt_base hlt, digitsFrom?_singleton (digit?_digitChar hle hlt),
        Nat.mul_zero, Nat.zero_add]
    · have hmod := Nat.mod_lt n (Nat.zero_lt_of_lt hradix)
      rw [Nat.toDigits_of_base_le hradix hge, digitsFrom?_append,
        ih _ (Nat.div_lt_self (by omega) hradix), Option.bind_some,
        digitsFrom?_singleton (digit?_digitChar hle hmod), Nat.div_add_mod]

theorem digitsFrom?_zeros {radix : Nat} (hradix : 1 < radix) (zeros : Nat) (cs : List Char) :
    digitsFrom? radix 0 (List.replicate zeros '0' ++ cs) = digitsFrom? radix 0 cs := by
  have hvalue : digitValue? '0' = some 0 := by decide
  have hzero : digit? radix '0' = some 0 := by
    rw [digit?, hvalue, Option.filter_some, if_pos (decide_eq_true (Nat.zero_lt_of_lt hradix))]
  induction zeros with
  | zero => rfl
  | succ zeros ih =>
    rw [List.replicate_succ, List.cons_append, digitsFrom?, hzero]
    exact ih

/-- Digits of either case behind leading zeros stand for the number they were written for. -/
theorem digitsFrom?_padded {radix : Nat} (hradix : 1 < radix) (hle : radix ≤ 16) {n : Nat}
    {digits : List Char} (h : digits.map Char.toLower = Nat.toDigits radix n) (zeros : Nat) :
    digitsFrom? radix 0 (List.replicate zeros '0' ++ digits) = some n := by
  rw [digitsFrom?_zeros hradix, ← digitsFrom?_toLower, h, digitsFrom?_toDigits hradix hle]

theorem exists_digit_of_mem {radix n m : Nat} {cs : List Char} (h : digitsFrom? radix n cs = some m)
    {c : Char} (hc : c ∈ cs) : ∃ d, digit? radix c = some d := by
  induction cs generalizing n with
  | nil => exact absurd hc List.not_mem_nil
  | cons first rest ih =>
    simp only [digitsFrom?, Option.bind_eq_bind, Option.bind_eq_some_iff] at h
    obtain ⟨d, hd, hrest⟩ := h
    rcases List.mem_cons.1 hc with rfl | hc
    · exact ⟨d, hd⟩
    · exact ih hrest hc

/-- Digits that stand for a number are read as a word if the number fits in one. -/
theorem word?_of_digits {radix n : Nat} {cs : List Char} (hne : cs ≠ [])
    (h : digitsFrom? radix 0 cs = some n) :
    word? radix cs = if n < UInt64.size then some (UInt64.ofNat n) else none := by
  have hplus : '+' ∉ cs := by
    intro hmem
    obtain ⟨d, hd⟩ := exists_digit_of_mem h hmem
    cases hd
  unfold word?
  split
  · exact absurd List.mem_cons_self hplus
  · simp [hne, h]

/-- A digit is no blank. -/
theorem isBlank_of_digit {radix d : Nat} {c : Char} (h : digit? radix c = some d) :
    isBlank c = false := by
  have hvalue : digitValue? c = some d := (Option.filter_eq_some_iff.1 h).1
  have hrange : 48 ≤ c.toNat ∧ c.toNat ≤ 57 ∨ 65 ≤ c.toNat ∧ c.toNat ≤ 122 := by
    unfold digitValue? at hvalue
    split at hvalue
    · next hdigit =>
      simp only [Bool.and_eq_true, decide_eq_true_eq] at hdigit
      exact .inl hdigit
    · split at hvalue
      · next hletter =>
        simp only [Bool.and_eq_true, decide_eq_true_eq] at hletter
        exact .inr ⟨Nat.le_trans (by decide) hletter.1, hletter.2⟩
      · split at hvalue
        · next hletter =>
          simp only [Bool.and_eq_true, decide_eq_true_eq] at hletter
          exact .inr ⟨hletter.1, Nat.le_trans hletter.2 (by decide)⟩
        · cases hvalue
  simp only [isBlank, Bool.or_eq_false_iff, Bool.and_eq_false_iff, decide_eq_false_iff_not,
    beq_eq_false_iff_ne]
  omega

end NandHdl.Text
