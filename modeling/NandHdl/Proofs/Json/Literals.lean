-- SUMMARY: String literals and counts are read back as they were written (`readString_quote`, `readAtom_toDigits`).
import NandHdl.Json.Reader
import NandHdl.Json.Writer

/-!
# Literals

A writer picks one of several forms for a character or a number, and a reader accepts all of them. What
was written is followed by more text, and the reader stops where the writer stopped: a string literal
ends with its quote, and a number ends where the next character cannot belong to it.
-/

namespace NandHdl.Json

/-! ## Strings -/

theorem digit?_hexDigit {n : Nat} (h : n < 16) : Text.digit? 16 (hexDigit n) = some n := by
  have hall : ∀ n < 16, Text.digit? 16 (hexDigit n) = some n := by decide
  exact hall n h

/-- A unit below the surrogates is a character. -/
theorem pushUnit_toNat (s : StringSoFar) {c : Char} (h : c.toNat < 0x20) :
    s.pushUnit c.toNat = s.push c := by
  have hlow : ¬0xDC00 ≤ c.toNat := by omega
  have hhigh : ¬0xD800 ≤ c.toNat := by omega
  simp [StringSoFar.pushUnit, hlow, hhigh, Char.ofNat_toNat]

theorem readString_hex_more {s : StringSoFar} {left value d : Nat} {c : Char} {rest : List Char}
    (h : Text.digit? 16 c = some d) :
    readString (.hex (left + 2) value) s (c :: rest) =
      readString (.hex (left + 1) (16 * value + d)) s rest := by
  simp [readString, h]

theorem readString_hex_last {s : StringSoFar} {value d : Nat} {c : Char} {rest : List Char}
    (h : Text.digit? 16 c = some d) :
    readString (.hex 1 value) s (c :: rest) =
      readString .plain (s.pushUnit (16 * value + d)) rest := by
  simp [readString, h]

/-- The form in which a character is written is read as the character. -/
theorem readString_escapeChar (s : StringSoFar) (c : Char) (rest : List Char) :
    readString .plain s (escapeChar c ++ rest) = readString .plain (s.push c) rest := by
  unfold escapeChar
  by_cases hshort : c = '"' ∨ c = '\\' ∨ c = '\x08' ∨ c = '\t' ∨ c = '\n' ∨ c = '\x0c' ∨ c = '\r'
  · rcases hshort with rfl | rfl | rfl | rfl | rfl | rfl | rfl
    all_goals rfl
  · simp only [not_or] at hshort
    simp only [beq_iff_eq, hshort, if_false]
    split
    · next hcontrol =>
      have hhigh := digit?_hexDigit (n := c.toNat / 16) (by omega)
      have hlow := digit?_hexDigit (n := c.toNat % 16) (by omega)
      have hvalue : 16 * (16 * 0 + c.toNat / 16) + c.toNat % 16 = c.toNat := by omega
      have hzeros : ∀ more, readString .plain s ('\\' :: 'u' :: '0' :: '0' :: more) =
          readString (.hex 2 0) s more := fun _ => rfl
      calc readString .plain s ('\\' :: 'u' :: '0' :: '0' ::
            [hexDigit (c.toNat / 16), hexDigit (c.toNat % 16)] ++ rest)
        _ = readString (.hex 2 0) s
              (hexDigit (c.toNat / 16) :: hexDigit (c.toNat % 16) :: rest) := hzeros _
        _ = readString .plain (s.pushUnit c.toNat) rest := by
          rw [readString_hex_more hhigh, readString_hex_last hlow, hvalue]
        _ = readString .plain (s.push c) rest := by rw [pushUnit_toNat s hcontrol]
    · next hplain => simp [readString, hshort, hplain]

theorem readString_escaped (read cs rest : List Char) :
    readString .plain { chars := read } (cs.flatMap escapeChar ++ '"' :: rest) =
      some (some (String.ofList (read.reverse ++ cs)), rest) := by
  induction cs generalizing read with
  | nil => simp [readString, StringSoFar.text]
  | cons c cs ih =>
    rw [List.flatMap_cons, List.append_assoc, readString_escapeChar]
    have hnext := ih (c :: read)
    simpa [StringSoFar.push] using hnext

theorem toList_quote (s : String) :
    (quote s).toList = '"' :: (s.toList.flatMap escapeChar ++ ['"']) := by
  simp [quote]

/-- A text that was written is read, from after the opening quote on. -/
theorem readString_quote (s : String) (rest : List Char) :
    readString .plain {} (s.toList.flatMap escapeChar ++ '"' :: rest) = some (some s, rest) := by
  have hread := readString_escaped [] s.toList rest
  simpa using hread

/-! ## Numbers -/

/-- The text that can follow a value: none, or the end of an item or of what holds it. -/
def Ends (rest : List Char) : Prop :=
  rest = [] ∨ ∃ c more, rest = c :: more ∧ (c = ',' ∨ c = ']' ∨ c = '\x7d')

theorem ends_cons {c : Char} {more : List Char} (h : c = ',' ∨ c = ']' ∨ c = '\x7d') :
    Ends (c :: more) :=
  .inr ⟨c, more, rfl, h⟩

theorem ofDigits_toDigits (k : Nat) :
    Numeral.ofDigits ((Nat.toDigits 10 k).map Numeral.digitValue) = k := by
  rw [Numeral.ofDigits, List.foldl_map]
  exact Nat.ofDigitChars_eq_foldl.symm.trans Nat.ofDigitChars_ten_toDigits

/-- A count is written without leading zeros. -/
theorem exists_toDigits_eq_cons {k : Nat} (h : 0 < k) :
    ∃ c cs, Nat.toDigits 10 k = c :: cs ∧ Numeral.digitValue c ≠ 0 := by
  induction k using Nat.strongRecOn with
  | ind k ih =>
    rcases Nat.lt_or_ge k 10 with hlt | hge
    · refine ⟨k.digitChar, [], Nat.toDigits_of_lt_base hlt, ?_⟩
      have hall : ∀ k < 10, 0 < k → Numeral.digitValue k.digitChar ≠ 0 := by decide
      exact hall k hlt h
    · obtain ⟨c, cs, hcs, hc⟩ := ih (k / 10) (by omega) (by omega)
      exact ⟨c, cs ++ [(k % 10).digitChar],
        by rw [Nat.toDigits_of_base_le (by decide) hge, hcs]; rfl, hc⟩

theorem isDigit_of_mem_toDigits {k : Nat} {c : Char} (h : c ∈ Nat.toDigits 10 k) :
    c.isDigit = true :=
  Nat.isDigit_of_mem_toDigits (by decide) (by decide) h

/-- A count is written with at least one digit. -/
theorem exists_first_digit (k : Nat) : ∃ c cs, Nat.toDigits 10 k = c :: cs ∧ c.isDigit = true := by
  obtain ⟨c, cs, hdigits⟩ := List.exists_cons_of_ne_nil (Nat.toDigits_ne_nil (n := k) (b := 10))
  exact ⟨c, cs, hdigits, isDigit_of_mem_toDigits (hdigits ▸ List.mem_cons_self)⟩

theorem readDigits_toDigits (k : Nat) {rest : List Char} (hrest : Ends rest) :
    readDigits (Nat.toDigits 10 k ++ rest) =
      some ((Nat.toDigits 10 k).map Numeral.digitValue, rest) := by
  have hdigits : ∀ c ∈ Nat.toDigits 10 k, c.isDigit = true := fun _ => isDigit_of_mem_toDigits
  have htake : rest.takeWhile Char.isDigit = [] ∧ rest.dropWhile Char.isDigit = rest := by
    rcases hrest with rfl | ⟨c, more, rfl, rfl | rfl | rfl⟩
    all_goals exact ⟨rfl, rfl⟩
  rw [readDigits, List.takeWhile_append_of_pos hdigits, List.dropWhile_append_of_pos hdigits,
    htake.1, htake.2, List.append_nil]
  split
  · next hnil => exact absurd hnil Nat.toDigits_ne_nil
  · rfl

theorem readMagnitude_toDigits (k : Nat) {rest : List Char} (hrest : Ends rest) :
    readMagnitude false (Nat.toDigits 10 k ++ rest) = some (.ofNat k, rest) := by
  have hzero : (((Nat.toDigits 10 k).map Numeral.digitValue).length > 1 &&
      ((Nat.toDigits 10 k).map Numeral.digitValue).head? == some 0) = false := by
    rcases Nat.eq_zero_or_pos k with rfl | hpos
    · rfl
    · obtain ⟨c, cs, hcs, hc⟩ := exists_toDigits_eq_cons hpos
      simp [hcs, hc]
  have hfraction : readFraction rest = some (none, rest) ∧ readExponent rest = some (none, rest) := by
    rcases hrest with rfl | ⟨c, more, rfl, rfl | rfl | rfl⟩
    all_goals exact ⟨rfl, rfl⟩
  simp only [readMagnitude, readDigits_toDigits k hrest, hzero, Bool.false_eq_true, if_false,
    hfraction.1, hfraction.2, Option.map_some, ofDigits_toDigits]
  rfl

theorem toList_render_ofNat (k : Nat) : (Numeral.ofNat k).render.toList = Nat.toDigits 10 k := by
  simp [Numeral.render, Numeral.ofNat]

theorem afterWord_eq_none {word : String} {c d : Char} {cs ds : List Char}
    (hword : word.toList = d :: ds) (hne : d ≠ c) : afterWord word (c :: cs) = none := by
  simp [afterWord, hword, List.isPrefixOf, hne]

theorem ne_of_isDigit {c d : Char} (h : c.isDigit = true) (hd : d.isDigit = false) : c ≠ d := by
  rintro rfl
  rw [h] at hd
  cases hd

/-- A count that was written is read where a word or a number can stand. -/
theorem readAtom_toDigits (k : Nat) {rest : List Char} (hrest : Ends rest) :
    readAtom (Nat.toDigits 10 k ++ rest) = some (.ofNat k, rest) := by
  obtain ⟨c, cs, hdigits, hdigit⟩ := exists_first_digit k
  have hread := readMagnitude_toDigits k hrest
  have hne : ∀ d : Char, d.isDigit = false → d ≠ c := fun d hd => (ne_of_isDigit hdigit hd).symm
  have hsign : readNumeral (c :: (cs ++ rest)) = readMagnitude false (c :: (cs ++ rest)) := by
    unfold readNumeral
    split
    · next heq => exact absurd (List.cons.inj heq).1.symm (hne '-' rfl)
    · rfl
  rw [hdigits, List.cons_append] at hread
  rw [hdigits, List.cons_append, readAtom, afterWord_eq_none rfl (hne 'n' rfl),
    afterWord_eq_none rfl (hne 't' rfl), afterWord_eq_none rfl (hne 'f' rfl), hsign, hread]
  rfl

end NandHdl.Json
