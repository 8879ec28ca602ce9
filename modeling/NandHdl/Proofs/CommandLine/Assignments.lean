-- SUMMARY: Assignments are read as they are written (`parseAssignment_spelled`).
import NandHdl.CommandLine.Argument
import NandHdl.Proofs.Text

/-!
# Assignments

A value can be written in three radixes, with leading zeros, with letters of either case and with
underscores anywhere, even within the mark of the radix. Blanks may stand around the name and around
the value. However it is written, the assignment gives the same value to the same name, unless the
value does not fit in a word.
-/

namespace NandHdl

/-! ## Spellings -/

/-- The radixes in which a value can be written. -/
inductive Radix where
  | decimal
  | hexadecimal
  | binary
  deriving Repr, DecidableEq

namespace Radix

/-- The number of digits. -/
def base : Radix → Nat
  | decimal => 10
  | hexadecimal => 16
  | binary => 2

/-- The mark before the digits. -/
def mark : Radix → List Char
  | decimal => []
  | hexadecimal => ['0', 'x']
  | binary => ['0', 'b']

/-- The characters are a way to write `n`: behind the mark and any zeros stand the digits of `n`,
with letters of either case, and underscores stand wherever one likes. -/
def Spells (r : Radix) (n : Nat) (cs : List Char) : Prop :=
  ∃ zeros digits, digits.map Char.toLower = Nat.toDigits r.base n ∧
    cs.filter (· != '_') = r.mark ++ (List.replicate zeros '0' ++ digits)

theorem one_lt_base (r : Radix) : 1 < r.base := by
  cases r <;> decide

theorem base_le (r : Radix) : r.base ≤ 16 := by
  cases r <;> decide

variable {r : Radix} {n : Nat} {cs : List Char}

/-- The mark tells the radix. -/
theorem parseRadix?_mark {digits : List Char} (h : Text.digitsFrom? r.base 0 digits = some n) :
    parseRadix? (r.mark ++ digits) = Text.word? r.base digits := by
  cases r with
  | decimal =>
    have hdigit : ∀ c ∈ digits, ∃ d, Text.digit? 10 c = some d :=
      fun _ => Text.exists_digit_of_mem h
    show parseRadix? digits = Text.word? 10 digits
    unfold parseRadix?
    split
    · obtain ⟨d, hd⟩ := hdigit 'x' (by simp)
      cases hd
    · obtain ⟨d, hd⟩ := hdigit 'b' (by simp)
      cases hd
    · rfl
  | hexadecimal => rfl
  | binary => rfl

/-- However a value is written, it is read as the word if it fits in one. -/
theorem Spells.parseValue? (h : r.Spells n cs) :
    parseValue? cs = if n < UInt64.size then some (UInt64.ofNat n) else none := by
  obtain ⟨zeros, digits, hdigits, hcs⟩ := h
  have hread := Text.digitsFrom?_padded r.one_lt_base r.base_le hdigits zeros
  have hne : List.replicate zeros '0' ++ digits ≠ [] := by
    intro hnil
    rw [(List.append_eq_nil_iff.1 hnil).2] at hdigits
    exact Nat.toDigits_ne_nil hdigits.symm
  rw [NandHdl.parseValue?, hcs, parseRadix?_mark hread, Text.word?_of_digits hne hread]

/-- No way to write a value has blanks in it. -/
theorem Spells.isBlank (h : r.Spells n cs) : ∀ c ∈ cs, Text.isBlank c = false := by
  intro c hc
  obtain ⟨zeros, digits, hdigits, hcs⟩ := h
  have hread := Text.digitsFrom?_padded r.one_lt_base r.base_le hdigits zeros
  by_cases hunderscore : c = '_'
  · rw [hunderscore]
    decide
  · have hmem : c ∈ cs.filter (· != '_') :=
      List.mem_filter.2 ⟨hc, bne_iff_ne.2 hunderscore⟩
    rw [hcs, List.mem_append] at hmem
    rcases hmem with hmem | hmem
    · have hmark : r.mark.all (!Text.isBlank ·) = true := by cases r <;> rfl
      simpa using List.all_eq_true.1 hmark c hmem
    · obtain ⟨d, hd⟩ := Text.exists_digit_of_mem hread hmem
      exact Text.isBlank_of_digit hd

end Radix

/-! ## Assignments -/

/-- The first `=` ends the name. -/
theorem parseAssignment_append {name value : String} (hname : '=' ∉ name.toList)
    (hnonempty : Text.trim name ≠ "") :
    parseAssignment (name ++ "=" ++ value) =
      match parseValue? (Text.trimChars value.toList) with
      | none => .error (.badValue (name ++ "=" ++ value))
      | some word => .ok (Text.trim name, word) := by
  have hcut : Text.cutChars? '=' (name ++ "=" ++ value).toList =
      some (name.toList, value.toList) := by
    have hsplit : (name ++ "=" ++ value).toList = name.toList ++ '=' :: value.toList := by simp
    rw [hsplit, Text.cutChars?_append hname]
  have hkept : (Text.trimChars name.toList).isEmpty = false := by
    rw [← Text.toList_trim, List.isEmpty_eq_false_iff]
    exact fun hnil => hnonempty (String.toList_eq_nil_iff.1 hnil)
  simp only [parseAssignment, hcut, hkept]
  rfl

/-- However the value is written and whatever blanks stand around it and around the name, an
assignment is read as the value for the trimmed name. A value that does not fit in a word is
refused. -/
theorem parseAssignment_spelled {r : Radix} {n : Nat} {name value : String}
    (hname : '=' ∉ name.toList) (hnonempty : Text.trim name ≠ "") (hvalue : r.Spells n value.toList)
    {b₁ b₂ b₃ b₄ : String} (h₁ : Text.Blank b₁) (h₂ : Text.Blank b₂) (h₃ : Text.Blank b₃)
    (h₄ : Text.Blank b₄) :
    let text := b₁ ++ name ++ b₂ ++ "=" ++ (b₃ ++ value ++ b₄)
    (∀ h : n < UInt64.size, parseAssignment text = .ok (Text.trim name, UInt64.ofNatLT n h)) ∧
    (UInt64.size ≤ n → parseAssignment text = .error (.badValue text)) := by
  intro text
  have htrimName : Text.trim (b₁ ++ name ++ b₂) = Text.trim name := by
    rw [Text.trim, Text.trim, String.toList_append, String.toList_append,
      Text.trimChars_surround h₁ h₂]
  have htrimValue : Text.trimChars (b₃ ++ value ++ b₄).toList = value.toList := by
    rw [String.toList_append, String.toList_append, Text.trimChars_surround h₃ h₄,
      Text.trimChars_eq_self hvalue.isBlank]
  have hbefore : '=' ∉ (b₁ ++ name ++ b₂).toList := by
    simp only [String.toList_append, List.mem_append, not_or]
    exact ⟨⟨h₁.not_mem rfl, hname⟩, h₂.not_mem rfl⟩
  have hparse : parseAssignment text = match parseValue? value.toList with
      | none => .error (.badValue text)
      | some word => .ok (Text.trim name, word) := by
    rw [parseAssignment_append hbefore (htrimName ▸ hnonempty), htrimName, htrimValue]
  rw [hparse, hvalue.parseValue?]
  constructor
  · intro h
    rw [if_pos h, UInt64.ofNatLT_eq_ofNat]
  · intro h
    rw [if_neg (Nat.not_lt.2 h)]

/-- The greatest word with zeros, letters of both cases and underscores, one of them within the
mark, and the number after it. -/
theorem parseAssignment_spelled_greatestWord :
    '=' ∉ "bus".toList ∧ Text.trim "bus" ≠ "" ∧
    Radix.hexadecimal.Spells (UInt64.size - 1) "0_x00FfFf_FFFFffff_FFFF_".toList ∧
    Radix.hexadecimal.Spells UInt64.size "0x1_0000_0000_0000_0000".toList ∧
    parseAssignment " bus\t=  0_x00FfFf_FFFFffff_FFFF_ " = .ok ("bus", 18446744073709551615) ∧
    parseAssignment " bus\t=  0x1_0000_0000_0000_0000 " =
      .error (.badValue " bus\t=  0x1_0000_0000_0000_0000 ") := by
  have hname : '=' ∉ "bus".toList := by decide
  have hnonempty : Text.trim "bus" ≠ "" := by decide
  have hgreatest : Radix.hexadecimal.Spells (UInt64.size - 1) "0_x00FfFf_FFFFffff_FFFF_".toList :=
    ⟨2, "FfFfFFFFffffFFFF".toList, by decide, by decide⟩
  have hnext : Radix.hexadecimal.Spells UInt64.size "0x1_0000_0000_0000_0000".toList :=
    ⟨0, "10000000000000000".toList, by decide, by decide⟩
  have hone : Text.Blank " " := by decide
  have htab : Text.Blank "\t" := by decide
  have htwo : Text.Blank "  " := by decide
  exact ⟨hname, hnonempty, hgreatest, hnext,
    (parseAssignment_spelled hname hnonempty hgreatest hone htab htwo hone).1 (by decide),
    (parseAssignment_spelled hname hnonempty hnext hone htab htwo hone).2 (by decide)⟩

end NandHdl
