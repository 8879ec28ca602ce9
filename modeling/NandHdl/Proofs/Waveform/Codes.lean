-- SUMMARY: Identifier codes of value change dumps: no two variables share one (`Vcd.code_injective`), and every nonempty text of printable characters is the code of some variable (`Vcd.code_enumerates`).
import NandHdl.Waveform.Vcd
import Mathlib.Data.List.Induction
import Mathlib.Data.Set.Function
import Mathlib.Tactic.Common

/-!
# Identifier codes

A code is a number in a notation without a zero: its digits stand for 1 to 94. Every positive number
has exactly one such notation, and the code of the variable at position `i` is that of `i + 1`. So
the codes go through all nonempty texts of these digits, shorter texts first.
-/

namespace NandHdl.Vcd

/-! ## Digits -/

theorem toNat_codeChar {d : Nat} (h : d < base) : (codeChar d).toNat = 33 + d := by
  have hbase : base = 94 := rfl
  have hvalid : (33 + d).isValidChar := Or.inl (by omega)
  show (Char.ofNat (33 + d)).toNat = 33 + d
  rw [Char.ofNat, dif_pos hvalid]
  rfl

theorem base_pos : 0 < base := by decide

/-- Induction on a position by the digits of its code: what is left of it without its last digit is
an earlier position. -/
theorem position_induction {motive : Nat → Prop}
    (last : ∀ index, index / base = 0 → motive index)
    (more : ∀ index, index / base ≠ 0 → motive (index / base - 1) → motive index) (index : Nat) :
    motive index := by
  induction index using Nat.strongRecOn with
  | ind index ih =>
    by_cases h : index / base = 0
    · exact last index h
    · have hlt : index / base - 1 < index :=
        Nat.lt_of_lt_of_le (Nat.sub_one_lt h) (Nat.div_le_self index base)
      exact more index h (ih _ hlt)

/-- The digit of a position, in front of those that follow. -/
theorem codeBefore_append (index : Nat) (tail rest : List Char) :
    codeBefore index (tail ++ rest) = codeBefore index tail ++ rest := by
  fun_induction codeBefore index tail with
  | case1 index tail chars h =>
    rw [codeBefore, dif_pos h]
    rfl
  | case2 index tail chars h hlt ih =>
    rw [codeBefore, dif_neg h]
    exact ih

theorem codeBefore_nil_of_lt {index : Nat} (h : index / base = 0) :
    codeBefore index [] = [codeChar (index % base)] := by
  rw [codeBefore, dif_pos h]

/-- The last digit of a code, and the code that is left without it. -/
theorem codeBefore_nil_of_le {index : Nat} (h : index / base ≠ 0) :
    codeBefore index [] = codeBefore (index / base - 1) [] ++ [codeChar (index % base)] := by
  rw [codeBefore, dif_neg h, ← codeBefore_append]
  rfl

/-! ## Codes as numbers -/

/-- The number that a code stands for. -/
def codeNumber (chars : List Char) : Nat := chars.foldl (fun n c => base * n + (c.toNat - 32)) 0

theorem codeNumber_append (chars : List Char) (c : Char) :
    codeNumber (chars ++ [c]) = base * codeNumber chars + (c.toNat - 32) := by
  rw [codeNumber, List.foldl_append]
  rfl

theorem codeNumber_codeBefore (index : Nat) : codeNumber (codeBefore index []) = index + 1 := by
  induction index using position_induction with
  | last index h =>
    have hmod := Nat.mod_lt index base_pos
    have hdiv := Nat.div_add_mod index base
    rw [h, Nat.mul_zero] at hdiv
    rw [codeBefore_nil_of_lt h, ← List.nil_append [_], codeNumber_append, toNat_codeChar hmod]
    change base * 0 + _ = _
    omega
  | more index h ih =>
    have hmod := Nat.mod_lt index base_pos
    have hdiv := Nat.div_add_mod index base
    rw [Nat.sub_add_cancel (Nat.one_le_iff_ne_zero.2 h)] at ih
    rw [codeBefore_nil_of_le h, codeNumber_append, toNat_codeChar hmod, ih]
    omega

/-- Different variables have different codes. -/
theorem code_injective : Function.Injective code := by
  intro i j h
  have hchars : codeBefore i [] = codeBefore j [] := String.ofList_injective h
  have hnumber := congrArg codeNumber hchars
  rw [codeNumber_codeBefore, codeNumber_codeBefore] at hnumber
  exact Nat.succ.inj hnumber

/-! ## Characters -/

/-- The characters of a code are printable, and none of them is a blank. -/
theorem mem_code {index : Nat} {c : Char} (h : c ∈ (code index).toList) :
    32 < c.toNat ∧ c.toNat < 127 := by
  rw [code, String.toList_ofList] at h
  have hbase : base = 94 := rfl
  have hdigit : ∀ i, c = codeChar (i % base) → 32 < c.toNat ∧ c.toNat < 127 := by
    rintro i rfl
    have hmod := Nat.mod_lt i base_pos
    rw [toNat_codeChar hmod]
    omega
  induction index using position_induction with
  | last index hsmall =>
    rw [codeBefore_nil_of_lt hsmall] at h
    exact hdigit index (List.mem_singleton.1 h)
  | more index hlarge ih =>
    rw [codeBefore_nil_of_le hlarge, List.mem_append] at h
    rcases h with h | h
    · exact ih h
    · exact hdigit index (List.mem_singleton.1 h)

theorem not_mem_code {index : Nat} {c : Char} (h : c.toNat ≤ 32) : c ∉ (code index).toList := by
  intro hc
  have := (mem_code hc).1
  omega

/-- The characters from the first digit to the last one. -/
theorem digit_range_iff {c : Char} : '!' ≤ c ∧ c ≤ '~' ↔ 32 < c.toNat ∧ c.toNat < 127 := by
  rw [Char.le_def, Char.le_def, UInt32.le_iff_toNat_le, UInt32.le_iff_toNat_le]
  change 33 ≤ c.toNat ∧ c.toNat ≤ 126 ↔ _
  omega

theorem codeChar_sub {c : Char} (h : 32 < c.toNat) : codeChar (c.toNat - 33) = c := by
  have hcode : '!'.toNat + (c.toNat - 33) = c.toNat := by
    change 33 + (c.toNat - 33) = c.toNat
    omega
  rw [codeChar, hcode, Char.ofNat_toNat]

/-! ## Texts as codes -/

/-- A text of digits is the code at the position before the number it stands for. -/
theorem codeBefore_codeNumber {chars : List Char} (hne : chars ≠ [])
    (h : ∀ c ∈ chars, 32 < c.toNat ∧ c.toNat < 127) :
    codeBefore (codeNumber chars - 1) [] = chars := by
  have hbase : base = 94 := rfl
  induction chars using List.reverseRecOn with
  | nil => exact absurd rfl hne
  | append_singleton init c ih =>
    obtain ⟨hlow, hhigh⟩ := h c (List.mem_append_right _ List.mem_cons_self)
    have hnumber : codeNumber (init ++ [c]) - 1 = base * codeNumber init + (c.toNat - 33) := by
      rw [codeNumber_append]
      omega
    have hdigit : c.toNat - 33 < base := by omega
    have hdiv : (codeNumber (init ++ [c]) - 1) / base = codeNumber init := by
      rw [hnumber, Nat.mul_add_div base_pos, Nat.div_eq_of_lt hdigit, Nat.add_zero]
    have hmod : (codeNumber (init ++ [c]) - 1) % base = c.toNat - 33 := by
      rw [hnumber, Nat.mul_add_mod, Nat.mod_eq_of_lt hdigit]
    by_cases hinit : init = []
    · subst hinit
      rw [codeBefore_nil_of_lt hdiv, hmod, codeChar_sub hlow, List.nil_append]
    · have hcode := ih hinit fun d hd => h d (List.mem_append_left _ hd)
      -- a code stands for the number after its position, so the number of `init` is not 0
      have hpos := codeNumber_codeBefore (codeNumber init - 1)
      rw [hcode] at hpos
      have hdiv_ne : (codeNumber (init ++ [c]) - 1) / base ≠ 0 := by omega
      rw [codeBefore_nil_of_le hdiv_ne, hdiv, hmod, hcode, codeChar_sub hlow]

/-! ## The order of codes -/

theorem length_codeBefore_pos (index : Nat) : 0 < (codeBefore index []).length := by
  induction index using position_induction with
  | last index h =>
    rw [codeBefore_nil_of_lt h]
    exact Nat.one_pos
  | more index h _ =>
    rw [codeBefore_nil_of_le h, List.length_append]
    exact Nat.succ_pos _

theorem length_codeBefore_mono {i j : Nat} (hij : i ≤ j) :
    (codeBefore i []).length ≤ (codeBefore j []).length := by
  induction i using position_induction generalizing j with
  | last i hi =>
    rw [codeBefore_nil_of_lt hi]
    exact length_codeBefore_pos j
  | more i hi ih =>
    have hdiv : i / base ≤ j / base := Nat.div_le_div_right hij
    have hj : j / base ≠ 0 := fun hj => hi (Nat.le_zero.1 (hj ▸ hdiv))
    have hinit := ih (Nat.sub_le_sub_right hdiv 1)
    rw [codeBefore_nil_of_le hi, codeBefore_nil_of_le hj, List.length_append, List.length_append]
    exact Nat.add_le_add_right hinit 1

/-! ## Rounds -/

/-- Writing the code of a position in front of `tail` ends with `chars` after a number of rounds. A
round writes one digit, and the next round goes on with what is left of the position. -/
inductive Writes : Nat → List Char → Nat → List Char → Prop
  | last {index : Nat} {tail : List Char} (h : index / base = 0) :
    Writes index tail 1 (codeChar (index % base) :: tail)
  | more {index rounds : Nat} {tail chars : List Char} (h : index / base ≠ 0)
    (rest : Writes (index / base - 1) (codeChar (index % base) :: tail) rounds chars) :
    Writes index tail (rounds + 1) chars

/-- From every position the rounds come to an end. -/
theorem exists_writes (index : Nat) (tail : List Char) :
    ∃ rounds, Writes index tail rounds (codeBefore index tail) := by
  fun_induction codeBefore index tail with
  | case1 index tail chars h => exact ⟨1, .last h⟩
  | case2 index tail chars h hlt ih =>
    obtain ⟨rounds, hrest⟩ := ih
    exact ⟨rounds + 1, .more h hrest⟩

theorem Writes.eq {index rounds : Nat} {tail chars : List Char}
    (h : Writes index tail rounds chars) :
    chars = codeBefore index tail ∧ chars.length = rounds + tail.length := by
  induction h with
  | @last index tail h =>
    rw [codeBefore, dif_pos h]
    exact ⟨rfl, Nat.add_comm ..⟩
  | @more index rounds tail chars h rest ih =>
    obtain ⟨hchars, hlength⟩ := ih
    rw [codeBefore, dif_neg h]
    refine ⟨hchars, ?_⟩
    rw [hlength, List.length_cons]
    omega

theorem writes_nil_iff {index rounds : Nat} {chars : List Char} :
    Writes index [] rounds chars ↔
      chars = (code index).toList ∧ rounds = (code index).length := by
  rw [← String.length_toList, code, String.toList_ofList]
  constructor
  · intro h
    obtain ⟨rfl, hlength⟩ := h.eq
    exact ⟨rfl, hlength.symm⟩
  · rintro ⟨rfl, rfl⟩
    obtain ⟨rounds, h⟩ := exists_writes index []
    exact h.eq.2 ▸ h

/-! ## The theorem -/

/-- Codes number the nonempty texts of the 94 characters from `!` to `~`: each of these texts is the
code of exactly one position. Writing a code ends from every position, with nothing but that code and
after one round for each of its characters. A later position never has a shorter code. -/
theorem code_enumerates :
    Set.BijOn code Set.univ {text | text ≠ "" ∧ ∀ c ∈ text.toList, '!' ≤ c ∧ c ≤ '~'} ∧
      (∀ index rounds chars, Writes index [] rounds chars ↔
        chars = (code index).toList ∧ rounds = (code index).length) ∧
      Monotone fun index => (code index).length := by
  refine ⟨⟨?mapsTo, code_injective.injOn, ?surjOn⟩, fun _ _ _ => writes_nil_iff, ?monotone⟩
  case mapsTo =>
    intro index _
    refine ⟨fun hempty => ?_, fun c hc => digit_range_iff.2 (mem_code hc)⟩
    have hpos := length_codeBefore_pos index
    rw [String.ofList_eq_empty_iff.1 hempty] at hpos
    exact absurd hpos (Nat.lt_irrefl 0)
  case surjOn =>
    rintro text ⟨hne, hdigits⟩
    refine ⟨codeNumber text.toList - 1, Set.mem_univ _, ?_⟩
    have hchars : text.toList ≠ [] := fun h => hne (String.toList_eq_nil_iff.1 h)
    rw [code, codeBefore_codeNumber hchars fun c hc => digit_range_iff.1 (hdigits c hc),
      String.ofList_toList]
  case monotone =>
    intro i j hij
    simp only [code, String.length_ofList]
    exact length_codeBefore_mono hij

/-- After the last code of one character comes the first one of two. -/
example : code 93 = "~" ∧ code 94 = "!!" := ⟨by cbv, by cbv⟩

end NandHdl.Vcd
