-- SUMMARY: A target that takes the result of a call is inferred to be as wide as the result (`callWidth_le_inferWidths`).
import NandHdl.Proofs.Elaboration.Names

/-!
# Inferred widths

No pass over the statements of a body narrows a target, and the width of a call does not depend on
what was inferred before. So the first pass gives the target of a call its width, and the target
keeps at least that width.
-/

namespace NandHdl

namespace WidthPass

variable {scope : Scope} {program : Program} {p : WidthPass} {s : Statement}
  {statements : List Statement} {name : String} {w width : Nat}

/-- The name has at least the given width. -/
def Covers (p : WidthPass) (name : String) (w : Nat) : Prop := w ≤ p.widths.getD name 0

theorem Covers.publish (h : p.Covers name w) {other : String} (hne : other ≠ name)
    (width : Nat) : (p.publish other width).Covers name w := by
  unfold Covers WidthPass.publish
  rw [Std.TreeMap.getD_insert, if_neg]
  · exact h
  · rw [Std.LawfulEqCmp.compare_eq_iff_eq]
    exact hne

theorem Covers.publishOutputs (h : p.Covers name w) (hname : PlainName name) (s : Statement) :
    (p.publishOutputs program s).Covers name w := by
  unfold WidthPass.publishOutputs
  split
  · split
    · next m _ =>
      generalize m.outputs.drop 1 = outputs
      induction outputs generalizing p with
      | nil => exact h
      | cons out rest ih => exact ih (h.publish (memberName_ne hname s.target out.name) out.width)
    · exact h
  · exact h

theorem Covers.widen (h : p.Covers name w) (target : String) (width : Nat) :
    (p.widen target width).Covers name w := by
  unfold WidthPass.widen
  split
  · next hwider =>
    unfold Covers
    rw [Std.TreeMap.getD_insert]
    split
    · next heq =>
      obtain rfl := Std.LawfulEqCmp.compare_eq_iff_eq.1 heq
      exact Nat.le_trans h (Nat.le_of_lt hwider)
    · exact h
  · exact h

theorem covers_widen (p : WidthPass) (target : String) (width : Nat) :
    (p.widen target width).Covers target width := by
  unfold WidthPass.widen Covers
  split
  · exact Nat.le_of_eq Std.TreeMap.getD_insert_self.symm
  · next hle => exact Nat.not_lt.1 hle

theorem Covers.statement (h : p.Covers name w) (hname : PlainName name) (s : Statement) :
    (WidthPass.statement scope program p s).Covers name w := by
  unfold WidthPass.statement
  simp only
  split
  · exact h.publishOutputs hname s
  · exact (h.publishOutputs hname s).widen _ _

theorem covers_statement {callee : String} {args : List Expr} (hport : scope.isPort s.target = false)
    (hcall : s.expr = .call callee args) :
    (WidthPass.statement scope program p s).Covers s.target (callWidth program callee) := by
  unfold WidthPass.statement
  simp only [hport, Bool.false_eq_true, if_false, hcall]
  exact Nat.le_trans (Nat.le_max_right 1 _) (covers_widen _ _ _)

theorem Covers.foldl (h : p.Covers name w) (hname : PlainName name) (statements : List Statement) :
    (statements.foldl (WidthPass.statement scope program) p).Covers name w := by
  induction statements generalizing p with
  | nil => exact h
  | cons s rest ih => exact ih (h.statement hname s)

theorem covers_run {callee : String} {args : List Expr} (hs : s ∈ statements)
    (hname : PlainName s.target) (hport : scope.isPort s.target = false)
    (hcall : s.expr = .call callee args) (widths : NameMap Nat) :
    (run scope program statements widths).Covers s.target (callWidth program callee) := by
  obtain ⟨before, after, rfl⟩ := List.append_of_mem hs
  unfold run
  rw [List.foldl_append, List.foldl_cons]
  exact (covers_statement hport hcall).foldl hname after

/-- What the first pass gives a name the others leave it. -/
theorem le_repeated (hname : PlainName name) (passes : Nat) {widths : NameMap Nat}
    (h : (run scope program statements widths).Covers name w) :
    w ≤ (repeated scope program statements (passes + 1) widths).getD name 0 := by
  induction passes generalizing widths with
  | zero =>
    unfold repeated
    simp only [repeated, ite_self]
    exact h
  | succ passes ih =>
    unfold repeated
    simp only
    split
    · apply ih
      apply Covers.foldl _ hname statements
      exact h
    · exact h

end WidthPass

theorem callWidth_le_inferWidths {scope : Scope} {program : Program} {statements : List Statement}
    {s : Statement} {callee : String} {args : List Expr} (hs : s ∈ statements)
    (hname : PlainName s.target) (hport : scope.isPort s.target = false)
    (hcall : s.expr = .call callee args) :
    callWidth program callee ≤ (inferWidths scope program statements).getD s.target 1 := by
  have hrun : callWidth program callee ≤ (inferWidths scope program statements).getD s.target 0 :=
    WidthPass.le_repeated hname _ (WidthPass.covers_run hs hname hport hcall {})
  rw [Std.TreeMap.getD_eq_getD_getElem?] at hrun ⊢
  cases hwidth : (inferWidths scope program statements)[s.target]? with
  | none =>
    rw [hwidth] at hrun
    exact Nat.le_trans hrun (Nat.zero_le 1)
  | some w =>
    rw [hwidth] at hrun
    exact hrun

end NandHdl
