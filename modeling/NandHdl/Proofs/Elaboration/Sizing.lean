-- SUMMARY: What the inferred width of an expression is made up of (`Expr.width_le`), and how it changes if first outputs of width 0 count as one bit (`Program.raised`).
import NandHdl.Proofs.Elaboration.Instances
import NandHdl.Proofs.Renaming.Programs
import Mathlib.Algebra.Order.BigOperators.Group.List
import Mathlib.Algebra.Order.Group.Nat

/-!
# What makes up a width

The width of an expression is a sum over its parts. It depends on the widths of the names that stand
for whole parts (`Expr.sizing`) and on the modules that are called for whole parts
(`Expr.sizingCalls`), and it grows with each of them.

A port that is declared with width 0 gets one bit, also the first output of a module. The width that
is inferred for a call is the declared one.
-/

namespace NandHdl

mutual

/-- The callees whose widths make up the width of an expression. -/
def Expr.sizingCalls : Expr → List String
  | .call callee _ => [callee]
  | .concat parts => Expr.allSizingCalls parts
  | .number _ | .ident _ | .index _ _ | .slice _ _ _ | .member _ _ => []

/-- The callees whose widths make up the widths of several expressions. -/
def Expr.allSizingCalls : List Expr → List String
  | [] => []
  | e :: rest => e.sizingCalls ++ Expr.allSizingCalls rest

end

section

variable {s s' : Scope} {p p' : Program} {w w' : NameMap Nat}

theorem eq_of_forall₂_le {ws ws' : List Nat} (h : List.Forall₂ (· ≤ ·) ws ws')
    (h' : List.Forall₂ (· ≤ ·) ws' ws) : ws = ws' := by
  induction h with
  | nil => rfl
  | cons hle _ ih =>
    cases h' with
    | cons hge hrest => rw [Nat.le_antisymm hle hge, ih hrest]

mutual

/-- An expression is as wide as the names and calls that it is made up of. -/
theorem Expr.width_le : ∀ e : Expr, (∀ c ∈ e.sizingCalls, callWidth p c ≤ callWidth p' c) →
    (∀ r ∈ e.sizing, knownWidth s w r.text ≤ knownWidth s' w' r.text) →
      e.width s p w ≤ e.width s' p' w'
  | .number _, _, _ => Nat.le_refl _
  | .ident name, _, h => h { name } (List.mem_singleton_self _)
  | .index _ _, _, _ => Nat.le_refl _
  | .slice _ _ _, _, _ => Nat.le_refl _
  | .member (.ident name) field, _, h =>
    h { name, field := some field } (List.mem_singleton_self _)
  | .member (.number _) _, _, _ | .member (.index _ _) _, _, _ | .member (.slice _ _ _) _, _, _
  | .member (.member _ _) _, _, _ | .member (.concat _) _, _, _ | .member (.call _ _) _, _, _ =>
    Nat.le_refl _
  | .concat parts, hcalls, h => List.Forall₂.sum_le_sum (Expr.widths_le parts hcalls h)
  | .call callee _, hcalls, _ => hcalls callee (List.mem_singleton_self _)

/-- The same for several expressions. -/
theorem Expr.widths_le : ∀ es : List Expr,
    (∀ c ∈ Expr.allSizingCalls es, callWidth p c ≤ callWidth p' c) →
    (∀ r ∈ Expr.allSizing es, knownWidth s w r.text ≤ knownWidth s' w' r.text) →
      List.Forall₂ (· ≤ ·) (Expr.widths s p w es) (Expr.widths s' p' w' es)
  | [], _, _ => .nil
  | e :: rest, hcalls, h =>
    .cons
      (Expr.width_le e (fun c hc => hcalls c (List.mem_append_left _ hc))
        fun r hr => h r (List.mem_append_left _ hr))
      (Expr.widths_le rest (fun c hc => hcalls c (List.mem_append_right _ hc))
        fun r hr => h r (List.mem_append_right _ hr))

end

theorem Expr.widths_eq_of_sizing {es : List Expr}
    (hcalls : ∀ c ∈ Expr.allSizingCalls es, callWidth p c = callWidth p' c)
    (h : ∀ r ∈ Expr.allSizing es, knownWidth s w r.text = knownWidth s' w' r.text) :
    Expr.widths s p w es = Expr.widths s' p' w' es :=
  eq_of_forall₂_le
    (Expr.widths_le es (fun c hc => Nat.le_of_eq (hcalls c hc)) fun r hr => Nat.le_of_eq (h r hr))
    (Expr.widths_le es (fun c hc => Nat.le_of_eq (hcalls c hc).symm)
      fun r hr => Nat.le_of_eq (h r hr).symm)

mutual

/-- Where calls have at most gained width, an expression keeps its width exactly if each call that
makes it up does. -/
theorem Expr.width_eq_iff (hle : ∀ c, callWidth p c ≤ callWidth p' c) : ∀ e : Expr,
    e.width s p w = e.width s p' w ↔ ∀ c ∈ e.sizingCalls, callWidth p c = callWidth p' c
  | .number _ | .ident _ | .index _ _ | .slice _ _ _ => iff_of_true rfl nofun
  | .member (.ident _) _ | .member (.number _) _ | .member (.index _ _) _
  | .member (.slice _ _ _) _ | .member (.member _ _) _ | .member (.concat _) _
  | .member (.call _ _) _ => iff_of_true rfl nofun
  | .concat parts => Expr.sum_widths_eq_iff hle parts
  | .call callee _ =>
    ⟨fun h _ hc => List.mem_singleton.1 hc ▸ h, fun h => h callee (List.mem_singleton_self _)⟩

theorem Expr.sum_widths_eq_iff (hle : ∀ c, callWidth p c ≤ callWidth p' c) : ∀ es : List Expr,
    (Expr.widths s p w es).sum = (Expr.widths s p' w es).sum ↔
      ∀ c ∈ Expr.allSizingCalls es, callWidth p c = callWidth p' c
  | [] => iff_of_true rfl nofun
  | e :: rest => by
    have hfirst : e.width s p w ≤ e.width s p' w :=
      Expr.width_le e (fun c _ => hle c) fun _ _ => Nat.le_refl _
    have hrest : (Expr.widths s p w rest).sum ≤ (Expr.widths s p' w rest).sum :=
      List.Forall₂.sum_le_sum (Expr.widths_le rest (fun c _ => hle c) fun _ _ => Nat.le_refl _)
    rw [Expr.allSizingCalls, List.forall_mem_append, ← Expr.width_eq_iff hle e,
      ← Expr.sum_widths_eq_iff hle rest, Expr.widths, Expr.widths, List.sum_cons, List.sum_cons]
    omega

end

end

/-! ## First outputs without a width -/

/-- The module with at least one bit for each output. -/
def ModuleDecl.raised (m : ModuleDecl) : ModuleDecl :=
  { m with outputs := m.outputs.map fun out => { out with width := max 1 out.width } }

/-- The program with at least one bit for each output. -/
def Program.raised (p : Program) : Program := { modules := p.modules.map ModuleDecl.raised }

/-- The callee is a module whose first output is declared with width 0. -/
def Program.DeclaresEmpty (p : Program) (callee : String) : Prop :=
  isPrimitive callee = false ∧
    ∃ m out, p.find? callee = some m ∧ m.outputs.head? = some out ∧ out.width = 0

section

variable {p : Program} {callee : String}

theorem Program.find?_raised (p : Program) (name : String) :
    p.raised.find? name = (p.find? name).map ModuleDecl.raised := by
  rw [find?, raised, List.find?_map]
  rfl

theorem callWidth_of_primitive (h : isPrimitive callee = true) : callWidth p callee = 1 :=
  if_pos (isPrimitive_iff.1 h)

theorem callWidth_of_find? {m : ModuleDecl} (h : isPrimitive callee = false)
    (hfind : p.find? callee = some m) :
    callWidth p callee = (m.outputs.head?.map Port.width).getD 0 := by
  rw [callWidth, if_neg (not_or.2 (isPrimitive_eq_false.1 h)), hfind]

theorem callWidth_raised {m : ModuleDecl} (h : isPrimitive callee = false)
    (hfind : p.find? callee = some m) : callWidth p.raised callee = m.firstWidth := by
  have hraised : p.raised.find? callee = some m.raised := by rw [p.find?_raised, hfind]; rfl
  rw [callWidth_of_find? h hraised, ModuleDecl.firstWidth, ModuleDecl.raised]
  cases m.outputs <;> rfl

/-- No call loses width, and it gains some exactly if the first output was declared without. -/
theorem callWidth_le_raised (p : Program) (callee : String) :
    callWidth p callee ≤ callWidth p.raised callee ∧
      (callWidth p callee = callWidth p.raised callee ↔ ¬ p.DeclaresEmpty callee) := by
  cases hprimitive : isPrimitive callee with
  | true =>
    rw [callWidth_of_primitive hprimitive, callWidth_of_primitive hprimitive]
    refine ⟨Nat.le_refl _, iff_of_true rfl fun hempty => ?_⟩
    exact Bool.false_ne_true (hempty.1.symm.trans hprimitive)
  | false =>
    cases hfind : p.find? callee with
    | none =>
      have hraised : p.raised.find? callee = none := by rw [p.find?_raised, hfind]; rfl
      have hsame : callWidth p callee = callWidth p.raised callee := by
        rw [callWidth, callWidth, hfind, hraised]
      refine ⟨Nat.le_of_eq hsame, iff_of_true hsame ?_⟩
      rintro ⟨-, m, out, hm, -⟩
      exact absurd (hm.symm.trans hfind) (Option.some_ne_none m)
    | some m =>
      rw [callWidth_of_find? hprimitive hfind, callWidth_raised hprimitive hfind,
        ModuleDecl.firstWidth]
      have hempty : p.DeclaresEmpty callee ↔ ∃ out, m.outputs.head? = some out ∧ out.width = 0 := by
        simp [Program.DeclaresEmpty, hprimitive, hfind]
      rw [hempty]
      cases m.outputs.head? with
      | none => simp
      | some out =>
        simp only [Option.map_some, Option.getD_some, Option.some.injEq, exists_eq_left']
        omega

end

end NandHdl
