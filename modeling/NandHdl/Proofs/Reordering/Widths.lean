-- SUMMARY: Width inference finds the same widths in whatever order the statements stand (`inferWidths_perm`), if no width depends on itself.
import NandHdl.Proofs.Elaboration.Sizing
import NandHdl.Proofs.Renaming.Widths
import Mathlib.Data.Finset.Card
import Mathlib.Data.Finset.Filter

/-!
# Widths in any order

A statement may read a target that stands below it, so one pass over the statements need not be
enough. A pass settles every target whose width depends on settled widths alone. Where no width
depends on itself, a target is settled after as many passes as there are targets that its width
depends on, and there are enough passes for that in every order.

What inference ends with is closed: each target is as wide as its statements ask. It is justified as
well: some statement asks for that width. Only one assignment of widths is both.
-/

namespace NandHdl

/-! ## Ranks -/

open Classical in
/-- A relation into a finite set that leads nowhere back to its start ranks the members of the
set. -/
theorem exists_rank_of_acyclic {α : Type} {r : α → α → Prop} (s : Finset α)
    (hmem : ∀ a b, r a b → b ∈ s) (hacyclic : ∀ a, ¬Relation.TransGen r a a) :
    ∃ rank : α → Nat, (∀ a b, r a b → rank b < rank a) ∧ ∀ a ∈ s, rank a < s.card := by
  refine ⟨fun a => (s.filter (Relation.TransGen r a)).card, fun a b hab => ?_, fun a ha => ?_⟩
  · refine Finset.card_lt_card ((Finset.ssubset_iff_of_subset ?_).2 ⟨b, ?_, ?_⟩)
    · intro c hc
      obtain ⟨hcs, hbc⟩ := Finset.mem_filter.1 hc
      exact Finset.mem_filter.2 ⟨hcs, .head hab hbc⟩
    · exact Finset.mem_filter.2 ⟨hmem a b hab, .single hab⟩
    · exact fun hb => hacyclic b (Finset.mem_filter.1 hb).2
  · refine Finset.card_lt_card ((Finset.ssubset_iff_of_subset (Finset.filter_subset _ _)).2 ?_)
    exact ⟨a, ha, fun ha' => hacyclic a (Finset.mem_filter.1 ha').2⟩

/-! ## Expressions -/

/-- A name that is not the name of a further output. -/
def Dotless (name : String) : Prop := '.' ∉ name.toList

section

variable {s s' : Scope} {p p' : Program} {w w' : NameMap Nat}

/-- An expression without calls of modules calls a primitive at most. -/
theorem Expr.callees_call {callee : String} {args : List Expr}
    (h : (Expr.call callee args).callees = []) :
    isPrimitive callee = true ∧ Expr.allCallees args = [] := by
  rw [Expr.callees] at h
  split at h
  · next hprimitive => exact ⟨hprimitive, h⟩
  · exact nomatch h

mutual

theorem Expr.sizingCalls_primitive : ∀ e : Expr, e.callees = [] →
    ∀ c ∈ e.sizingCalls, isPrimitive c = true
  | .concat parts, h, c, hc => Expr.allSizingCalls_primitive parts h c hc
  | .call _ _, h, _, hc => List.mem_singleton.1 hc ▸ (Expr.callees_call h).1

theorem Expr.allSizingCalls_primitive : ∀ es : List Expr, Expr.allCallees es = [] →
    ∀ c ∈ Expr.allSizingCalls es, isPrimitive c = true
  | e :: rest, h, c, hc => by
    obtain ⟨he, hrest⟩ := List.append_eq_nil_iff.1 h
    exact (List.mem_append.1 hc).elim (Expr.sizingCalls_primitive e he c)
      (Expr.allSizingCalls_primitive rest hrest c)

end

/-- No program is asked for the width of a primitive. -/
theorem callWidth_eq_of_primitive {callee : String} (h : isPrimitive callee = true) :
    callWidth p callee = callWidth p' callee := by
  rw [callWidth_of_primitive h, callWidth_of_primitive h]

/-- An expression is as wide as the names in it, and no program is asked. -/
theorem Expr.width_mono (e : Expr) (hcalls : e.callees = [])
    (h : ∀ r ∈ e.sizing, knownWidth s w r.text ≤ knownWidth s' w' r.text) :
    e.width s p w ≤ e.width s' p' w' :=
  Expr.width_le e (fun c hc => Nat.le_of_eq
    (callWidth_eq_of_primitive (Expr.sizingCalls_primitive e hcalls c hc))) h

theorem Expr.widths_congr {es : List Expr} (hcalls : Expr.allCallees es = [])
    (h : ∀ r ∈ Expr.allSizing es, knownWidth s w r.text = knownWidth s' w' r.text) :
    Expr.widths s p w es = Expr.widths s' p' w' es :=
  Expr.widths_eq_of_sizing
    (fun c hc => callWidth_eq_of_primitive (Expr.allSizingCalls_primitive es hcalls c hc)) h

theorem WidthPass.wanted_mono {e : Expr} (hcalls : e.callees = [])
    (h : ∀ r ∈ e.sizing, knownWidth s w r.text ≤ knownWidth s' w' r.text) :
    wanted s p w e ≤ wanted s' p' w' e := by
  have hwidth : e.width s p w ≤ e.width s' p' w' := Expr.width_mono e hcalls h
  cases e with
  | number _ => exact Nat.le_refl _
  | _ => exact max_le_max_left 1 hwidth

theorem WidthPass.wanted_congr {e : Expr} (hcalls : e.callees = [])
    (h : ∀ r ∈ e.sizing, knownWidth s w r.text = knownWidth s' w' r.text) :
    wanted s p w e = wanted s' p' w' e :=
  Nat.le_antisymm (wanted_mono hcalls fun r hr => Nat.le_of_eq (h r hr))
    (wanted_mono hcalls fun r hr => Nat.le_of_eq (h r hr).symm)

end

/-! ## Bodies -/

namespace Scope

/-- Statements that call primitives alone and ask for the widths of names alone. Their targets,
ports apart, are names of one bit to the scope. -/
structure Sizes (s : Scope) (statements : List Statement) : Prop where
  calls : ∀ t ∈ statements, t.expr.callees = []
  sizing : ∀ t ∈ statements, ∀ r ∈ t.expr.sizing, Dotless r.text
  target : ∀ t ∈ statements, s.isPort t.target = false → Dotless t.target ∧ s.widthOf t.target = 1

/-- The name is a target whose width is inferred. -/
def Infers (s : Scope) (statements : List Statement) (x : String) : Prop :=
  s.isPort x = false ∧ ∃ t ∈ statements, t.target = x

/-- The inferred width of `x` depends on that of `y`. -/
def SizedBy (s : Scope) (statements : List Statement) (x y : String) : Prop :=
  s.isPort x = false ∧ s.Infers statements y ∧
    ∃ t ∈ statements, t.target = x ∧ ∃ r ∈ t.expr.sizing, r.text = y

end Scope

namespace WidthPass

variable {s : Scope} {p : Program} {q : WidthPass} {w : NameMap Nat} {statements : List Statement}
  {x : String}

/-! ### One statement -/

theorem knownWidth_publish {object field : String} {width : Nat} (hx : Dotless x) :
    knownWidth s (q.publish (memberName object field) width).widths x =
      knownWidth s q.widths x := by
  have hne : memberName object field ≠ x := by
    rintro rfl
    exact hx (by simp [toList_memberName])
  rw [knownWidth, WidthPass.publish, Std.TreeMap.getD_insert, if_neg]
  · rfl
  · rwa [Std.LawfulEqCmp.compare_eq_iff_eq]

/-- Further outputs have no part in the widths of names. -/
theorem knownWidth_publishOutputs {t : Statement} (hx : Dotless x) :
    knownWidth s (q.publishOutputs p t).widths x = knownWidth s q.widths x := by
  rw [publishOutputs_eq]
  generalize furtherOutputs p t.expr = outs
  induction outs generalizing q with
  | nil => rfl
  | cons out rest ih => rw [List.foldl_cons, ih, knownWidth_publish hx]

/-- A name of one bit is at least as wide as it is widened to. -/
theorem knownWidth_widen {name : String} {width : Nat} (hname : s.widthOf name = 1)
    (hwidth : 0 < width) :
    knownWidth s (q.widen name width).widths x =
      if name = x then max (knownWidth s q.widths x) width else knownWidth s q.widths x := by
  unfold WidthPass.widen knownWidth
  by_cases hx : name = x
  · subst hx
    rw [if_pos rfl, hname]
    cases hfound : q.widths[name]? with
    | none =>
      have hzero : q.widths.getD name 0 = 0 := by
        rw [Std.TreeMap.getD_eq_getD_getElem?, hfound, Option.getD_none]
      have hone : q.widths.getD name 1 = 1 := by
        rw [Std.TreeMap.getD_eq_getD_getElem?, hfound, Option.getD_none]
      have hwider : width > q.widths.getD name 0 := hzero.symm ▸ hwidth
      rw [if_pos hwider, Std.TreeMap.getD_insert_self, hone, Nat.max_eq_right hwidth]
    | some known =>
      have hknown : ∀ fallback, q.widths.getD name fallback = known := by
        intro fallback
        rw [Std.TreeMap.getD_eq_getD_getElem?, hfound, Option.getD_some]
      rw [hknown, hknown]
      split
      · next hlt => rw [Std.TreeMap.getD_insert_self, Nat.max_eq_right (Nat.le_of_lt hlt)]
      · next hle => rw [hknown, Nat.max_eq_left (Nat.not_lt.1 hle)]
  · rw [if_neg hx]
    split
    · rw [Std.TreeMap.getD_insert, if_neg]
      rwa [Std.LawfulEqCmp.compare_eq_iff_eq]
    · rfl

section

variable (hs : s.Sizes statements)

include hs

/-- A statement widens its target to what it asks for, and does nothing else to names. -/
theorem knownWidth_statement {t : Statement} (ht : t ∈ statements) (hx : Dotless x) :
    knownWidth s (statement s p q t).widths x =
      if s.isPort t.target = false ∧ t.target = x then
        max (knownWidth s q.widths x) (wanted s p q.widths t.expr)
      else knownWidth s q.widths x := by
  have hwanted : wanted s p (q.publishOutputs p t).widths t.expr = wanted s p q.widths t.expr :=
    wanted_congr (hs.calls t ht) fun r hr => knownWidth_publishOutputs (hs.sizing t ht r hr)
  unfold statement
  dsimp only
  cases hport : s.isPort t.target with
  | true =>
    rw [if_pos rfl, if_neg (fun h => Bool.false_ne_true h.1.symm), knownWidth_publishOutputs hx]
  | false =>
    rw [if_neg Bool.false_ne_true, knownWidth_widen (hs.target t ht hport).2 (wanted_pos _),
      knownWidth_publishOutputs hx, hwanted]
    simp only [true_and]

/-- No statement narrows a name. -/
theorem le_statement {t : Statement} (ht : t ∈ statements) (hx : Dotless x) :
    knownWidth s q.widths x ≤ knownWidth s (statement s p q t).widths x := by
  rw [knownWidth_statement hs ht hx]
  split
  · exact Nat.le_max_left _ _
  · exact Nat.le_refl _

theorem le_foldl {part : List Statement} (hpart : ∀ t ∈ part, t ∈ statements) (hx : Dotless x) :
    knownWidth s q.widths x ≤ knownWidth s (part.foldl (statement s p) q).widths x := by
  induction part generalizing q with
  | nil => exact Nat.le_refl _
  | cons t rest ih =>
    rw [List.forall_mem_cons] at hpart
    exact Nat.le_trans (le_statement hs hpart.1 hx) (ih hpart.2)

/-! ### Closed widths -/

omit hs in
theorem changed_publishOutputs {t : Statement} (h : q.changed = true) :
    (q.publishOutputs p t).changed = true := by
  rw [publishOutputs_eq]
  generalize furtherOutputs p t.expr = outs
  induction outs generalizing q with
  | nil => exact h
  | cons out rest ih => exact ih (Bool.or_eq_true_iff.2 (.inl h))

/-- A statement that changes nothing asks for no more than there is. -/
theorem of_statement_unchanged {t : Statement} (ht : t ∈ statements)
    (h : (statement s p q t).changed = false) :
    q.changed = false ∧ (s.isPort t.target = false →
      wanted s p q.widths t.expr ≤ knownWidth s q.widths t.target) := by
  have hbefore : (q.publishOutputs p t).changed = false → q.changed = false := fun hfalse =>
    Bool.eq_false_iff.2 fun htrue => Bool.eq_false_iff.1 hfalse (changed_publishOutputs htrue)
  have hwanted : wanted s p (q.publishOutputs p t).widths t.expr = wanted s p q.widths t.expr :=
    wanted_congr (hs.calls t ht) fun r hr => knownWidth_publishOutputs (hs.sizing t ht r hr)
  unfold statement at h
  dsimp only at h
  cases hport : s.isPort t.target with
  | true =>
    rw [hport, if_pos rfl] at h
    exact ⟨hbefore h, nofun⟩
  | false =>
    rw [hport, if_neg Bool.false_ne_true, hwanted, WidthPass.widen] at h
    split at h
    · exact nomatch h
    · next hle =>
      refine ⟨hbefore h, fun _ => ?_⟩
      rw [← knownWidth_publishOutputs (p := p) (t := t) (hs.target t ht hport).1, knownWidth]
      refine Nat.le_trans (Nat.not_lt.1 hle) ?_
      rw [Std.TreeMap.getD_eq_getD_getElem?, Std.TreeMap.getD_eq_getD_getElem?]
      cases (q.publishOutputs p t).widths[t.target]? with
      | none => exact Nat.zero_le _
      | some _ => exact Nat.le_refl _

end

/-- The targets of low rank are as wide as their statements ask. -/
def ClosedBelow (s : Scope) (p : Program) (statements : List Statement) (rank : String → Nat)
    (bound : Nat) (w : NameMap Nat) : Prop :=
  ∀ t ∈ statements, s.isPort t.target = false → rank t.target < bound →
    wanted s p w t.expr ≤ knownWidth s w t.target

/-- All targets are as wide as their statements ask. -/
def Closed (s : Scope) (p : Program) (statements : List Statement) (w : NameMap Nat) : Prop :=
  ∀ t ∈ statements, s.isPort t.target = false →
    wanted s p w t.expr ≤ knownWidth s w t.target

/-- No target is wider than one of its statements asks. -/
def Justified (s : Scope) (p : Program) (statements : List Statement) (w : NameMap Nat) : Prop :=
  ∀ x, s.Infers statements x → ∃ t ∈ statements, t.target = x ∧
    knownWidth s w x ≤ wanted s p w t.expr

/-- A name that is no target of a width to infer, or one of low rank. -/
def Low (s : Scope) (statements : List Statement) (rank : String → Nat) (bound : Nat)
    (x : String) : Prop :=
  Dotless x ∧ (s.Infers statements x → rank x < bound)

section

variable {rank : String → Nat} {bound : Nat} (hs : s.Sizes statements)
  (hrank : ∀ x y, s.SizedBy statements x y → rank y < rank x)

include hs hrank

/-- What the width of a target depends on is of lower rank. -/
theorem low_sizing {t : Statement} (ht : t ∈ statements) (hport : s.isPort t.target = false)
    (hle : rank t.target ≤ bound) : ∀ r ∈ t.expr.sizing, Low s statements rank bound r.text := by
  intro r hr
  refine ⟨hs.sizing t ht r hr, fun hinfers => Nat.lt_of_lt_of_le (hrank _ _ ?_) hle⟩
  exact ⟨hport, hinfers, t, ht, rfl, r, hr, rfl⟩

/-- Low names keep their widths where they are closed. -/
theorem foldl_low (h : ClosedBelow s p statements rank bound w) {part : List Statement}
    (hpart : ∀ t ∈ part, t ∈ statements)
    (hq : ∀ x, Low s statements rank bound x → knownWidth s q.widths x = knownWidth s w x) :
    ∀ x, Low s statements rank bound x →
      knownWidth s (part.foldl (statement s p) q).widths x = knownWidth s w x := by
  induction part generalizing q with
  | nil => exact hq
  | cons t rest ih =>
    rw [List.forall_mem_cons] at hpart
    refine ih hpart.2 fun x hx => ?_
    rw [knownWidth_statement hs hpart.1 hx.1]
    split
    · next htarget =>
      obtain ⟨hport, rfl⟩ := htarget
      have hlt := hx.2 ⟨hport, t, hpart.1, rfl⟩
      have hwanted : wanted s p q.widths t.expr = wanted s p w t.expr :=
        wanted_congr (hs.calls t hpart.1) fun r hr =>
          hq r.text (low_sizing hs hrank hpart.1 hport (Nat.le_of_lt hlt) r hr)
      rw [hq _ hx, hwanted, Nat.max_eq_left (h t hpart.1 hport hlt)]
    · exact hq x hx

/-- A pass closes the targets of the next rank. -/
theorem closedBelow_run (h : ClosedBelow s p statements rank bound w) :
    ClosedBelow s p statements rank (bound + 1) (run s p statements w).widths := by
  intro t ht hport hlt
  have hlow := low_sizing hs hrank ht hport (Nat.le_of_lt_succ hlt)
  have hall := foldl_low (q := { widths := w }) hs hrank h (fun _ ht => ht) fun _ _ => rfl
  have hwanted : wanted s p (run s p statements w).widths t.expr = wanted s p w t.expr :=
    wanted_congr (hs.calls t ht) fun r hr => hall r.text (hlow r hr)
  rw [hwanted]
  obtain ⟨before, after, heq⟩ := List.append_of_mem ht
  have hmem : ∀ u, u ∈ before ∨ u ∈ after → u ∈ statements := by
    intro u hu
    rw [heq, List.mem_append, List.mem_cons]
    exact hu.imp_right .inr
  -- When the statement is met, what it reads has the width that it keeps.
  have hmet : ∀ q : WidthPass, (∀ r ∈ t.expr.sizing, knownWidth s q.widths r.text =
      knownWidth s w r.text) →
      wanted s p w t.expr ≤ knownWidth s (statement s p q t).widths t.target := by
    intro q hq
    have hsame : wanted s p q.widths t.expr = wanted s p w t.expr :=
      wanted_congr (hs.calls t ht) hq
    rw [knownWidth_statement hs ht (hs.target t ht hport).1, if_pos ⟨hport, rfl⟩, hsame]
    exact Nat.le_max_right _ _
  have hbefore := foldl_low (q := { widths := w }) hs hrank h (fun u hu => hmem u (.inl hu))
    fun _ _ => rfl
  have hrun : (run s p statements w).widths = (after.foldl (statement s p)
      (statement s p (before.foldl (statement s p) { widths := w }) t)).widths := by
    conv_lhs => rw [run, heq, List.foldl_append, List.foldl_cons]
  rw [hrun]
  exact Nat.le_trans (hmet _ fun r hr => hbefore r.text (hlow r hr))
    (le_foldl hs (fun u hu => hmem u (.inr hu)) (hs.target t ht hport).1)

end

section

variable (hs : s.Sizes statements)

include hs

/-- A pass that changes nothing finds all targets as wide as their statements ask. -/
theorem of_foldl_unchanged {part : List Statement} (hpart : ∀ t ∈ part, t ∈ statements)
    (h : (part.foldl (statement s p) q).changed = false) :
    q.changed = false ∧
      (∀ x, Dotless x →
        knownWidth s (part.foldl (statement s p) q).widths x = knownWidth s q.widths x) ∧
      ∀ t ∈ part, s.isPort t.target = false →
        wanted s p q.widths t.expr ≤ knownWidth s q.widths t.target := by
  induction part generalizing q with
  | nil => exact ⟨h, fun _ _ => rfl, nofun⟩
  | cons t rest ih =>
    rw [List.forall_mem_cons] at hpart
    obtain ⟨hfirst, hkept, hrest⟩ := ih hpart.2 h
    obtain ⟨hq, hwanted⟩ := of_statement_unchanged hs hpart.1 hfirst
    have hsame : ∀ x, Dotless x →
        knownWidth s (statement s p q t).widths x = knownWidth s q.widths x := by
      intro x hx
      rw [knownWidth_statement hs hpart.1 hx]
      split
      · next htarget =>
        obtain ⟨hport, rfl⟩ := htarget
        exact Nat.max_eq_left (hwanted hport)
      · rfl
    refine ⟨hq, fun x hx => (hkept x hx).trans (hsame x hx), ?_⟩
    refine List.forall_mem_cons.2 ⟨hwanted, fun u hu hport => ?_⟩
    have hu' := hpart.2 u hu
    have hasks : wanted s p (statement s p q t).widths u.expr = wanted s p q.widths u.expr :=
      wanted_congr (hs.calls u hu') fun r hr => hsame r.text (hs.sizing u hu' r hr)
    rw [← hasks, ← hsame _ (hs.target u hu' hport).1]
    exact hrest u hu hport

theorem closed_of_run_unchanged (h : (run s p statements w).changed = false) :
    Closed s p statements (run s p statements w).widths := by
  obtain ⟨-, hkept, hclosed⟩ := of_foldl_unchanged (q := { widths := w }) hs (fun _ ht => ht) h
  intro t ht hport
  have heq : wanted s p (run s p statements w).widths t.expr = wanted s p w t.expr :=
    wanted_congr (hs.calls t ht) fun r hr => hkept r.text (hs.sizing t ht r hr)
  rw [heq, run, hkept _ (hs.target t ht hport).1]
  exact hclosed t ht hport

/-- Whatever the passes start from, a target is as wide as some statement asks. -/
theorem justified_statement {t : Statement} (ht : t ∈ statements)
    (h : Justified s p statements q.widths) :
    Justified s p statements (statement s p q t).widths := by
  have hgrows : ∀ u ∈ statements,
      wanted s p q.widths u.expr ≤ wanted s p (statement s p q t).widths u.expr := fun u hu =>
    wanted_mono (hs.calls u hu) fun r hr => le_statement hs ht (hs.sizing u hu r hr)
  rintro x hx
  obtain ⟨hport, v, hv, rfl⟩ := hx
  rw [knownWidth_statement hs ht (hs.target v hv hport).1]
  obtain ⟨u, hu, htarget, hle⟩ := h _ ⟨hport, v, hv, rfl⟩
  split
  · next heq =>
    rcases max_choice (knownWidth s q.widths v.target) (wanted s p q.widths t.expr) with hmax | hmax
    · rw [hmax]
      exact ⟨u, hu, htarget, Nat.le_trans hle (hgrows u hu)⟩
    · rw [hmax]
      exact ⟨t, ht, heq.2, hgrows t ht⟩
  · exact ⟨u, hu, htarget, Nat.le_trans hle (hgrows u hu)⟩

theorem justified_run (h : Justified s p statements w) :
    Justified s p statements (run s p statements w).widths := by
  have hfoldl : ∀ {part : List Statement} {q : WidthPass}, (∀ t ∈ part, t ∈ statements) →
      Justified s p statements q.widths →
        Justified s p statements (part.foldl (statement s p) q).widths := by
    intro part
    induction part with
    | nil => exact fun _ hq => hq
    | cons t rest ih =>
      intro q hpart hq
      rw [List.forall_mem_cons] at hpart
      exact ih hpart.2 (justified_statement hs hpart.1 hq)
  exact hfoldl (fun _ ht => ht) h

theorem justified_repeated (passes : Nat) (h : Justified s p statements w) :
    Justified s p statements (repeated s p statements passes w) := by
  induction passes generalizing w with
  | zero => exact h
  | succ passes ih =>
    unfold repeated
    dsimp only
    split
    · exact ih (justified_run hs h)
    · exact justified_run hs h

end

section

variable {rank : String → Nat} (hs : s.Sizes statements)
  (hrank : ∀ x y, s.SizedBy statements x y → rank y < rank x)

include hs hrank

/-- Enough passes close all targets. -/
theorem closed_repeated (passes : Nat) {bound : Nat} (h : ClosedBelow s p statements rank bound w)
    (henough : ∀ t ∈ statements, s.isPort t.target = false → rank t.target < bound + passes) :
    Closed s p statements (repeated s p statements passes w) := by
  induction passes generalizing w bound with
  | zero => exact fun t ht hport => h t ht hport (henough t ht hport)
  | succ passes ih =>
    unfold repeated
    dsimp only
    split
    · refine ih (closedBelow_run hs hrank h) fun t ht hport => ?_
      rw [Nat.succ_add_eq_add_succ]
      exact henough t ht hport
    · next hchanged => exact closed_of_run_unchanged hs (Bool.eq_false_iff.2 hchanged)

/-- A name without a width to infer keeps the one that the scope knows. -/
theorem knownWidth_repeated (hx : Dotless x) (hinfers : ¬s.Infers statements x) (passes : Nat) :
    knownWidth s (repeated s p statements passes w) x = knownWidth s w x := by
  have hclosed : ∀ w, ClosedBelow s p statements rank 0 w := fun _ _ _ _ hlt =>
    absurd hlt (Nat.not_lt_zero _)
  have hrun : ∀ w, knownWidth s (run s p statements w).widths x = knownWidth s w x := fun w =>
    foldl_low (q := { widths := w }) hs hrank (hclosed w) (fun _ ht => ht) (fun _ _ => rfl) x
      ⟨hx, fun h => absurd h hinfers⟩
  induction passes generalizing w with
  | zero => rfl
  | succ passes ih =>
    unfold repeated
    dsimp only
    split
    · exact ih.trans (hrun w)
    · exact hrun w

/-- Justified widths are no larger than closed ones. -/
theorem justified_le_closed {p' : Program} {w' : NameMap Nat} (hw : Justified s p statements w)
    (hw' : Closed s p' statements w')
    (hother : ∀ x, Dotless x → ¬s.Infers statements x → knownWidth s w x = knownWidth s w' x) :
    ∀ x, s.Infers statements x → knownWidth s w x ≤ knownWidth s w' x := by
  intro x
  induction hk : rank x using Nat.strong_induction_on generalizing x with
  | _ k ih =>
    intro hx
    obtain ⟨t, ht, rfl, hle⟩ := hw x hx
    refine Nat.le_trans hle (Nat.le_trans (wanted_mono (hs.calls t ht) fun r hr => ?_)
      (hw' t ht hx.1))
    by_cases hinfers : s.Infers statements r.text
    · have hlt := hrank _ _ ⟨hx.1, hinfers, t, ht, rfl, r, hr, rfl⟩
      exact ih _ (hk ▸ hlt) r.text rfl hinfers
    · exact Nat.le_of_eq (hother _ (hs.sizing t ht r hr) hinfers)

end

end WidthPass

/-! ## Inference -/

namespace Scope

variable {s : Scope} {statements statements' : List Statement}

theorem Infers.perm (hperm : statements'.Perm statements) {x : String} :
    s.Infers statements' x ↔ s.Infers statements x := by
  simp only [Infers, hperm.mem_iff]

theorem Sizes.perm (hs : s.Sizes statements) (hperm : statements'.Perm statements) :
    s.Sizes statements' where
  calls t ht := hs.calls t (hperm.mem_iff.1 ht)
  sizing t ht := hs.sizing t (hperm.mem_iff.1 ht)
  target t ht := hs.target t (hperm.mem_iff.1 ht)

theorem SizedBy.perm (hperm : statements'.Perm statements) {x y : String} :
    s.SizedBy statements' x y ↔ s.SizedBy statements x y := by
  simp only [SizedBy, Infers.perm hperm, hperm.mem_iff]

/-- Where no width depends on itself, there are more statements than what a width depends on. -/
theorem exists_rank (statements : List Statement)
    (hacyclic : ∀ x, ¬Relation.TransGen (s.SizedBy statements) x x) :
    ∃ rank : String → Nat, (∀ x y, s.SizedBy statements x y → rank y < rank x) ∧
      ∀ t ∈ statements, rank t.target < statements.length := by
  have htargets : ∀ t ∈ statements, t.target ∈ (statements.map Statement.target).toFinset :=
    fun t ht => List.mem_toFinset.2 (List.mem_map_of_mem ht)
  obtain ⟨rank, hrank, hlt⟩ := exists_rank_of_acyclic
    (statements.map Statement.target).toFinset
    (by
      rintro x y ⟨-, ⟨-, t, ht, rfl⟩, -⟩
      exact htargets t ht) hacyclic
  refine ⟨rank, hrank, fun t ht => Nat.lt_of_lt_of_le (hlt _ (htargets t ht)) ?_⟩
  exact (List.toFinset_card_le _).trans_eq (List.length_map _)

end Scope

/-- What inference ends with is closed and justified. -/
theorem inferWidths_spec {s : Scope} {p : Program} {statements : List Statement}
    (hs : s.Sizes statements)
    (hacyclic : ∀ x, ¬Relation.TransGen (s.SizedBy statements) x x) :
    WidthPass.Closed s p statements (inferWidths s p statements) ∧
      WidthPass.Justified s p statements (inferWidths s p statements) ∧
      ∀ x, Dotless x → ¬s.Infers statements x →
        knownWidth s (inferWidths s p statements) x = s.widthOf x := by
  obtain ⟨rank, hrank, hlt⟩ := Scope.exists_rank statements hacyclic
  have hstart : WidthPass.ClosedBelow s p statements rank 0 {} := fun _ _ _ h =>
    absurd h (Nat.not_lt_zero _)
  refine ⟨?_, WidthPass.justified_repeated hs _ ?_, fun x hx hinfers => ?_⟩
  · refine WidthPass.closed_repeated hs hrank _ hstart fun t ht _ => ?_
    rw [Nat.zero_add]
    exact Nat.lt_succ_of_lt (hlt t ht)
  · rintro x ⟨hport, t, ht, rfl⟩
    refine ⟨t, ht, rfl, ?_⟩
    have hone : knownWidth s {} t.target = 1 := by
      rw [knownWidth, Std.TreeMap.getD_emptyc, (hs.target t ht hport).2]
    rw [hone]
    exact WidthPass.wanted_pos _
  · rw [inferWidths, WidthPass.knownWidth_repeated hs hrank hx hinfers, knownWidth,
      Std.TreeMap.getD_emptyc]

/-- Inference finds the same widths for a body and for its statements in another order. -/
theorem inferWidths_perm {s : Scope} {p p' : Program} {statements statements' : List Statement}
    (hs : s.Sizes statements) (hperm : statements'.Perm statements)
    (hacyclic : ∀ x, ¬Relation.TransGen (s.SizedBy statements) x x) {t : Statement}
    (ht : t ∈ statements) (hport : s.isPort t.target = false) :
    (inferWidths s p' statements').getD t.target 1 =
      (inferWidths s p statements).getD t.target 1 := by
  obtain ⟨rank, hrank, -⟩ := Scope.exists_rank statements hacyclic
  obtain ⟨hclosed, hjustified, hother⟩ := inferWidths_spec (p := p) hs hacyclic
  have hacyclic' : ∀ x, ¬Relation.TransGen (s.SizedBy statements') x x := by
    have heq : s.SizedBy statements' = s.SizedBy statements := by
      funext x y
      exact propext (Scope.SizedBy.perm hperm)
    exact heq ▸ hacyclic
  obtain ⟨hclosed', hjustified', hother'⟩ := inferWidths_spec (p := p') (hs.perm hperm) hacyclic'
  have hback : WidthPass.Closed s p' statements (inferWidths s p' statements') := fun u hu =>
    hclosed' u (hperm.mem_iff.2 hu)
  have hback' : WidthPass.Justified s p' statements (inferWidths s p' statements') := by
    intro x hx
    obtain ⟨u, hu, htarget, hle⟩ := hjustified' x ((Scope.Infers.perm hperm).2 hx)
    exact ⟨u, hperm.mem_iff.1 hu, htarget, hle⟩
  have hsame : ∀ x, Dotless x → ¬s.Infers statements x →
      knownWidth s (inferWidths s p statements) x = knownWidth s (inferWidths s p' statements') x :=
    fun x hx hinfers => (hother x hx hinfers).trans
      (hother' x hx ((Scope.Infers.perm hperm).not.2 hinfers)).symm
  have hinfers : s.Infers statements t.target := ⟨hport, t, ht, rfl⟩
  have heq : knownWidth s (inferWidths s p' statements') t.target =
      knownWidth s (inferWidths s p statements) t.target :=
    Nat.le_antisymm
      (WidthPass.justified_le_closed hs hrank hback' hclosed
        (fun x hx hx' => (hsame x hx hx').symm) _ hinfers)
      (WidthPass.justified_le_closed hs hrank hjustified hback hsame _ hinfers)
  rwa [knownWidth, knownWidth, (hs.target t ht hport).2] at heq

end NandHdl
