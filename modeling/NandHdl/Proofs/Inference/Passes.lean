-- SUMMARY: What a statement and a pass of width inference do to the widths found so far, and which widths no statement changes (`WidthPass.Settled`).
import NandHdl.Proofs.Reordering.Widths

/-!
# Passes of width inference

A statement gives the width of its target and of the further outputs of the module it calls. It sets
the width of a further output to the declared one, and widens its target to what its expression asks.

Widths are settled if no statement changes them. What an expression asks grows with the widths it
reads, so passes that start below settled widths stay below them. A name that has no width yet counts
as wide as it is in the scope. That is the width it keeps, unless a statement further down gives it
one: `Current` asks that the scope does not hold a larger width then.
-/

namespace NandHdl

namespace WidthPass

variable {s : Scope} {p : Program} {q v : WidthPass} {w w' : NameMap Nat}
  {statements part : List Statement} {t : Statement} {x : String} {k : Nat}

/-! ## What a statement gives -/

/-- The declared width under which a statement publishes a name, if it does. -/
def published (p : Program) (t : Statement) (x : String) : Option Nat :=
  (publishOutputs p {} t).widths[x]?

/-- The statement gives the width of the name: it is the target and no port, or a further output. -/
def Gives (s : Scope) (p : Program) (t : Statement) (x : String) : Prop :=
  (t.target = x ∧ s.isPort x = false) ∨ (published p t x).isSome = true

theorem getElem?_publishOutputs (q : WidthPass) :
    (q.publishOutputs p t).widths[x]? = (published p t x).or q.widths[x]? := by
  unfold published
  rw [publishOutputs_eq, publishOutputs_eq]
  generalize furtherOutputs p t.expr = outs
  induction outs generalizing q with
  | nil => simp
  | cons out rest ih =>
    rw [List.foldl_cons, List.foldl_cons, ih, ih (WidthPass.publish {} _ _), Option.or_assoc]
    congr 1
    simp only [publish, Std.TreeMap.getElem?_insert]
    split <;> simp

theorem isSome_published : (published p t x).isSome = true ↔
    ∃ out ∈ furtherOutputs p t.expr, memberName t.target out.name = x := by
  rw [published, publishOutputs_eq, ← Std.TreeMap.mem_iff_isSome_getElem?, mem_publishAll]
  exact or_iff_left Std.TreeMap.not_mem_emptyc

theorem mem_of_published (h : published p t x = some k) :
    ∃ out ∈ furtherOutputs p t.expr, memberName t.target out.name = x ∧ out.width = k := by
  have hfoldl : ∀ (outs : List Port) (q : WidthPass),
      (outs.foldl (fun q out => q.publish (memberName t.target out.name) out.width) q).widths[x]? =
        some k → q.widths[x]? = some k ∨
          ∃ out ∈ outs, memberName t.target out.name = x ∧ out.width = k := by
    intro outs
    induction outs with
    | nil => exact fun _ => .inl
    | cons out rest ih =>
      intro q hq
      rw [List.exists_mem_cons_iff]
      rcases ih _ hq with hfirst | hrest
      · simp only [publish, Std.TreeMap.getElem?_insert] at hfirst
        split at hfirst
        · next heq =>
          exact .inr (.inl ⟨Std.LawfulEqCmp.compare_eq_iff_eq.1 heq, Option.some.inj hfirst⟩)
        · exact .inl hfirst
      · exact .inr (.inr hrest)
  rw [published, publishOutputs_eq] at h
  refine (hfoldl _ _ h).resolve_left fun hnone => Option.some_ne_none k ?_
  exact hnone.symm.trans Std.TreeMap.getElem?_emptyc

theorem memberName_ne_self (object field : String) : memberName object field ≠ object := by
  intro h
  have hlength := congrArg String.length h
  have hdot : ".".length = 1 := rfl
  simp only [memberName, String.length_append] at hlength
  omega

/-- A statement does not publish its own target. -/
theorem published_target : published p t t.target = none := by
  rw [← Option.not_isSome_iff_eq_none, isSome_published]
  rintro ⟨out, -, heq⟩
  exact memberName_ne_self _ _ heq

/-- What a statement asks for its target does not depend on what it publishes. -/
theorem wanted_publishOutputs (q : WidthPass) :
    wanted s p (q.publishOutputs p t).widths t.expr = wanted s p q.widths t.expr := by
  cases hexpr : t.expr with
  | call callee args => rfl
  | _ => rw [publishOutputs, hexpr]

theorem getElem?_widen {width : Nat} (hwidth : 0 < width) {name : String} :
    (q.widen name width).widths[x]? =
      if name = x then some (max (q.widths.getD name 0) width) else q.widths[x]? := by
  unfold widen
  split
  · next hlt =>
    rw [Std.TreeMap.getElem?_insert]
    simp only [Std.LawfulEqCmp.compare_eq_iff_eq, Nat.max_eq_right (Nat.le_of_lt hlt)]
  · next hle =>
    rw [Nat.max_eq_left (Nat.not_lt.1 hle)]
    split
    · next heq =>
      subst heq
      rw [Std.TreeMap.getD_eq_getD_getElem?] at hle ⊢
      cases hfound : q.widths[name]? with
      | none => exact absurd hwidth (by simpa [hfound] using hle)
      | some width => rfl
    · rfl

/-- A statement sets what it publishes, widens its target if that is no port, and does nothing
else. -/
theorem getElem?_statement (q : WidthPass) :
    (statement s p q t).widths[x]? =
      if t.target = x ∧ s.isPort x = false then
        some (max (q.widths.getD x 0) (wanted s p q.widths t.expr))
      else (published p t x).or q.widths[x]? := by
  unfold statement
  dsimp only
  rw [wanted_publishOutputs]
  by_cases hport : s.isPort t.target = true
  · rw [if_pos hport, if_neg, getElem?_publishOutputs]
    rintro ⟨rfl, hport'⟩
    exact Bool.false_ne_true (hport'.symm.trans hport)
  · rw [if_neg hport, getElem?_widen (wanted_pos _), getElem?_publishOutputs]
    have hother : (t.target = x ∧ s.isPort x = false) ↔ t.target = x :=
      and_iff_left_of_imp fun heq => heq ▸ Bool.not_eq_true _ ▸ hport
    simp only [hother]
    split
    · next heq =>
      subst heq
      rw [Std.TreeMap.getD_eq_getD_getElem?, getElem?_publishOutputs, published_target,
        Option.none_or, ← Std.TreeMap.getD_eq_getD_getElem?]
    · rfl

theorem mem_statement_iff (q : WidthPass) :
    x ∈ (statement s p q t).widths ↔ Gives s p t x ∨ x ∈ q.widths := by
  rw [Std.TreeMap.mem_iff_isSome_getElem?, getElem?_statement, Gives]
  split
  · next htarget => exact iff_of_true rfl (.inl (.inl htarget))
  · next htarget =>
    rw [Option.isSome_or, Bool.or_eq_true, ← Std.TreeMap.mem_iff_isSome_getElem?]
    exact or_congr_left (or_iff_right htarget).symm

theorem mem_foldl_iff : x ∈ (part.foldl (statement s p) q).widths ↔
    (∃ t ∈ part, Gives s p t x) ∨ x ∈ q.widths := by
  induction part generalizing q with
  | nil => simp
  | cons t rest ih =>
    rw [List.foldl_cons, ih, mem_statement_iff, List.exists_mem_cons_iff, or_left_comm, or_assoc]

/-! ## What an expression asks -/

theorem wanted_le {e : Expr}
    (h : ∀ r ∈ e.sizing, knownWidth s w r.text ≤ knownWidth s w' r.text) :
    wanted s p w e ≤ wanted s p w' e := by
  have hwidth : e.width s p w ≤ e.width s p w' := Expr.width_le e (fun _ _ => Nat.le_refl _) h
  cases e with
  | number _ => exact Nat.le_refl _
  | _ => exact max_le_max_left 1 hwidth

theorem wanted_eq {e : Expr}
    (h : ∀ r ∈ e.sizing, knownWidth s w r.text = knownWidth s w' r.text) :
    wanted s p w e = wanted s p w' e :=
  Nat.le_antisymm (wanted_le fun r hr => Nat.le_of_eq (h r hr))
    (wanted_le fun r hr => Nat.le_of_eq (h r hr).symm)

/-! ## Widths below others -/

/-- Every width of the first map is known to the second, and is no larger there. -/
def Narrower (w w' : NameMap Nat) : Prop :=
  ∀ (x : String) (k : Nat), w[x]? = some k → ∃ k', w'[x]? = some k' ∧ k ≤ k'

theorem Narrower.refl (w : NameMap Nat) : Narrower w w := fun _ k h => ⟨k, h, Nat.le_refl k⟩

theorem Narrower.trans {w'' : NameMap Nat} (h : Narrower w w') (h' : Narrower w' w'') :
    Narrower w w'' := by
  intro x k hk
  obtain ⟨k', hk', hle⟩ := h x k hk
  obtain ⟨k'', hk'', hle'⟩ := h' x k' hk'
  exact ⟨k'', hk'', Nat.le_trans hle hle'⟩

theorem Narrower.of_eq (h : ∀ x : String, w[x]? = w'[x]?) : Narrower w w' := fun x k hk =>
  ⟨k, h x ▸ hk, Nat.le_refl k⟩

theorem Narrower.mem (h : Narrower w w') (hx : x ∈ w) : x ∈ w' := by
  obtain ⟨k, hk⟩ := Option.isSome_iff_exists.1 (Std.TreeMap.mem_iff_isSome_getElem?.1 hx)
  obtain ⟨k', hk', -⟩ := h x k hk
  exact Std.TreeMap.mem_iff_isSome_getElem?.2 (hk' ▸ rfl)

theorem Narrower.getD_le (h : Narrower w w') (x : String) : w.getD x 0 ≤ w'.getD x 0 := by
  rw [Std.TreeMap.getD_eq_getD_getElem?, Std.TreeMap.getD_eq_getD_getElem?]
  cases hk : w[x]? with
  | none => exact Nat.zero_le _
  | some k =>
    obtain ⟨k', hk', hle⟩ := h x k hk
    rw [hk']
    exact hle

/-- What lies between two maps that agree on a name agrees with them. -/
theorem Narrower.squeeze {w'' : NameMap Nat} (h : Narrower w w') (h' : Narrower w' w'')
    (heq : w[x]? = w''[x]?) : w'[x]? = w''[x]? := by
  cases hk : w'[x]? with
  | some k =>
    obtain ⟨k', hk', hle⟩ := h' x k hk
    obtain ⟨k'', hk'', hge⟩ := h x k' (heq.trans hk')
    obtain rfl := Option.some.inj (hk.symm.trans hk'')
    rw [hk', Nat.le_antisymm hle hge]
  | none =>
    cases hk'' : w''[x]? with
    | none => rfl
    | some k'' =>
      obtain ⟨k', hk', -⟩ := h x k'' (heq.trans hk'')
      exact nomatch hk.symm.trans hk'

theorem Narrower.antisymm (h : Narrower w w') (h' : Narrower w' w) (x : String) :
    w[x]? = w'[x]? :=
  (h.squeeze h' rfl).symm

theorem knownWidth_congr (h : w[x]? = w'[x]?) : knownWidth s w x = knownWidth s w' x := by
  rw [knownWidth, knownWidth, Std.TreeMap.getD_eq_getD_getElem?, h,
    Std.TreeMap.getD_eq_getD_getElem?]

theorem knownWidth_of_getElem? (h : w[x]? = some k) : knownWidth s w x = k := by
  rw [knownWidth, Std.TreeMap.getD_eq_getD_getElem?, h, Option.getD_some]

theorem knownWidth_of_mem (h : x ∈ w) : knownWidth s w x = w.getD x 0 := by
  obtain ⟨k, hk⟩ := Option.isSome_iff_exists.1 (Std.TreeMap.mem_iff_isSome_getElem?.1 h)
  rw [knownWidth_of_getElem? hk, Std.TreeMap.getD_eq_getD_getElem?, hk, Option.getD_some]

theorem knownWidth_of_not_mem (h : x ∉ w) : knownWidth s w x = s.widthOf x :=
  Std.TreeMap.getD_eq_fallback h

/-- A name without a width so far counts as wide as it is in the scope. -/
theorem Narrower.knownWidth_le (h : Narrower w w')
    (hx : x ∉ w → s.widthOf x ≤ knownWidth s w' x) : knownWidth s w x ≤ knownWidth s w' x := by
  by_cases hmem : x ∈ w
  · obtain ⟨k, hk⟩ := Option.isSome_iff_exists.1 (Std.TreeMap.mem_iff_isSome_getElem?.1 hmem)
    obtain ⟨k', hk', hle⟩ := h x k hk
    rwa [knownWidth_of_getElem? hk, knownWidth_of_getElem? hk']
  · rw [knownWidth_of_not_mem hmem]
    exact hx hmem

/-! ## Passes that agree outside some names -/

/-- The same widths, except for some names. -/
def AgreeOff (G : String → Prop) (w w' : NameMap Nat) : Prop := ∀ x : String, ¬G x → w[x]? = w'[x]?

variable {G : String → Prop}

theorem AgreeOff.statement (h : AgreeOff G q.widths v.widths)
    (hread : ∀ r ∈ t.expr.sizing, ¬G r.text) :
    AgreeOff G (statement s p q t).widths (statement s p v t).widths := by
  intro x hx
  have hwanted : wanted s p q.widths t.expr = wanted s p v.widths t.expr :=
    wanted_eq fun r hr => knownWidth_congr (h _ (hread r hr))
  rw [getElem?_statement, getElem?_statement, Std.TreeMap.getD_eq_getD_getElem?,
    Std.TreeMap.getD_eq_getD_getElem?, h x hx, hwanted]

theorem AgreeOff.foldl (h : AgreeOff G q.widths v.widths)
    (hread : ∀ t ∈ part, ∀ r ∈ t.expr.sizing, ¬G r.text) :
    AgreeOff G (part.foldl (WidthPass.statement s p) q).widths
      (part.foldl (WidthPass.statement s p) v).widths := by
  induction part generalizing q v with
  | nil => exact h
  | cons t rest ih =>
    rw [List.forall_mem_cons] at hread
    exact ih (h.statement hread.1) hread.2

/-- A statement changes the widths that it gives, and no others. -/
theorem agreeOff_statement (q : WidthPass) :
    AgreeOff (Gives s p t) (statement s p q t).widths q.widths := by
  intro x hx
  obtain ⟨htarget, hpublished⟩ := not_or.1 hx
  rw [getElem?_statement, if_neg htarget, Option.not_isSome_iff_eq_none.1 hpublished,
    Option.none_or]

/-- A statement finds the same widths from the same widths. -/
theorem statement_congr (h : ∀ x : String, q.widths[x]? = v.widths[x]?) (x : String) :
    (statement s p q t).widths[x]? = (statement s p v t).widths[x]? :=
  AgreeOff.statement (G := fun _ => False) (fun x _ => h x) (fun _ _ => not_false) x not_false

/-- A statement that gives names nobody reads makes no difference to the other names. -/
theorem agreeOff_run_insert {before after : List Statement} {f : Statement}
    (hread : ∀ t ∈ before ++ after, ∀ r ∈ t.expr.sizing, ¬Gives s p f r.text)
    (h : AgreeOff (Gives s p f) w w') :
    AgreeOff (Gives s p f) (run s p (before ++ f :: after) w).widths
      (run s p (before ++ after) w').widths := by
  rw [List.forall_mem_append] at hread
  rw [run, run, List.foldl_append, List.foldl_append, List.foldl_cons]
  refine AgreeOff.foldl (fun x hx => ?_) hread.2
  rw [agreeOff_statement _ x hx]
  exact AgreeOff.foldl (q := { widths := w }) (v := { widths := w' }) h hread.1 x hx

/-! ## Settled widths -/

/-- The widths of names that the statements give, such that no statement changes them. -/
structure Settled (s : Scope) (p : Program) (statements : List Statement) (w : NameMap Nat) :
    Prop where
  given : ∀ x ∈ w, ∃ t ∈ statements, Gives s p t x
  kept : ∀ t ∈ statements, ∀ x : String, (statement s p { widths := w } t).widths[x]? = w[x]?

instance (s : Scope) (p : Program) (t : Statement) (x : String) : Decidable (Gives s p t x) :=
  inferInstanceAs (Decidable (_ ∨ _))

/-- Where a statement reads a name above the statements that give its width, the scope holds no
larger one. -/
def Current (s : Scope) (p : Program) (statements : List Statement) (w : NameMap Nat) : Prop :=
  ∀ before t after, statements = before ++ t :: after → s.isPort t.target = false →
    ∀ r ∈ t.expr.sizing, (∀ u ∈ before, ¬Gives s p u r.text) →
      s.widthOf r.text ≤ knownWidth s w r.text

namespace Settled

variable (hw : Settled s p statements w)

include hw

theorem mem (ht : t ∈ statements) (h : Gives s p t x) : x ∈ w := by
  rw [Std.TreeMap.mem_iff_isSome_getElem?, ← hw.kept t ht, ← Std.TreeMap.mem_iff_isSome_getElem?]
  exact (mem_statement_iff _).2 (.inl h)

theorem getElem?_published (ht : t ∈ statements) (h : published p t x = some k) :
    w[x]? = some k := by
  have hx := hw.kept t ht x
  rw [getElem?_statement, h, if_neg] at hx
  · exact hx.symm
  · rintro ⟨rfl, -⟩
    exact nomatch published_target.symm.trans h

theorem wanted_le_getD (ht : t ∈ statements) (hport : s.isPort t.target = false) :
    wanted s p w t.expr ≤ w.getD t.target 0 := by
  have hx := hw.kept t ht t.target
  rw [getElem?_statement, if_pos ⟨rfl, hport⟩] at hx
  rw [Std.TreeMap.getD_eq_getD_getElem?, ← hx]
  exact Nat.le_max_right _ _

omit hw in
/-- Widths are settled if each statement has published what it declares and finds its target wide
enough. -/
theorem iff_forall : Settled s p statements w ↔
    (∀ x ∈ w.keys, ∃ t ∈ statements, Gives s p t x) ∧
      ∀ t ∈ statements,
        (∀ out ∈ furtherOutputs p t.expr,
          w[memberName t.target out.name]? = published p t (memberName t.target out.name)) ∧
        (s.isPort t.target = false → wanted s p w t.expr ≤ w.getD t.target 0) := by
  constructor
  · intro hw
    refine ⟨fun x hx => hw.given x (Std.TreeMap.mem_keys.1 hx), fun t ht => ⟨fun out hout => ?_,
      hw.wanted_le_getD ht⟩⟩
    obtain ⟨k, hk⟩ := Option.isSome_iff_exists.1 (isSome_published.2 ⟨out, hout, rfl⟩)
    rw [hw.getElem?_published ht hk, hk]
  · rintro ⟨hgiven, hall⟩
    refine ⟨fun x hx => hgiven x (Std.TreeMap.mem_keys.2 hx), fun t ht x => ?_⟩
    obtain ⟨hpublished, hwanted⟩ := hall t ht
    rw [getElem?_statement]
    split
    · next htarget =>
      obtain ⟨rfl, hport⟩ := htarget
      have hle := hwanted hport
      have hpos := Nat.lt_of_lt_of_le (wanted_pos _) hle
      rw [Nat.max_eq_left hle]
      rw [Std.TreeMap.getD_eq_getD_getElem?] at hpos ⊢
      cases hk : w[t.target]? with
      | some k => rfl
      | none => exact absurd hpos (by rw [hk]; exact Nat.lt_irrefl 0)
    · cases hk : published p t x with
      | none => rfl
      | some k =>
        obtain ⟨out, hout, rfl⟩ := isSome_published.1 (hk ▸ rfl : (published p t x).isSome = true)
        rw [hpublished out hout, hk, Option.some_or]

instance (s : Scope) (p : Program) (statements : List Statement) (w : NameMap Nat) :
    Decidable (Settled s p statements w) :=
  decidable_of_iff _ iff_forall.symm

/-- Widths with the same entries are settled alike. -/
theorem congr (h : ∀ x : String, w'[x]? = w[x]?) : Settled s p statements w' := by
  refine ⟨fun x hx => hw.given x ?_, fun t ht x => ?_⟩
  · rwa [Std.TreeMap.mem_iff_isSome_getElem?, ← h, ← Std.TreeMap.mem_iff_isSome_getElem?]
  · rw [h, ← hw.kept t ht x]
    exact statement_congr (q := { widths := w' }) h x

/-- Where the scope has no bus among the names that the statements give, and no further output is
declared with width 0, all settled widths are current. -/
theorem current (hscope : ∀ t ∈ statements, ∀ x, Gives s p t x → s.widthOf x ≤ 1)
    (houts : ∀ t ∈ statements, ∀ out ∈ furtherOutputs p t.expr, 0 < out.width) :
    Current s p statements w := by
  intro before t after hsplit hport r hr _
  by_cases hx : r.text ∈ w
  · obtain ⟨u, hu, hgives⟩ := hw.given _ hx
    refine Nat.le_trans (hscope u hu _ hgives) ?_
    rw [knownWidth_of_mem hx]
    rcases hgives with ⟨htarget, hport⟩ | hpublished
    · rw [← htarget] at hport ⊢
      exact Nat.le_trans (wanted_pos _) (hw.wanted_le_getD hu hport)
    · obtain ⟨k, hk⟩ := Option.isSome_iff_exists.1 hpublished
      obtain ⟨out, hout, -, rfl⟩ := mem_of_published hk
      rw [Std.TreeMap.getD_eq_getD_getElem?, hw.getElem?_published hu hk]
      exact houts u hu out hout
  · rw [knownWidth_of_not_mem hx]

/-- A statement that asks no more than settled widths ask stays below them. -/
theorem statement_le (ht : t ∈ statements) (h : Narrower q.widths w)
    (hwanted : s.isPort t.target = false → wanted s p q.widths t.expr ≤ wanted s p w t.expr) :
    Narrower (statement s p q t).widths w := by
  intro x k hk
  rw [getElem?_statement] at hk
  split at hk
  · next htarget =>
    obtain ⟨rfl, hport⟩ := htarget
    have hmem : t.target ∈ w := hw.mem ht (.inl ⟨rfl, hport⟩)
    obtain ⟨k', hk'⟩ := Option.isSome_iff_exists.1 (Std.TreeMap.mem_iff_isSome_getElem?.1 hmem)
    have hgetD : w.getD t.target 0 = k' := by
      rw [Std.TreeMap.getD_eq_getD_getElem?, hk', Option.getD_some]
    have hasked := Nat.le_trans (hwanted hport) (hw.wanted_le_getD ht hport)
    refine ⟨k', hk', ?_⟩
    rw [← Option.some.inj hk, ← hgetD]
    exact Nat.max_le.2 ⟨h.getD_le _, hasked⟩
  · rcases Option.or_eq_some_iff.1 hk with hpublished | ⟨-, hfound⟩
    · exact ⟨k, hw.getElem?_published ht hpublished, Nat.le_refl k⟩
    · exact h x k hfound

/-- Below settled widths no statement narrows a name. -/
theorem le_statement (ht : t ∈ statements) (h : Narrower q.widths w) :
    Narrower q.widths (statement s p q t).widths := by
  intro x k hk
  rw [getElem?_statement]
  split
  · refine ⟨_, rfl, Nat.le_trans (Nat.le_of_eq ?_) (Nat.le_max_left _ _)⟩
    rw [Std.TreeMap.getD_eq_getD_getElem?, hk, Option.getD_some]
  · cases hpublished : published p t x with
    | none => exact ⟨k, hk, Nat.le_refl k⟩
    | some width =>
      obtain ⟨k', hk', hle⟩ := h x k hk
      obtain rfl := Option.some.inj ((hw.getElem?_published ht hpublished).symm.trans hk')
      exact ⟨_, rfl, hle⟩

end Settled

/-- Widths that are read below settled ones are no larger than those. -/
theorem Current.knownWidth_le {before after : List Statement} (hc : Current s p statements w)
    (hsplit : statements = before ++ t :: after) (hport : s.isPort t.target = false)
    (hgiven : ∀ u ∈ before, ∀ x, Gives s p u x → x ∈ q.widths) (h : Narrower q.widths w) :
    ∀ r ∈ t.expr.sizing, knownWidth s q.widths r.text ≤ knownWidth s w r.text := fun r hr =>
  h.knownWidth_le fun hmem =>
    hc before t after hsplit hport r hr fun u hu hgives => hmem (hgiven u hu _ hgives)

/-! ## The course of a pass -/

/-- What keeps over the statements of a pass holds at its end. -/
theorem run_induction {I : List Statement → WidthPass → Prop} (h : I [] { widths := w })
    (hstep : ∀ before t after q, statements = before ++ t :: after → I before q →
      I (before ++ [t]) (statement s p q t)) : I statements (run s p statements w) := by
  have hfoldl : ∀ part before q, statements = before ++ part → I before q →
      I statements (part.foldl (statement s p) q) := by
    intro part
    induction part with
    | nil =>
      intro before q hsplit hq
      rwa [hsplit, List.append_nil]
    | cons t rest ih =>
      intro before q hsplit hq
      refine ih (before ++ [t]) _ ?_ (hstep before t rest q hsplit hq)
      rw [hsplit, List.append_assoc, List.singleton_append]
  exact hfoldl statements [] _ (List.nil_append _).symm h

/-- A pass from `w` below the settled widths `w'`, after the statements `before`. It has met each of
them at widths in between. -/
structure Course (s : Scope) (p : Program) (w w' : NameMap Nat) (before : List Statement)
    (q : WidthPass) : Prop where
  grows : Narrower w q.widths
  below : Narrower q.widths w'
  mem_iff : ∀ x, x ∈ q.widths ↔ (∃ u ∈ before, Gives s p u x) ∨ x ∈ w
  met : ∀ u ∈ before, ∃ v : WidthPass, Narrower w v.widths ∧ Narrower v.widths w' ∧
    Narrower v.widths (statement s p v u).widths ∧ Narrower (statement s p v u).widths q.widths

section

variable (hw : Settled s p statements w') (hc : Current s p statements w')
  {before after : List Statement} (hsplit : statements = before ++ t :: after)

theorem Course.start (h : Narrower w w') : Course s p w w' [] { widths := w } :=
  ⟨.refl w, h, fun x => by simp, nofun⟩

include hc hsplit in
/-- No statement of the pass asks for more than the settled widths do. -/
theorem Course.wanted_le (hq : Course s p w w' before q) (hport : s.isPort t.target = false) :
    wanted s p q.widths t.expr ≤ wanted s p w' t.expr :=
  WidthPass.wanted_le (hc.knownWidth_le hsplit hport
    (fun u hu x hx => (hq.mem_iff x).2 (.inl ⟨u, hu, hx⟩)) hq.below)

include hw hc hsplit in
theorem Course.step (hq : Course s p w w' before q) :
    Course s p w w' (before ++ [t]) (statement s p q t) := by
  have ht : t ∈ statements := hsplit ▸ List.mem_append_right _ List.mem_cons_self
  have hgrows := hw.le_statement ht hq.below
  have hbelow := hw.statement_le ht hq.below (hq.wanted_le hc hsplit)
  refine ⟨hq.grows.trans hgrows, hbelow, fun x => ?_, fun u hu => ?_⟩
  · rw [mem_statement_iff, hq.mem_iff]
    simp only [List.mem_append, List.mem_singleton, or_and_right, exists_or, exists_eq_left]
    rw [or_left_comm, or_assoc]
  · rcases List.mem_append.1 hu with hu | hu
    · obtain ⟨v, hfrom, hto, hwidened, hmet⟩ := hq.met u hu
      exact ⟨v, hfrom, hto, hwidened, hmet.trans hgrows⟩
    · obtain rfl := List.mem_singleton.1 hu
      exact ⟨q, hq.grows, hq.below, hgrows, .refl _⟩

include hw hc in
/-- A pass that starts below settled widths stays below them, and no statement narrows a name. -/
theorem course_run (h : Narrower w w') : Course s p w w' statements (run s p statements w) :=
  run_induction (.start h) fun _ _ _ _ hsplit hq => hq.step hw hc hsplit

end

/-! ## Passes that change nothing -/

theorem changed_publishOutputs_iff (q : WidthPass) : (q.publishOutputs p t).changed = false ↔
    q.changed = false ∧ ∀ out ∈ furtherOutputs p t.expr, memberName t.target out.name ∈ q.widths := by
  rw [publishOutputs_eq]
  generalize furtherOutputs p t.expr = outs
  induction outs generalizing q with
  | nil => simp
  | cons out rest ih =>
    rw [List.foldl_cons, ih, List.forall_mem_cons]
    simp only [publish, Bool.or_eq_false_iff, Bool.not_eq_false', Std.TreeMap.contains_iff_mem,
      Std.TreeMap.mem_insert, Std.LawfulEqCmp.compare_eq_iff_eq]
    constructor
    · rintro ⟨⟨hq, hout⟩, hrest⟩
      exact ⟨hq, hout, fun o ho => (hrest o ho).elim (fun heq => heq ▸ hout) id⟩
    · rintro ⟨hq, hout, hrest⟩
      exact ⟨⟨hq, hout⟩, fun o ho => .inr (hrest o ho)⟩

/-- A statement changes nothing if what it publishes has a width and its target is wide enough. -/
theorem changed_statement_iff (q : WidthPass) : (statement s p q t).changed = false ↔
    q.changed = false ∧
      (∀ out ∈ furtherOutputs p t.expr, memberName t.target out.name ∈ q.widths) ∧
      (s.isPort t.target = false → wanted s p q.widths t.expr ≤ q.widths.getD t.target 0) := by
  have hgetD : (q.publishOutputs p t).widths.getD t.target 0 = q.widths.getD t.target 0 := by
    rw [Std.TreeMap.getD_eq_getD_getElem?, getElem?_publishOutputs, published_target,
      Option.none_or, ← Std.TreeMap.getD_eq_getD_getElem?]
  unfold statement
  dsimp only
  rw [wanted_publishOutputs, ← and_assoc, ← changed_publishOutputs_iff]
  cases s.isPort t.target with
  | true => simp
  | false =>
    rw [if_neg Bool.false_ne_true, widen, hgetD]
    split
    · next hlt => exact iff_of_false Bool.false_ne_true.symm fun h => Nat.not_lt.2 (h.2 rfl) hlt
    · next hle => exact (and_iff_left fun _ => Nat.not_lt.1 hle).symm

/-- A pass that changes nothing leaves a width as it is, unless a statement publishes another one. -/
theorem run_of_unchanged
    (hdeclared : ∀ t ∈ statements, ∀ k, published p t x = some k → x ∈ w → w[x]? = some k)
    (h : (run s p statements w).changed = false) : (run s p statements w).widths[x]? = w[x]? := by
  refine run_induction (I := fun _ q => q.changed = false → q.widths[x]? = w[x]?)
    (fun _ => rfl) (fun before t after q hsplit hq hunchanged => ?_) h
  obtain ⟨hbefore, hpublished, hwide⟩ := (changed_statement_iff q).1 hunchanged
  have hsame := hq hbefore
  rw [getElem?_statement]
  split
  · next htarget =>
    obtain ⟨rfl, hport⟩ := htarget
    have hle := hwide hport
    rw [Nat.max_eq_left hle, ← hsame]
    rw [Std.TreeMap.getD_eq_getD_getElem?] at hle ⊢
    cases hk : q.widths[t.target]? with
    | some k => rfl
    | none =>
      rw [hk] at hle
      exact absurd (wanted_pos _) (Nat.not_lt.2 hle)
  · cases hk : published p t x with
    | none => rw [Option.none_or, hsame]
    | some k =>
      obtain ⟨out, hout, rfl⟩ := isSome_published.1 (hk ▸ rfl : (published p t x).isSome = true)
      have hmem := hpublished out hout
      rw [Std.TreeMap.mem_iff_isSome_getElem?, hsame, ← Std.TreeMap.mem_iff_isSome_getElem?] at hmem
      have ht : t ∈ statements := hsplit ▸ List.mem_append_right _ List.mem_cons_self
      rw [Option.some_or, hdeclared t ht k hk hmem]

/-- A pass over settled widths changes nothing. -/
theorem Settled.run_eq (hw : Settled s p statements w) :
    (run s p statements w).changed = false ∧
      ∀ x : String, (run s p statements w).widths[x]? = w[x]? := by
  refine run_induction (I := fun _ q => q.changed = false ∧ ∀ x, q.widths[x]? = w[x]?)
    ⟨rfl, fun _ => rfl⟩ fun before t after q hsplit hq => ?_
  have ht : t ∈ statements := hsplit ▸ List.mem_append_right _ List.mem_cons_self
  have hsame : ∀ x, (statement s p q t).widths[x]? = w[x]? := fun x =>
    (statement_congr (v := { widths := w }) hq.2 x).trans (hw.kept t ht x)
  refine ⟨(changed_statement_iff q).2 ⟨hq.1, fun out hout => ?_, fun hport => ?_⟩, hsame⟩
  · have hmem := hw.mem (x := memberName t.target out.name) ht
      (.inr (isSome_published.2 ⟨out, hout, rfl⟩))
    rwa [Std.TreeMap.mem_iff_isSome_getElem?, hq.2, ← Std.TreeMap.mem_iff_isSome_getElem?]
  · have hwanted := getElem?_statement (s := s) (p := p) (t := t) (x := t.target) q
    rw [hsame, if_pos ⟨rfl, hport⟩, ← hq.2] at hwanted
    rw [Std.TreeMap.getD_eq_getD_getElem?, hwanted]
    exact Nat.le_max_right _ _

end WidthPass

end NandHdl
