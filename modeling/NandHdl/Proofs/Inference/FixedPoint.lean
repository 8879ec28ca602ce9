-- SUMMARY: Width inference ends at the least fixed point of its passes exactly if they have one (`inferWidths_fixed`).
import NandHdl.Proofs.Inference.Passes
import Mathlib.Algebra.Order.BigOperators.Group.Finset
import Mathlib.Order.Bounds.Basic

/-!
# The fixed point of width inference

A target that feeds its own width, such as `x = {x, x}`, gets wider with every pass, so the passes
are counted and need not end at a fixed point. If some widths are settled, though, they bound the
passes, and the passes reach their limit. It takes no more than one pass per statement and one more:
what an expression asks is a sum of widths, so a target reaches its limit only if everything that its
width is made up of has reached its own, and once a pass brings no target to its limit, no later pass
does either.
-/

namespace NandHdl

variable {s : Scope} {p : Program} {w w' : NameMap Nat}

mutual

/-- If the names that have gained width had some before, an expression has gained width as well, or
reads none of them. -/
theorem Expr.width_eq_or_lt : ∀ e : Expr,
    (∀ r ∈ e.sizing, knownWidth s w r.text = knownWidth s w' r.text ∨
      0 < knownWidth s w r.text ∧ knownWidth s w r.text < knownWidth s w' r.text) →
    (∀ r ∈ e.sizing, knownWidth s w r.text = knownWidth s w' r.text) ∨
      0 < e.width s p w ∧ e.width s p w < e.width s p w'
  | .ident name, h => by
    refine (h { name } (List.mem_singleton_self _)).imp_left fun heq r hr => ?_
    rwa [List.mem_singleton.1 hr]
  | .member (.ident name) field, h => by
    refine (h { name, field := some field } (List.mem_singleton_self _)).imp_left fun heq r hr => ?_
    rwa [List.mem_singleton.1 hr]
  | .number _, _ | .index _ _, _ | .slice _ _ _, _ | .call _ _, _ => .inl nofun
  | .member (.number _) _, _ | .member (.index _ _) _, _ | .member (.slice _ _ _) _, _
  | .member (.member _ _) _, _ | .member (.concat _) _, _ | .member (.call _ _) _, _ => .inl nofun
  | .concat parts, h => Expr.sum_widths_eq_or_lt parts h

/-- The same for the sum of several widths. -/
theorem Expr.sum_widths_eq_or_lt : ∀ es : List Expr,
    (∀ r ∈ Expr.allSizing es, knownWidth s w r.text = knownWidth s w' r.text ∨
      0 < knownWidth s w r.text ∧ knownWidth s w r.text < knownWidth s w' r.text) →
    (∀ r ∈ Expr.allSizing es, knownWidth s w r.text = knownWidth s w' r.text) ∨
      0 < (Expr.widths s p w es).sum ∧ (Expr.widths s p w es).sum < (Expr.widths s p w' es).sum
  | [], _ => .inl nofun
  | e :: rest, h => by
    rw [Expr.allSizing, List.forall_mem_append] at h
    have hle : ∀ x : String, (knownWidth s w x = knownWidth s w' x ∨
        0 < knownWidth s w x ∧ knownWidth s w x < knownWidth s w' x) →
        knownWidth s w x ≤ knownWidth s w' x := fun x hx => by omega
    have hfirst : e.width s p w ≤ e.width s p w' :=
      Expr.width_le e (fun _ _ => Nat.le_refl _) fun r hr => hle _ (h.1 r hr)
    have hrest : (Expr.widths s p w rest).sum ≤ (Expr.widths s p w' rest).sum :=
      List.Forall₂.sum_le_sum (Expr.widths_le rest (fun _ _ => Nat.le_refl _)
        fun r hr => hle _ (h.2 r hr))
    rw [Expr.allSizing, List.forall_mem_append, Expr.widths, Expr.widths, List.sum_cons,
      List.sum_cons]
    rcases Expr.width_eq_or_lt e h.1 with heq | hlt
    · rcases Expr.sum_widths_eq_or_lt rest h.2 with heq' | hlt'
      · exact .inl ⟨heq, heq'⟩
      · exact .inr (by omega)
    · exact .inr (by omega)

end

namespace WidthPass

variable {q : WidthPass} {statements : List Statement} {t : Statement} {x : String} {k n : Nat}

/-- An expression that asks no more than before reads nothing that has gained width. -/
theorem knownWidth_eq_of_wanted_eq {e : Expr}
    (h : ∀ r ∈ e.sizing, knownWidth s w r.text = knownWidth s w' r.text ∨
      0 < knownWidth s w r.text ∧ knownWidth s w r.text < knownWidth s w' r.text)
    (hwanted : wanted s p w e = wanted s p w' e) :
    ∀ r ∈ e.sizing, knownWidth s w r.text = knownWidth s w' r.text := by
  rcases Expr.width_eq_or_lt (p := p) e h with heq | ⟨hpos, hlt⟩
  · exact heq
  · cases e with
    | number _ => exact nofun
    | _ =>
      have hmax : max 1 (Expr.width s p w _) = max 1 (Expr.width s p w' _) := hwanted
      rw [Nat.max_eq_right hpos, Nat.max_eq_right (Nat.le_trans hpos (Nat.le_of_lt hlt))] at hmax
      exact absurd hmax (Nat.ne_of_lt hlt)

/-! ## Counting widths -/

/-- What a name counts for: its width and one more, or nothing without a width. -/
def height (w : NameMap Nat) (x : String) : Nat := w[x]?.elim 0 (· + 1)

/-- What the names in `w` count for in `w'`. -/
def total (w w' : NameMap Nat) : Nat := ∑ x ∈ w.keys.toFinset, height w' x

theorem Narrower.height_le (h : Narrower w w') (x : String) : height w x ≤ height w' x := by
  unfold height
  cases hk : w[x]? with
  | none => exact Nat.zero_le _
  | some k =>
    obtain ⟨k', hk', hle⟩ := h x k hk
    rw [hk']
    exact Nat.succ_le_succ hle

theorem getElem?_eq_of_height_eq (h : height w x = height w' x) : w[x]? = w'[x]? := by
  unfold height at h
  cases hk : w[x]? <;> cases hk' : w'[x]? <;> simp_all

theorem Narrower.total_le (h : Narrower w w') : total w' w ≤ total w' w' :=
  Finset.sum_le_sum fun x _ => h.height_le x

theorem Narrower.total_lt {bound : NameMap Nat} (h : Narrower w w') (h' : Narrower w' bound)
    (hne : w[x]? ≠ w'[x]?) : total bound w < total bound w' := by
  have hlt : height w x < height w' x :=
    Nat.lt_of_le_of_ne (h.height_le x) fun heq => hne (getElem?_eq_of_height_eq heq)
  have hmem : x ∈ w' := by
    by_contra hnot
    rw [height, height, Std.TreeMap.getElem?_eq_none hnot] at hlt
    exact Nat.not_lt_zero _ hlt
  exact Finset.sum_lt_sum (fun y _ => h.height_le y)
    ⟨x, List.mem_toFinset.2 (Std.TreeMap.mem_keys.2 (h'.mem hmem)), hlt⟩

/-! ## The passes and their limit -/

/-- The widths after some passes. -/
def passes (s : Scope) (p : Program) (statements : List Statement) : Nat → NameMap Nat
  | 0 => {}
  | k + 1 => (run s p statements (passes s p statements k)).widths

theorem given_of_mem_passes (k : Nat) (h : x ∈ passes s p statements k) :
    ∃ t ∈ statements, Gives s p t x := by
  induction k with
  | zero => exact absurd h Std.TreeMap.not_mem_emptyc
  | succ k ih => exact (mem_foldl_iff.1 h).elim id ih

theorem mem_passes_succ (k : Nat) (ht : t ∈ statements) (h : Gives s p t x) :
    x ∈ passes s p statements (k + 1) :=
  mem_foldl_iff.2 (.inl ⟨t, ht, h⟩)

/-- Inference stops after all its passes, or after one that changed nothing. -/
theorem repeated_eq_passes (s : Scope) (p : Program) (statements : List Statement) (n k : Nat) :
    (repeated s p statements n (passes s p statements k) = passes s p statements (k + n)) ∨
      ∃ i, (run s p statements (passes s p statements i)).changed = false ∧
        repeated s p statements n (passes s p statements k) = passes s p statements (i + 1) := by
  induction n generalizing k with
  | zero => exact .inl rfl
  | succ n ih =>
    rw [repeated]
    split
    · refine (ih (k + 1)).imp_left fun h => ?_
      rw [show k + (n + 1) = k + 1 + n by omega]
      exact h
    · next hchanged => exact .inr ⟨k, Bool.eq_false_iff.2 hchanged, rfl⟩

/-- Passes that change nothing any more, other than names that nobody reads, do not start again. -/
theorem passes_stationary {G : String → Prop} {i : Nat}
    (hread : ∀ t ∈ statements, ∀ r ∈ t.expr.sizing, ¬G r.text)
    (h : AgreeOff G (passes s p statements (i + 1)) (passes s p statements i)) (n : Nat) :
    AgreeOff G (passes s p statements (i + n)) (passes s p statements i) := by
  induction n with
  | zero => exact fun _ _ => rfl
  | succ n ih =>
    have hrun : AgreeOff G (passes s p statements (i + n + 1)) (passes s p statements (i + 1)) :=
      AgreeOff.foldl (q := { widths := passes s p statements (i + n) })
        (v := { widths := passes s p statements i }) ih hread
    exact fun x hx => (hrun x hx).trans (h x hx)

/-- A statement that gives names nobody reads makes no difference to the other names. -/
theorem passes_insert {before after : List Statement} {f : Statement}
    (hread : ∀ t ∈ before ++ after, ∀ r ∈ t.expr.sizing, ¬Gives s p f r.text) (k : Nat) :
    AgreeOff (Gives s p f) (passes s p (before ++ f :: after) k) (passes s p (before ++ after) k) := by
  induction k with
  | zero => exact fun _ _ => rfl
  | succ k ih => exact agreeOff_run_insert hread ih

section

variable (hw : Settled s p statements w) (hc : Current s p statements w)

include hw hc

theorem passes_le (k : Nat) : Narrower (passes s p statements k) w := by
  induction k with
  | zero => exact fun x k hk => nomatch Std.TreeMap.getElem?_emptyc.symm.trans hk
  | succ k ih => exact (course_run hw hc ih).below

theorem course_passes (k : Nat) : Course s p (passes s p statements k) w statements
    (run s p statements (passes s p statements k)) :=
  course_run hw hc (passes_le hw hc k)

theorem passes_mono {i j : Nat} (h : i ≤ j) :
    Narrower (passes s p statements i) (passes s p statements j) := by
  induction h with
  | refl => exact .refl _
  | step _ ih => exact ih.trans (course_passes hw hc _).grows

theorem reached_mono {i j : Nat} (h : i ≤ j) (hx : (passes s p statements i)[x]? = w[x]?) :
    (passes s p statements j)[x]? = w[x]? :=
  (passes_mono hw hc h).squeeze (passes_le hw hc j) hx

/-- A further output has its declared width from the first pass on. -/
theorem getElem?_passes_published (ht : t ∈ statements) (h : published p t x = some n) :
    (passes s p statements (k + 1))[x]? = some n := by
  obtain ⟨v, -, -, -, hmet⟩ := (course_passes hw hc k).met t ht
  have hpublished : (statement s p v t).widths[x]? = some n := by
    rw [getElem?_statement, h, if_neg]
    · rfl
    · rintro ⟨rfl, -⟩
      exact nomatch published_target.symm.trans h
  obtain ⟨n', hn', hle⟩ := hmet x n hpublished
  obtain ⟨n'', hn'', hle'⟩ := passes_le hw hc (k + 1) x n' hn'
  obtain rfl := Option.some.inj ((hw.getElem?_published ht h).symm.trans hn'')
  rw [passes, hn', Nat.le_antisymm hle' hle]

/-- Passes below settled widths come to a standstill. -/
theorem exists_stationary : ∃ i, ∀ x : String,
    (passes s p statements (i + 1))[x]? = (passes s p statements i)[x]? := by
  by_contra hnever
  push Not at hnever
  have hgrows : StrictMono fun i => total w (passes s p statements i) := by
    refine strictMono_nat_of_lt_succ fun i => ?_
    obtain ⟨x, hx⟩ := hnever i
    exact (passes_mono hw hc (Nat.le_succ i)).total_lt (passes_le hw hc (i + 1)) hx.symm
  have hbound : total w (passes s p statements (total w w + 1)) ≤ total w w :=
    (passes_le hw hc _).total_le
  exact Nat.not_lt.2 hbound (Nat.lt_of_succ_le (hgrows.le_apply))

/-- Widths that a pass leaves as they are, are settled. -/
theorem settled_of_stationary {i : Nat}
    (h : ∀ x : String, (passes s p statements (i + 1))[x]? = (passes s p statements i)[x]?) :
    Settled s p statements (passes s p statements i) := by
  refine ⟨fun x hx => given_of_mem_passes i hx, fun t ht x => ?_⟩
  obtain ⟨v, hfrom, -, hwidened, hmet⟩ := (course_passes hw hc i).met t ht
  have hback : Narrower (statement s p v t).widths (passes s p statements i) :=
    hmet.trans (.of_eq h)
  have hsame := hfrom.antisymm (hwidened.trans hback)
  rw [statement_congr (v := v) hsame]
  exact hback.antisymm (hfrom.trans hwidened) x

/-! ## How many passes it takes -/

theorem mem_passes_iff : x ∈ passes s p statements (k + 1) ↔ x ∈ w := by
  refine ⟨(passes_le hw hc (k + 1)).mem, fun hx => ?_⟩
  obtain ⟨t, ht, hgives⟩ := hw.given x hx
  exact mem_passes_succ k ht hgives

/-- In a pass each target becomes as wide as its statement asks in between. -/
theorem exists_wanted_le (ht : t ∈ statements) (hport : s.isPort t.target = false) :
    ∃ v : WidthPass, Narrower (passes s p statements k) v.widths ∧ Narrower v.widths w ∧
      wanted s p v.widths t.expr ≤ (passes s p statements (k + 1)).getD t.target 0 := by
  obtain ⟨v, hfrom, hto, -, hmet⟩ := (course_passes hw hc k).met t ht
  refine ⟨v, hfrom, hto, Nat.le_trans ?_ (hmet.getD_le t.target)⟩
  rw [Std.TreeMap.getD_eq_getD_getElem?, getElem?_statement, if_pos ⟨rfl, hport⟩]
  exact Nat.le_max_right _ _

/-- After the first pass only targets can still gain width. -/
theorem infers_of_ne (h : (passes s p statements (k + 1))[x]? ≠ w[x]?) :
    s.Infers statements x := by
  by_cases hx : x ∈ w
  · obtain ⟨t, ht, ⟨htarget, hport⟩ | hpublished⟩ := hw.given x hx
    · exact ⟨hport, t, ht, htarget⟩
    · obtain ⟨n, hn⟩ := Option.isSome_iff_exists.1 hpublished
      refine absurd ?_ h
      rw [getElem?_passes_published hw hc ht hn, hw.getElem?_published ht hn]
  · refine absurd ?_ h
    rw [Std.TreeMap.getElem?_eq_none hx,
      Std.TreeMap.getElem?_eq_none ((mem_passes_iff hw hc).not.2 hx)]

section

variable {u : NameMap Nat} (hfrom : Narrower (passes s p statements (k + 1)) u) (hto : Narrower u w)

include hfrom hto

theorem mem_between_iff : x ∈ u ↔ x ∈ w :=
  ⟨hto.mem, fun hx => hfrom.mem ((mem_passes_iff hw hc).2 hx)⟩

theorem getElem?_eq_of_knownWidth_eq (h : knownWidth s u x = knownWidth s w x) :
    u[x]? = w[x]? := by
  by_cases hx : x ∈ w
  · have hx' := (mem_between_iff hw hc hfrom hto).2 hx
    rw [Std.TreeMap.mem_iff_isSome_getElem?, Option.isSome_iff_exists] at hx hx'
    obtain ⟨n, hn⟩ := hx
    obtain ⟨n', hn'⟩ := hx'
    rw [knownWidth_of_getElem? hn', knownWidth_of_getElem? hn] at h
    rw [hn', h, hn]
  · rw [Std.TreeMap.getElem?_eq_none hx,
      Std.TreeMap.getElem?_eq_none ((mem_between_iff hw hc hfrom hto).not.2 hx)]

/-- A name that can still gain width has some. -/
theorem knownWidth_eq_or_lt (x : String) : knownWidth s u x = knownWidth s w x ∨
    0 < knownWidth s u x ∧ knownWidth s u x < knownWidth s w x := by
  by_cases hopen : (passes s p statements (k + 1))[x]? = w[x]?
  · exact .inl (knownWidth_congr (hfrom.squeeze hto hopen))
  · obtain ⟨hport, t, ht, rfl⟩ := infers_of_ne hw hc hopen
    obtain ⟨v, -, -, hwanted⟩ := exists_wanted_le hw hc (k := k) ht hport
    have hx : t.target ∈ w := hw.mem ht (.inl ⟨rfl, hport⟩)
    have hx' := (mem_between_iff hw hc hfrom hto).2 hx
    have hpos : 0 < knownWidth s u t.target := by
      rw [knownWidth_of_mem hx']
      exact Nat.lt_of_lt_of_le (wanted_pos _) (Nat.le_trans hwanted (hfrom.getD_le _))
    have hle := hto.knownWidth_le (s := s) fun hnot => absurd hx' hnot
    omega

end

/-- A pass brings a target to its limit if a statement asks for that and reads limits only. -/
theorem reached_of_reads_limits (ht : t ∈ statements) (hport : s.isPort t.target = false)
    (hlimit : w.getD t.target 0 ≤ wanted s p w t.expr)
    (hread : ∀ r ∈ t.expr.sizing,
      knownWidth s (passes s p statements (k + 1)) r.text = knownWidth s w r.text) :
    (passes s p statements (k + 2))[t.target]? = w[t.target]? := by
  obtain ⟨v, hfrom, hto, hwanted⟩ := exists_wanted_le hw hc (k := k + 1) ht hport
  have hasked : wanted s p w t.expr ≤ wanted s p v.widths t.expr := by
    refine wanted_le fun r hr => (hread r hr).symm.trans_le (hfrom.knownWidth_le fun hnot => ?_)
    rw [knownWidth_of_not_mem ((mem_between_iff hw hc hfrom hto).not.2
      ((mem_passes_iff hw hc).not.1 hnot))]
  have hmem : t.target ∈ w := hw.mem ht (.inl ⟨rfl, hport⟩)
  refine getElem?_eq_of_knownWidth_eq (s := s) hw hc (passes_mono hw hc (Nat.le_succ (k + 1)))
    (passes_le hw hc (k + 2)) ?_
  rw [knownWidth_of_mem ((mem_passes_iff hw hc (k := k + 1)).2 hmem), knownWidth_of_mem hmem]
  exact Nat.le_antisymm ((passes_le hw hc (k + 2)).getD_le _)
    (Nat.le_trans hlimit (Nat.le_trans hasked hwanted))

/-- If a pass brings no target to its limit, the next one does not either. -/
theorem reached_of_no_progress
    (h : ∀ x : String, (passes s p statements (k + 2))[x]? = w[x]? →
      (passes s p statements (k + 1))[x]? = w[x]?) (x : String)
    (hx : (passes s p statements (k + 3))[x]? = w[x]?) :
    (passes s p statements (k + 1))[x]? = w[x]? := by
  -- No statement of the next pass brings a target to its limit.
  refine (run_induction (w := passes s p statements (k + 2)) (I := fun before q =>
    Course s p (passes s p statements (k + 2)) w before q ∧
      ∀ x : String, q.widths[x]? = w[x]? → (passes s p statements (k + 1))[x]? = w[x]?)
    ⟨.start (passes_le hw hc _), h⟩ ?_).2 x hx
  intro before t after q hsplit ⟨hq, hnone⟩
  refine ⟨hq.step hw hc hsplit, fun x hx => ?_⟩
  have ht : t ∈ statements := hsplit ▸ List.mem_append_right _ List.mem_cons_self
  have hfrom := (passes_mono hw hc (Nat.le_succ (k + 1))).trans hq.grows
  rw [getElem?_statement] at hx
  split at hx
  · next htarget =>
    obtain ⟨rfl, hport⟩ := htarget
    have hmem : t.target ∈ w := hw.mem ht (.inl ⟨rfl, hport⟩)
    rcases max_choice (q.widths.getD t.target 0) (wanted s p q.widths t.expr) with hmax | hmax
    · have hmem' := (mem_between_iff hw hc hfrom hq.below).2 hmem
      rw [hmax, ← knownWidth_of_mem (s := s) hmem'] at hx
      exact hnone _ (getElem?_eq_of_knownWidth_eq (s := s) hw hc hfrom hq.below
        (knownWidth_of_getElem? hx.symm).symm)
    · -- The statement asks for the limit, so it reads limits only, and has done so in the last pass.
      have hlimit : w.getD t.target 0 = wanted s p q.widths t.expr := by
        rw [Std.TreeMap.getD_eq_getD_getElem?, ← hx, hmax, Option.getD_some]
      have hwanted : wanted s p q.widths t.expr = wanted s p w t.expr :=
        Nat.le_antisymm (hq.wanted_le hc hsplit hport) (hlimit ▸ hw.wanted_le_getD ht hport)
      have hread := knownWidth_eq_of_wanted_eq
        (fun r _ => knownWidth_eq_or_lt hw hc hfrom hq.below r.text) hwanted
      exact h _ (reached_of_reads_limits hw hc ht hport (hlimit.trans hwanted).le fun r hr =>
        knownWidth_congr (hnone _ (getElem?_eq_of_knownWidth_eq hw hc hfrom hq.below (hread r hr))))
  · cases hpublished : published p t x with
    | none =>
      rw [hpublished, Option.none_or] at hx
      exact hnone x hx
    | some n =>
      rw [getElem?_passes_published hw hc ht hpublished, hw.getElem?_published ht hpublished]

end

/-- The targets whose widths are inferred. -/
def targets (s : Scope) (statements : List Statement) : Finset String :=
  ((statements.map Statement.target).filter fun x => !s.isPort x).toFinset

theorem mem_targets : x ∈ targets s statements ↔ s.Infers statements x := by
  simp only [targets, Scope.Infers, List.mem_toFinset, List.mem_filter, List.mem_map,
    Bool.not_eq_true', and_comm]

theorem card_targets_le : (targets s statements).card ≤ statements.length :=
  Nat.le_trans (List.toFinset_card_le _)
    (Nat.le_trans (List.length_filter_le _ _) (Nat.le_of_eq (List.length_map _)))

/-- The targets that have the widths `w` after one pass and `k` more. -/
def reached (s : Scope) (p : Program) (statements : List Statement) (w : NameMap Nat) (k : Nat) :
    Finset String :=
  (targets s statements).filter fun x => (passes s p statements (k + 1))[x]? = w[x]?

section

variable {i : Nat} (hw : Settled s p statements (passes s p statements i))
  (hc : Current s p statements (passes s p statements i))

include hw

theorem passes_eq_limit {j : Nat} (hj : i ≤ j) (x : String) :
    (passes s p statements j)[x]? = (passes s p statements i)[x]? := by
  obtain ⟨n, rfl⟩ := Nat.exists_eq_add_of_le hj
  exact passes_stationary (G := fun _ => False) (fun _ _ _ _ => not_false)
    (fun y _ => hw.run_eq.2 y) n x not_false

include hc

/-- A pass that brings no target to its limit finds all at their limits. -/
theorem all_reached_of_no_progress
    (h : ∀ x : String, (passes s p statements (k + 2))[x]? = (passes s p statements i)[x]? →
      (passes s p statements (k + 1))[x]? = (passes s p statements i)[x]?) (x : String) :
    (passes s p statements (k + 1))[x]? = (passes s p statements i)[x]? := by
  have hlater : ∀ n, ∀ x : String,
      (passes s p statements (k + n + 2))[x]? = (passes s p statements i)[x]? →
        (passes s p statements (k + 1))[x]? = (passes s p statements i)[x]? := by
    intro n
    induction n with
    | zero => exact h
    | succ n ih =>
      intro x hx
      have hstep := reached_of_no_progress hw hc (k := k + n) fun y hy =>
        reached_mono hw hc (by omega : k + 1 ≤ k + n + 1) (ih y hy)
      exact ih x (reached_mono hw hc (Nat.le_succ (k + n + 1)) (hstep x hx))
  exact hlater i x (passes_eq_limit hw (by omega) x)

/-- As long as not all targets are at their limits, each pass brings one there. -/
theorem all_reached_or_le_card (k : Nat) :
    (∀ x : String, (passes s p statements (k + 1))[x]? = (passes s p statements i)[x]?) ∨
      k ≤ (reached s p statements (passes s p statements i) k).card := by
  induction k with
  | zero => exact .inr (Nat.zero_le _)
  | succ k ih =>
    by_cases hall : ∀ x : String, (passes s p statements (k + 1))[x]? = (passes s p statements i)[x]?
    · exact .inl fun x => reached_mono hw hc (Nat.le_succ (k + 1)) (hall x)
    · obtain ⟨x, hx, hx'⟩ : ∃ x : String,
          (passes s p statements (k + 2))[x]? = (passes s p statements i)[x]? ∧
            (passes s p statements (k + 1))[x]? ≠ (passes s p statements i)[x]? := by
        by_contra hnone
        push Not at hnone
        exact hall (all_reached_of_no_progress hw hc hnone)
      have hlt : (reached s p statements (passes s p statements i) k).card <
          (reached s p statements (passes s p statements i) (k + 1)).card := by
        refine Finset.card_lt_card ((Finset.ssubset_iff_of_subset ?_).2 ⟨x, ?_, ?_⟩)
        · exact Finset.monotone_filter_right _ fun y _ =>
            reached_mono hw hc (Nat.le_succ (k + 1))
        · exact Finset.mem_filter.2 ⟨mem_targets.2 (infers_of_ne hw hc hx'), hx⟩
        · exact fun hmem => hx' (Finset.mem_filter.1 hmem).2
      exact .inr (Nat.lt_of_le_of_lt (ih.resolve_left hall) hlt)

/-- One pass, and one more for each statement, find the limit. -/
theorem passes_length_succ (x : String) :
    (passes s p statements (statements.length + 1))[x]? = (passes s p statements i)[x]? := by
  rcases all_reached_or_le_card hw hc statements.length with hall | hcard
  · exact hall x
  · by_contra hne
    have hsubset : reached s p statements (passes s p statements i) statements.length ⊆
        targets s statements := Finset.filter_subset _ _
    have heq := Finset.eq_of_subset_of_card_le hsubset (Nat.le_trans card_targets_le hcard)
    have hmem := mem_targets.2 (infers_of_ne hw hc hne)
    rw [← heq] at hmem
    exact hne (Finset.mem_filter.1 hmem).2

/-- Inference over other statements finds the limit as well, where each of their passes agrees with
one over these. -/
theorem agreeOff_limit {G : String → Prop} {others : List Statement}
    (hread : ∀ t ∈ statements, ∀ r ∈ t.expr.sizing, ¬G r.text)
    (hagree : ∀ k, AgreeOff G (passes s p others k) (passes s p statements k))
    (hpublished : ∀ t ∈ others, t ∈ statements ∨ ∀ x, (published p t x).isSome → G x)
    (hlength : statements.length ≤ others.length) :
    AgreeOff G (inferWidths s p others) (passes s p statements i) := by
  intro x hx
  rcases repeated_eq_passes s p others (others.length + 1) 0 with
    hall | ⟨j, hunchanged, hlast⟩
  · rw [Nat.zero_add] at hall
    refine (congrArg (·[x]?) hall).trans ((hagree _ x hx).trans ?_)
    exact reached_mono hw hc (Nat.succ_le_succ hlength) (passes_length_succ hw hc x)
  · refine (congrArg (·[x]?) hlast).trans ((hagree _ x hx).trans ?_)
    have hdeclared : ∀ y, ¬G y → ∀ t ∈ others, ∀ n, published p t y = some n →
        y ∈ passes s p others j → (passes s p others j)[y]? = some n := by
      intro y hy t ht n hn hmem
      have ht' := (hpublished t ht).resolve_right fun h => hy (h y (hn ▸ rfl))
      cases j with
      | zero => exact absurd hmem Std.TreeMap.not_mem_emptyc
      | succ j => exact (hagree _ y hy).trans (getElem?_passes_published hw hc ht' hn)
    have hstop : AgreeOff G (passes s p statements (j + 1)) (passes s p statements j) := by
      intro y hy
      rw [← hagree _ y hy, ← hagree _ y hy]
      exact run_of_unchanged (hdeclared y hy) hunchanged
    have hlater := passes_stationary hread hstop i x hx
    rw [hstop x hx, ← hlater]
    exact passes_eq_limit hw (Nat.le_add_left i j) x

end

/-! ## Fixed points -/

/-- Settled widths at which each target is as wide as the widest of its statements asks. Targets that
are further outputs of an instance as well are left out: those have their declared widths. -/
structure Fixed (s : Scope) (p : Program) (statements : List Statement) (w : NameMap Nat) : Prop
    extends Settled s p statements w where
  greatest : ∀ x, s.Infers statements x → (∀ t ∈ statements, published p t x = none) →
    IsGreatest {k | ∃ t ∈ statements, t.target = x ∧ wanted s p w t.expr = k} (w.getD x 0)

section

variable (hw : Settled s p statements w) (hc : Current s p statements w)

include hw hc

/-- No target gets wider than one of its statements asks at settled widths. -/
theorem exists_wanted_ge (k : Nat) : ∀ x, (∀ t ∈ statements, published p t x = none) →
    ∀ n, (passes s p statements k)[x]? = some n →
      ∃ t ∈ statements, t.target = x ∧ n ≤ wanted s p w t.expr := by
  induction k with
  | zero => exact fun x _ n hn => nomatch Std.TreeMap.getElem?_emptyc.symm.trans hn
  | succ k ih =>
    refine (run_induction (I := fun before q => Course s p (passes s p statements k) w before q ∧
      ∀ x, (∀ t ∈ statements, published p t x = none) → ∀ n, q.widths[x]? = some n →
        ∃ t ∈ statements, t.target = x ∧ n ≤ wanted s p w t.expr)
      ⟨.start (passes_le hw hc k), ih⟩ ?_).2
    intro before t after q hsplit ⟨hq, hasked⟩
    refine ⟨hq.step hw hc hsplit, fun x hx n hn => ?_⟩
    have ht : t ∈ statements := hsplit ▸ List.mem_append_right _ List.mem_cons_self
    rw [getElem?_statement, hx t ht, Option.none_or] at hn
    split at hn
    · next htarget =>
      obtain ⟨rfl, hport⟩ := htarget
      have hself := hq.wanted_le hc hsplit hport
      obtain rfl := Option.some.inj hn
      cases hbefore : q.widths[t.target]? with
      | none =>
        refine ⟨t, ht, rfl, ?_⟩
        rwa [Std.TreeMap.getD_eq_getD_getElem?, hbefore, Option.getD_none, Nat.zero_max]
      | some n =>
        rw [Std.TreeMap.getD_eq_getD_getElem?, hbefore, Option.getD_some]
        rcases max_choice n (wanted s p q.widths t.expr) with hmax | hmax
        · rw [hmax]
          exact hasked _ hx n hbefore
        · rw [hmax]
          exact ⟨t, ht, rfl, hself⟩
    · exact hasked x hx n hn

end

theorem Settled.fixed {i : Nat} (hw : Settled s p statements (passes s p statements i))
    (hc : Current s p statements (passes s p statements i)) :
    Fixed s p statements (passes s p statements i) where
  toSettled := hw
  greatest x hx hpublished := by
    obtain ⟨hport, u, hu, rfl⟩ := hx
    have hmem := hw.mem hu (.inl ⟨rfl, hport⟩)
    obtain ⟨n, hn⟩ := Option.isSome_iff_exists.1 (Std.TreeMap.mem_iff_isSome_getElem?.1 hmem)
    obtain ⟨t, ht, htarget, hle⟩ := exists_wanted_ge hw hc i _ hpublished n hn
    have hgetD : (passes s p statements i).getD u.target 0 = n := by
      rw [Std.TreeMap.getD_eq_getD_getElem?, hn, Option.getD_some]
    have hge : ∀ v ∈ statements, v.target = u.target →
        wanted s p (passes s p statements i) v.expr ≤ n := fun v hv hsame => by
      have hwanted := hw.wanted_le_getD hv (hsame ▸ hport)
      rwa [hsame, hgetD] at hwanted
    rw [hgetD]
    refine ⟨⟨t, ht, htarget, Nat.le_antisymm (hge t ht htarget) hle⟩, ?_⟩
    rintro k ⟨v, hv, hsame, rfl⟩
    exact hge v hv hsame

theorem Fixed.congr (hw : Fixed s p statements w) (h : ∀ x : String, w'[x]? = w[x]?) :
    Fixed s p statements w' where
  toSettled := hw.toSettled.congr h
  greatest x hx hpublished := by
    have hwanted : ∀ e : Expr, wanted s p w' e = wanted s p w e := fun e =>
      wanted_eq fun r _ => knownWidth_congr (h r.text)
    rw [Std.TreeMap.getD_eq_getD_getElem?, h x, ← Std.TreeMap.getD_eq_getD_getElem?]
    simp only [hwanted]
    exact hw.greatest x hx hpublished

end WidthPass

/-! ## Inference -/

open WidthPass

/-- A module with a further output of two bits. -/
def halves : Program :=
  { modules := [{ name := "half", params := [{ name := "a" }, { name := "b" }],
                  outputs := [{ name := "s" }, { name := "c", width := 2 }] }] }

/-- Statements that read widths further down, and a target that feeds its own width. -/
def readsBelow : List Statement :=
  [{ target := "o", expr := .concat [.ident "z", .ident "z"] },
   { target := "z", expr := .concat [.member (.ident "h") "c", .ident "x"] },
   { target := "h", expr := .call "half" [.ident "z", .ident "z"] },
   { target := "x", expr := .concat [.ident "x"] }]

/-- A target that asks for twice its own width. -/
def doubling : List Statement := [{ target := "x", expr := .concat [.ident "x", .ident "x"] }]

end NandHdl
