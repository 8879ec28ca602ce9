-- SUMMARY: Statements that call no module may change places: the drafts are similar, or both orders fail (`elaborateStatements_perm`).
import NandHdl.Proofs.Reordering.Rearranged

/-!
# Statements in another order

Steps may be taken in any order if two neighbours may always change places. For statements that
comes down to what they claim: the one that is elaborated second fails only if it would have failed
as the first, or if the other one has claimed what it claims.
-/

namespace NandHdl

variable {d d' e e' : Draft} {F G : Fragment}

/-! ## Steps in another order -/

namespace Elab

/-- From drafts that are related the steps lead to drafts that are related, or both fail. -/
abbrev Keeps (R : Draft → Draft → Prop) (x y : Elab Unit) : Prop := Together R x y fun _ _ => R

/-- From one draft the steps lead to drafts that are related, or both fail. -/
abbrev Replaces (R : Draft → Draft → Prop) (x y : Elab Unit) : Prop :=
  Together (fun d d' => d = d' ∧ R d d) x y fun _ _ => R

section

variable {ι : Type} {R : Draft → Draft → Prop} {x y z : Elab Unit} {step step' : ι → Elab Unit}
  {l l' : List ι}

theorem Keeps.replaces (h : Keeps R x y) : Replaces R x y :=
  h.mono (fun _ _ hd => hd.1 ▸ hd.2) fun _ _ _ _ he => he

theorem keeps_forM (h : ∀ a ∈ l, Keeps R (step a) (step' a)) :
    Keeps R (l.forM step) (l.forM step') := by
  induction l with
  | nil => exact together_pure fun _ _ hd => hd
  | cons a rest ih =>
    rw [List.forall_mem_cons] at h
    exact h.1.bind fun _ _ => ih h.2

variable (hrefl : ∀ d d', R d d' → R d' d') (htrans : ∀ d d' d'', R d d' → R d' d'' → R d d'')

include hrefl htrans

theorem Keeps.trans (hx : Keeps R x y) (hy : Replaces R y z) : Keeps R x z := by
  intro d d' hd
  rcases hx d d' hd with ⟨_, _, e, e', hx, hy', he⟩ | ⟨err, err', hx, hy'⟩
  · rcases hy d' d' ⟨rfl, hrefl d d' hd⟩ with ⟨_, _, f, f', hy, hz, hf⟩ | ⟨_, _, hy, -⟩
    · cases hy'.symm.trans hy
      exact .inl ⟨_, _, e, f', hx, hz, htrans _ _ _ he hf⟩
    · exact nomatch hy'.symm.trans hy
  · rcases hy d' d' ⟨rfl, hrefl d d' hd⟩ with ⟨_, _, f, f', hy, -, -⟩ | ⟨_, err', hy, hz⟩
    · exact nomatch hy'.symm.trans hy
    · exact .inr ⟨err, err', hx, hz⟩

/-- Steps may be taken in another order if any two of them may change places. -/
theorem keeps_forM_perm (hperm : l.Perm l') (hstep : ∀ a ∈ l, Keeps R (step a) (step a))
    (hswap : ∀ a ∈ l, ∀ b ∈ l, a ≠ b →
      Replaces R (step a >>= fun _ => step b) (step b >>= fun _ => step a)) :
    Keeps R (l.forM step) (l'.forM step) := by
  induction hperm with
  | nil => exact together_pure fun _ _ hd => hd
  | cons a _ ih =>
    rw [List.forall_mem_cons] at hstep
    refine hstep.1.bind fun _ _ => ih hstep.2 fun b hb c hc => ?_
    exact hswap b (List.mem_cons_of_mem _ hb) c (List.mem_cons_of_mem _ hc)
  | swap a b rest =>
    simp only [List.forall_mem_cons] at hstep
    obtain ⟨hb, ha, hrest⟩ := hstep
    show Keeps R (step b >>= fun _ => step a >>= fun _ => rest.forM step)
      (step a >>= fun _ => step b >>= fun _ => rest.forM step)
    rw [← bind_assoc, ← bind_assoc]
    refine Together.bind (Q := fun _ _ => R) ?_ fun _ _ => keeps_forM hrest
    have hsame : Keeps R (step b >>= fun _ => step a) (step b >>= fun _ => step a) :=
      hb.bind fun _ _ => ha
    refine hsame.trans hrefl htrans ?_
    by_cases hne : b = a
    · exact hne ▸ hsame.replaces
    · exact hswap b List.mem_cons_self a (List.mem_cons_of_mem _ List.mem_cons_self) hne
  | trans hfirst _ ih ih' =>
    have hback : ∀ a ∈ _, a ∈ _ := fun a ha => hfirst.mem_iff.2 ha
    refine (ih hstep hswap).trans hrefl htrans (Keeps.replaces ?_)
    exact ih' (fun a ha => hstep a (hback a ha)) fun a ha b hb =>
      hswap a (hback a ha) b (hback b hb)

end

/-- A step that commits to a fragment adds it exactly if all that it claims is free. -/
theorem Commits.outcome {x : Elab Unit} (h : x.Commits d F) :
    (d.Clear F.claims ∧ ∃ e, x.run d = .ok ((), e) ∧ d.Emits e F) ∨
      (¬d.Clear F.claims ∧ ∃ err, x.run d = .error err) :=
  h.imp_left fun ⟨e, hx, he⟩ => ⟨he.clear, e, hx, he⟩

theorem Commits.emits {x : Elab Unit} {u : Unit} (h : x.Commits d F) (hx : x.run d = .ok (u, e)) :
    d.Emits e F := by
  rcases h with ⟨e', hx', he⟩ | ⟨-, err, herr⟩
  · cases hx.symm.trans hx'
    exact he
  · exact nomatch hx.symm.trans herr

end Elab

open Elab

/-! ## Drafts that have gained a fragment -/

namespace Draft

theorem Accounted.one_lt (hd : d.Accounted) : oneId < d.netlist.signals.size :=
  hd.one_known.lt

theorem Accounted.scope_fixed (hd : d.Accounted) {f : SignalId → SignalId}
    (hf : ∀ i < d.netlist.signals.size, f i = i) : d.scope.Relabeled f d.scope :=
  .of_fixed fun name i hi => hf i (hd.scope_known name i hi).lt

theorem Accounted.mirrors (hd : d.Accounted) : d.Mirrors id d where
  injective := Function.injective_id
  zero := rfl
  one := rfl
  next _ := rfl
  scope := hd.scope_fixed fun _ _ => rfl
  accounted := hd
  accounted' := hd

/-- A statement sees after other statements what it sees before them, only that new signals have
higher numbers. -/
theorem Emits.mirrors (h : d.Emits e F) (hd : d.Accounted) (he : e.Accounted) :
    d.Mirrors (shift d.netlist.signals.size e.netlist.signals.size) e where
  injective := shift_injective (h.size_eq ▸ Nat.le_add_right _ _)
  zero := shift_of_lt (Nat.lt_trans Nat.zero_lt_one hd.one_lt)
  one := shift_of_lt hd.one_lt
  next j := shift_add _ _ j
  scope := by
    rw [h.scope_eq]
    exact hd.scope_fixed fun _ hi => shift_of_lt hi
  accounted := hd
  accounted' := he

end Draft

/-! ## Statements -/

variable {base : Nat} {cx cx' : Context} {s t : Statement} {statements statements' : List Statement}
  {u : Unit}

theorem elaborateStatement_accounted (hcx : cx.Safe) (hd : d.Accounted)
    (h : (elaborateStatement cx s).run d = .ok (u, e)) : e.Accounted :=
  ((elaborateStatement_safe hcx hd s).of_run h).1.accounted

/-- A statement that is elaborated has a fragment. -/
theorem elaborateStatement_emits (hd : d.Accounted) (hcalls : s.expr.callees = [])
    (h : (elaborateStatement cx s).run d = .ok (u, e)) : ∃ F, d.Emits e F := by
  rcases elaborateStatement_mirrored hd.mirrors cx cx hcalls with
    ⟨err, -, herr, -⟩ | ⟨F, hcommits, -⟩
  · exact nomatch h.symm.trans herr
  · exact ⟨F, hcommits.emits h⟩

theorem elaborateStatement_keeps (hcx : cx.Safe) (hcx' : cx'.Safe) (hbase : oneId < base)
    (hcalls : s.expr.callees = []) :
    Keeps (Draft.Similar base) (elaborateStatement cx s) (elaborateStatement cx' s) := by
  rintro d d' ⟨σ, hd⟩
  rcases elaborateStatement_mirrored (hd.mirrors hbase) cx cx' hcalls with
    ⟨err, err', herr, herr'⟩ | ⟨F, hcommits, hcommits'⟩
  · exact .inr ⟨err, err', herr, herr'⟩
  · have hclear : d'.Clear (F.map σ).claims ↔ d.Clear F.claims := hd.clear_iff
    rcases hcommits.outcome with ⟨hfree, e, hrun, he⟩ | ⟨htaken, err, herr⟩
    · obtain ⟨-, e', hrun', he'⟩ := hcommits'.outcome.resolve_right fun h => h.1 (hclear.2 hfree)
      refine .inl ⟨_, _, e, e', hrun, hrun', σ, hd.gains he.toGains he'.toGains ?_ ?_ ?_⟩
      · rw [he.scope_eq, he'.scope_eq]
        exact hd.scope
      · exact elaborateStatement_accounted hcx hd.accounted hrun
      · exact elaborateStatement_accounted hcx' hd.accounted' hrun'
    · obtain ⟨-, err', herr'⟩ := hcommits'.outcome.resolve_left fun h => htaken (hclear.1 h.1)
      exact .inr ⟨err, err', herr, herr'⟩

/-- A statement that fails fails after another one as well. -/
theorem elaborateStatement_fails_after (hcx : cx.Safe) (hd : d.Accounted)
    (hs : s.expr.callees = []) (ht : t.expr.callees = []) {err : ElabError}
    (hfails : (elaborateStatement cx s).run d = .error err)
    (hrun : (elaborateStatement cx t).run d = .ok (u, e)) :
    ∃ err', (elaborateStatement cx s).run e = .error err' := by
  obtain ⟨F, he⟩ := elaborateStatement_emits hd ht hrun
  have hmirrors := he.mirrors hd (elaborateStatement_accounted hcx hd hrun)
  rcases elaborateStatement_mirrored hmirrors cx cx hs with
    ⟨-, err', -, herr'⟩ | ⟨G, hcommits, hcommits'⟩
  · exact ⟨err', herr'⟩
  · rcases hcommits.outcome with ⟨-, _, hok, -⟩ | ⟨htaken, -⟩
    · exact nomatch hfails.symm.trans hok
    · refine (hcommits'.outcome.resolve_left fun h => htaken ?_).2
      exact Draft.clear_of_shift hd.driven_size he.toGains h.1

theorem run_andThen {x y : Elab Unit} (hx : x.run d = .ok (u, e)) :
    (x >>= fun _ => y).run d = y.run e := by
  rw [StateT.run_bind, hx]
  rfl

theorem run_andThen_error {x y : Elab Unit} {err : ElabError} (hx : x.run d = .error err) :
    (x >>= fun _ => y).run d = .error err := by
  rw [StateT.run_bind, hx]
  rfl

/-- If each of two statements goes through as the first one, either both go through as the second one
as well, or neither does. -/
theorem elaborateStatement_swap_ok {da db : Draft} {u u' : Unit} (hcx : cx.Safe) (hd : d.Accounted)
    (hbase : base ≤ d.netlist.signals.size) (hs : s.expr.callees = []) (ht : t.expr.callees = [])
    (hrun : (elaborateStatement cx s).run d = .ok (u, da))
    (hrun' : (elaborateStatement cx t).run d = .ok (u', db)) :
    (∃ e e', (elaborateStatement cx t).run da = .ok ((), e) ∧
      (elaborateStatement cx s).run db = .ok ((), e') ∧ Draft.Similar base e e') ∨
    ∃ err err', (elaborateStatement cx t).run da = .error err ∧
      (elaborateStatement cx s).run db = .error err' := by
  have hda := elaborateStatement_accounted hcx hd hrun
  have hdb := elaborateStatement_accounted hcx hd hrun'
  obtain ⟨_, hemits⟩ := elaborateStatement_emits hd hs hrun
  obtain ⟨_, hemits'⟩ := elaborateStatement_emits hd ht hrun'
  rcases elaborateStatement_mirrored (hemits'.mirrors hd hdb) cx cx hs with
    ⟨_, _, herr, -⟩ | ⟨F, hF, hFafter⟩
  · exact nomatch hrun.symm.trans herr
  rcases elaborateStatement_mirrored (hemits.mirrors hd hda) cx cx ht with
    ⟨_, _, herr, -⟩ | ⟨G, hG, hGafter⟩
  · exact nomatch hrun'.symm.trans herr
  have ha := (hF.emits hrun).toGains
  have hb := (hG.emits hrun').toGains
  -- Each of them goes through after the other if they claim no signal in common.
  have hsecond := Draft.clear_shift ha hb.clear
  have hfirst := Draft.clear_shift hb ha.clear
  have hclear := hsecond.trans (.trans ⟨fun h i hi hlt hmem => h i hmem hlt hi,
    fun h i hi hlt hmem => h i hmem hlt hi⟩ hfirst.symm)
  rcases hGafter.outcome with ⟨hfree, e, hok, he⟩ | ⟨htaken, err, herr⟩
  · obtain ⟨-, e', hok', he'⟩ := hFafter.outcome.resolve_right fun h => h.1 (hclear.1 hfree)
    refine .inl ⟨e, e', hok, hok', _, Draft.rearranged_swap hd hbase ha hda hb hdb
      he.toGains he'.toGains ?_ ?_ ?_⟩
    · exact elaborateStatement_accounted hcx hda hok
    · exact elaborateStatement_accounted hcx hdb hok'
    · rw [he.scope_eq, he'.scope_eq, (hF.emits hrun).scope_eq, (hG.emits hrun').scope_eq]
      exact hd.scope_fixed fun _ hi => blockSwap_of_lt hi
  · obtain ⟨-, err', herr'⟩ := hFafter.outcome.resolve_left fun h => htaken (hclear.2 h.1)
    exact .inr ⟨err, err', herr, herr'⟩

/-- Two statements may change places. -/
theorem elaborateStatement_swap (hcx : cx.Safe) (hs : s.expr.callees = [])
    (ht : t.expr.callees = []) :
    Replaces (Draft.Similar base)
      (elaborateStatement cx s >>= fun _ => elaborateStatement cx t)
      (elaborateStatement cx t >>= fun _ => elaborateStatement cx s) := by
  rintro d _ ⟨rfl, σ, hrefl⟩
  have hd : d.Accounted := hrefl.accounted
  cases hrun : (elaborateStatement cx s).run d with
  | error err =>
    cases hrun' : (elaborateStatement cx t).run d with
    | error err' => exact .inr ⟨err, err', run_andThen_error hrun, run_andThen_error hrun'⟩
    | ok r =>
      obtain ⟨err', herr'⟩ := elaborateStatement_fails_after hcx hd hs ht hrun hrun'
      exact .inr ⟨err, err', run_andThen_error hrun, (run_andThen hrun').trans herr'⟩
  | ok r =>
    obtain ⟨u, da⟩ := r
    cases hrun' : (elaborateStatement cx t).run d with
    | error err' =>
      obtain ⟨err, herr⟩ := elaborateStatement_fails_after hcx hd ht hs hrun' hrun
      exact .inr ⟨err, err', (run_andThen hrun).trans herr, run_andThen_error hrun'⟩
    | ok r =>
      obtain ⟨u', db⟩ := r
      rw [run_andThen hrun, run_andThen hrun']
      rcases elaborateStatement_swap_ok hcx hd hrefl.base_le hs ht hrun hrun' with
        ⟨e, e', hok, hok', he⟩ | ⟨err, err', herr, herr'⟩
      · exact .inl ⟨_, _, e, e', hok, hok', he⟩
      · exact .inr ⟨err, err', herr, herr'⟩

theorem elaborateStatements_eq_forM (cx : Context) (statements : List Statement) :
    elaborateStatements cx statements = statements.forM (elaborateStatement cx) := by
  induction statements with
  | nil => rfl
  | cons s rest ih =>
    rw [elaborateStatements, ih]
    rfl

namespace Draft

theorem Similar.refl_right (h : Similar base d d') : Similar base d' d' := by
  obtain ⟨σ, h⟩ := h
  exact ⟨_, .refl h.accounted' (h.netlist.size_eq ▸ h.base_le)⟩

theorem Similar.trans (h : Similar base d d') {d'' : Draft} (h' : Similar base d' d'') :
    Similar base d d'' := by
  obtain ⟨σ, h⟩ := h
  obtain ⟨τ, h'⟩ := h'
  exact ⟨_, h.trans h'⟩

end Draft

/-- Steps lead to similar drafts in another order and as other steps, if any two of them may change
places and each of them does what the other one does. -/
theorem similar_forM_perm {ι : Type} {step step' : ι → Elab Unit} {l l' : List ι}
    (hperm : l.Perm l') (hstep : ∀ a ∈ l, Keeps (Draft.Similar base) (step a) (step a))
    (hswap : ∀ a ∈ l, ∀ b ∈ l, a ≠ b → Replaces (Draft.Similar base)
      (step a >>= fun _ => step b) (step b >>= fun _ => step a))
    (hother : ∀ a ∈ l, Keeps (Draft.Similar base) (step a) (step' a)) :
    Keeps (Draft.Similar base) (l.forM step) (l'.forM step') := by
  have hrefl : ∀ d d', Draft.Similar base d d' → Draft.Similar base d' d' :=
    fun _ _ h => h.refl_right
  have htrans : ∀ d d' d'', Draft.Similar base d d' → Draft.Similar base d' d'' →
      Draft.Similar base d d'' := fun _ _ _ h h' => h.trans h'
  have horder : Keeps (Draft.Similar base) (l.forM step) (l'.forM step) :=
    keeps_forM_perm hrefl htrans hperm hstep hswap
  refine horder.trans hrefl htrans (Keeps.replaces (keeps_forM fun a ha => ?_))
  exact hother a (hperm.mem_iff.2 ha)

/-- Statements that call no module may be elaborated in any order, and for any program. -/
theorem elaborateStatements_perm (hcx : cx.Safe) (hcx' : cx'.Safe) (hbase : oneId < base)
    (hperm : statements.Perm statements') (hcalls : ∀ s ∈ statements, s.expr.callees = []) :
    Keeps (Draft.Similar base) (elaborateStatements cx statements)
      (elaborateStatements cx' statements') := by
  rw [elaborateStatements_eq_forM, elaborateStatements_eq_forM]
  exact similar_forM_perm hperm
    (fun s hs => elaborateStatement_keeps hcx hcx hbase (hcalls s hs))
    (fun s hs t ht _ => elaborateStatement_swap hcx (hcalls s hs) (hcalls t ht))
    fun s hs => elaborateStatement_keeps hcx hcx' hbase (hcalls s hs)

end NandHdl
