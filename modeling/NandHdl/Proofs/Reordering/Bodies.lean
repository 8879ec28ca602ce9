-- SUMMARY: A body that calls no module leads to similar drafts in every order of its statements, or fails in every order (`elaborateBody_perm`).
import NandHdl.Proofs.Reordering.Declarations

/-!
# Bodies in another order

Width inference finds the same widths in every order, so the same names are declared with the same
widths. That holds as long as the statements ask for the widths of names. A statement that asks for
the width of a further output is one that reads it, and without calls of modules there is no such
output: the body fails in every order.
-/

namespace NandHdl

open Elab

variable {d d' e b : Draft} {F : Fragment} {cx cx' : Context} {s t : Statement}
  {statements statements' : List Statement}

/-! ## Scopes without members -/

/-- No further output of an instance is bound. -/
def Scope.NoMembers (s : Scope) : Prop :=
  ∀ x : String, ¬Dotless x → s.lookup? x = none ∧ s.buses[x]? = none

theorem dotless_bitName {x : String} (hx : Dotless x) (i : Nat) : Dotless (bitName x i) :=
  not_mem_bitName rfl (by decide) (by decide) hx i

theorem Scope.NoMembers.bits? {s : Scope} (h : s.NoMembers) {x : String} (hx : ¬Dotless x) :
    s.bits? x = none := by
  rw [bits?_of_scalar (h x hx).2, (h x hx).1]
  rfl

theorem Scope.NoMembers.bind {s : Scope} (h : s.NoMembers) {x : String} (hx : Dotless x)
    (bits : Bits) : (s.bind x bits).NoMembers := by
  intro z hz
  have hne : x ≠ z := fun heq => hz (heq ▸ hx)
  have hbit : ∀ i, bitName x i ≠ z := fun i heq => hz (heq ▸ dotless_bitName hx i)
  rw [lookup?_bind, entryOf_of_ne hne.symm hbit, Option.none_or, buses_bind, if_neg hne]
  exact h z hz

/-! ## Values that are not there -/

/-- Without calls of modules a value that is found leaves the scope as it is. -/
theorem Expr.bits_emits (hb : b.Accounted) {x : Expr} (hcalls : x.callees = []) (hd : b.Emits d F)
    {bits : Bits} (h : (x.bits cx).run d = .ok (bits, e)) : ∃ G, b.Emits e G := by
  have hsame : b.Alongside id b d d := ⟨F, hd, F.map_id.symm ▸ hd⟩
  have hvalue : Mirrored id b b (List.map id) (x.bits cx) (x.bits cx) :=
    Expr.bits_mirrored hb.mirrors x hcalls
  rcases hvalue d d hsame with ⟨_, _, e', _, hrun, -, -, G, hG, -⟩ | ⟨err, _, herr, -⟩
  · cases h.symm.trans hrun
    exact ⟨G, hG⟩
  · exact nomatch h.symm.trans herr

mutual

/-- A value that asks for the width of a further output is not found where there is none. -/
theorem Expr.bits_fails (hb : b.Accounted) (hscope : b.scope.NoMembers) :
    ∀ x : Expr, x.callees = [] → ∀ r ∈ x.sizing, ¬Dotless r.text → ∀ {d F}, b.Emits d F →
      ∃ err, (x.bits cx).run d = .error err
  | .ident name, _, r, hr, hdot, d, F, hd => by
    obtain rfl := List.mem_singleton.1 hr
    exact bitsOf_error (hd.scope_eq ▸ hscope.bits? hdot)
  | .member (.ident name) field, _, r, hr, hdot, d, F, hd => by
    obtain rfl := List.mem_singleton.1 hr
    exact bitsOf_error (hd.scope_eq ▸ hscope.bits? hdot)
  | .concat parts, hcalls, r, hr, hdot, d, F, hd => by
    obtain ⟨err, herr⟩ := Expr.bitsAll_fails hb hscope parts hcalls r hr hdot hd
    refine ⟨err, ?_⟩
    rw [Expr.bits, StateT.run_bind, herr]
    rfl

theorem Expr.bitsAll_fails (hb : b.Accounted) (hscope : b.scope.NoMembers) :
    ∀ xs : List Expr, Expr.allCallees xs = [] → ∀ r ∈ Expr.allSizing xs, ¬Dotless r.text →
      ∀ {d F}, b.Emits d F → ∃ err, (Expr.bitsAll cx xs).run d = .error err
  | x :: rest, hcalls, r, hr, hdot, d, F, hd => by
    obtain ⟨hx, hrest⟩ := List.append_eq_nil_iff.1 hcalls
    rw [Expr.bitsAll, StateT.run_bind]
    cases hrun : (x.bits cx).run d with
    | error err => exact ⟨err, rfl⟩
    | ok answer =>
      rcases List.mem_append.1 hr with hr | hr
      · obtain ⟨err, herr⟩ := Expr.bits_fails hb hscope x hx r hr hdot hd
        exact nomatch hrun.symm.trans herr
      · obtain ⟨G, he⟩ := Expr.bits_emits hb hx hd hrun
        obtain ⟨err, herr⟩ := Expr.bitsAll_fails hb hscope rest hrest r hr hdot he
        refine ⟨err, ?_⟩
        show (do
          let values ← Expr.bitsAll cx rest
          return answer.1 :: values : Elab (List Bits)).run answer.2 = _
        rw [StateT.run_bind, herr]
        rfl

end

/-! ## Statements that fail -/

theorem elaborateStatement_fails (hd : d.Accounted) (hscope : d.scope.NoMembers)
    (hcalls : s.expr.callees = []) {r : Ref} (hr : r ∈ s.expr.sizing) (hdot : ¬Dotless r.text) :
    ∃ err, (elaborateStatement cx s).run d = .error err := by
  obtain ⟨target, x⟩ := s
  have hvalue : ∃ err, (Statement.bits cx ⟨target, x⟩).run d = .error err := by
    have hbits : ∃ err, (x.bits cx).run d = .error err :=
      Expr.bits_fails hd hscope x hcalls r hr hdot (Draft.Emits.refl hd.driven_size)
    cases x with
    | call callee args => exact absurd hr List.not_mem_nil
    | _ => exact hbits
  obtain ⟨err, herr⟩ := hvalue
  refine ⟨err, ?_⟩
  rw [elaborateStatement, StateT.run_bind, herr]
  rfl

theorem elaborateStatements_fails (hcx : cx.Safe) (hd : d.Accounted) (hscope : d.scope.NoMembers)
    (hcalls : ∀ t ∈ statements, t.expr.callees = []) (hs : s ∈ statements) {r : Ref}
    (hr : r ∈ s.expr.sizing) (hdot : ¬Dotless r.text) :
    ∃ err, (elaborateStatements cx statements).run d = .error err := by
  induction statements generalizing d with
  | nil => exact absurd hs List.not_mem_nil
  | cons t rest ih =>
    obtain ⟨ht, hrest⟩ := List.forall_mem_cons.1 hcalls
    rw [elaborateStatements]
    cases hrun : (elaborateStatement cx t).run d with
    | error err => exact ⟨err, run_andThen_error hrun⟩
    | ok answer =>
      obtain ⟨u, e⟩ := answer
      rw [run_andThen hrun]
      rcases List.mem_cons.1 hs with rfl | hs
      · obtain ⟨err, herr⟩ : ∃ err, (elaborateStatement cx s).run d = .error err :=
          elaborateStatement_fails hd hscope ht hr hdot
        cases hrun.symm.trans herr
      · obtain ⟨F, he⟩ := elaborateStatement_emits hd ht hrun
        exact ih (elaborateStatement_accounted hcx hd hrun) (he.scope_eq ▸ hscope) hrest hs

/-! ## Bodies -/

/-- The names that a body declares are names of one bit to the scope around it, and no member of an
instance is bound. -/
structure Scope.Surrounds (s : Scope) (statements : List Statement) : Prop where
  namePrefix_eq : s.namePrefix = ""
  noMembers : s.NoMembers
  target : ∀ t ∈ statements, s.isPort t.target = false → PlainName t.target ∧ s.widthOf t.target = 1

theorem Scope.Surrounds.perm {s : Scope} (h : s.Surrounds statements)
    (hperm : statements.Perm statements') : s.Surrounds statements' :=
  ⟨h.namePrefix_eq, h.noMembers, fun t ht => h.target t (hperm.mem_iff.2 ht)⟩

/-- What every declaration of a target keeps is so after all of them. -/
theorem declareTargets_induct {P : Draft → Prop} (hd : d.Accounted) (widths : NameMap Nat)
    (statements : List Statement) (hstart : P d)
    (hstep : ∀ {d' e : Draft} {t : Statement} {width : Nat}, t ∈ statements →
      d.scope.isPort t.target = false → P d' → d'.Declares t.target width e → P e) :
    ∃ e, (declareTargets widths {} statements).run d = .ok ((), e) ∧ e.Accounted ∧ P e := by
  rw [declareTargets_run hd]
  have hkeep : ∀ x ∈ freshTargets d.scope.isPort {} statements, ∀ {d' e : Draft} {width : Nat},
      P d' → d'.Declares x width e → P e := by
    intro x hx
    obtain ⟨hport, -, t, ht, rfl⟩ := mem_freshTargets.1 hx
    exact hstep ht hport
  generalize freshTargets d.scope.isPort {} statements = names at hkeep
  clear hstep
  induction names generalizing d with
  | nil => exact ⟨d, rfl, hd, hstart⟩
  | cons x rest ih =>
    obtain ⟨hx, hrest⟩ := List.forall_mem_cons.1 hkeep
    obtain ⟨e, hrun, he, hacc⟩ := declareTarget_run hd widths x
    obtain ⟨e', hrun', he', hkept⟩ := ih hacc (hx hstart he) hrest
    exact ⟨e', (run_andThen hrun).trans hrun', he', hkept⟩

/-- Declarations bind no members. -/
theorem declareTargets_noMembers (hd : d.Accounted) (hscope : d.scope.Surrounds statements)
    (widths : NameMap Nat) :
    ∃ e, (declareTargets widths {} statements).run d = .ok ((), e) ∧ e.Accounted ∧
      e.scope.NoMembers :=
  declareTargets_induct hd widths statements hscope.noMembers fun ht hport hnone he =>
    he.scope_eq ▸ hnone.bind (hscope.target _ ht hport).1.2 _

theorem declareBody_run (cx : Context) (statements : List Statement) (d : Draft) :
    (declareBody cx statements).run d =
      (declareTargets (inferWidths d.scope cx.program statements) {} statements).run d := by
  rw [declareBody, StateT.run_bind, scope_run, Except.ok_bind]

/-- A body that asks for the width of a further output fails. -/
theorem elaborateBody_fails (hcx : cx.Safe) (hd : d.Accounted)
    (hscope : d.scope.Surrounds statements) (hcalls : ∀ t ∈ statements, t.expr.callees = [])
    (hs : s ∈ statements) {r : Ref} (hr : r ∈ s.expr.sizing) (hdot : ¬Dotless r.text) :
    ∃ err, (elaborateBody cx statements).run d = .error err := by
  obtain ⟨e, hrun, he, hnone⟩ := declareTargets_noMembers hd hscope
    (inferWidths d.scope cx.program statements)
  rw [elaborateBody, run_andThen ((declareBody_run cx statements d).trans hrun)]
  exact elaborateStatements_fails hcx he hnone hcalls hs hr hdot

/-- In another order of its statements a body leads to a similar draft, or it fails as well. -/
theorem elaborateBody_perm (hcx : cx.Safe) (hcx' : cx'.Safe) (hd : d.Accounted)
    (hscope : d.scope.Surrounds statements) (hcalls : ∀ t ∈ statements, t.expr.callees = [])
    (hacyclic : ∀ x, ¬Relation.TransGen (d.scope.SizedBy statements) x x)
    (hperm : statements.Perm statements') :
    (∃ e e', (elaborateBody cx statements).run d = .ok ((), e) ∧
      (elaborateBody cx' statements').run d = .ok ((), e') ∧
        Draft.Similar d.netlist.signals.size e e') ∨
    ∃ err err', (elaborateBody cx statements).run d = .error err ∧
      (elaborateBody cx' statements').run d = .error err' := by
  by_cases hsizing : ∀ t ∈ statements, ∀ r ∈ t.expr.sizing, Dotless r.text
  · have hsizes : d.scope.Sizes statements :=
      ⟨hcalls, hsizing, fun t ht hport =>
        ⟨(hscope.target t ht hport).1.2, (hscope.target t ht hport).2⟩⟩
    have hdeclare := declareTargets_perm hd (inferWidths d.scope cx.program statements)
      (inferWidths d.scope cx'.program statements') hperm
      (fun t ht hport => (hscope.target t ht hport).1.1)
      fun t ht hport => inferWidths_perm hsizes hperm.symm hacyclic ht hport
    rcases hdeclare with ⟨e, e', hrun, hrun', hsimilar⟩ | ⟨err, err', hrun, hrun'⟩
    · rw [← declareBody_run] at hrun hrun'
      rw [elaborateBody, elaborateBody, run_andThen hrun, run_andThen hrun']
      rcases elaborateStatements_perm hcx hcx' hd.one_lt hperm hcalls e e' hsimilar with
        ⟨_, _, f, f', hrest, hrest', hf⟩ | ⟨err, err', hrest, hrest'⟩
      · exact .inl ⟨f, f', hrest, hrest', hf⟩
      · exact .inr ⟨err, err', hrest, hrest'⟩
    · rw [← declareBody_run] at hrun hrun'
      exact .inr ⟨err, err', run_andThen_error hrun, run_andThen_error hrun'⟩
  · push Not at hsizing
    obtain ⟨s, hs, r, hr, hdot⟩ := hsizing
    obtain ⟨err, herr⟩ := elaborateBody_fails hcx hd hscope hcalls hs hr hdot
    obtain ⟨err', herr'⟩ := elaborateBody_fails hcx' hd (hscope.perm hperm)
      (fun t ht => hcalls t (hperm.mem_iff.2 ht)) (hperm.mem_iff.1 hs) hr hdot
    exact .inr ⟨err, err', herr, herr'⟩

end NandHdl
