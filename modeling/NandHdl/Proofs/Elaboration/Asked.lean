-- SUMMARY: Which parts of an expression elaboration asks for, and in which draft (`Query.Asks`), and that every instance comes from a call that it asks for (`Expr.covered`).
import NandHdl.Proofs.Elaboration.SingleDrivers
import NandHdl.Proofs.Elaboration.ValueWidths

/-!
# What elaboration asks for

Elaboration does not look at every part of an expression. It asks for all bits of it or for one, and
then it asks for bits of the parts that it needs. A concatenation of which one bit is asked for asks
one of its parts, and an index or a slice that is asked past its end asks for nothing.

A query is a request for bits in a draft. One query asks the next one in the draft in which
elaboration gets to it. If a query is answered, then so are the queries that it leads to, and each
instance that is made in the meantime comes from a call among them.
-/

namespace NandHdl

variable {cx : Context} {d d' : Draft} {target : Option String}

/-! ## Lists of steps -/

namespace Elab

variable {α β : Type} {f : α → Elab β} {xs ys : List α} {bs : List β}

theorem mapM_append_eq_ok :
    ((xs ++ ys).mapM f).run d = .ok (bs, d') ↔ ∃ bs₁ d₁ bs₂, (xs.mapM f).run d = .ok (bs₁, d₁) ∧
      (ys.mapM f).run d₁ = .ok (bs₂, d') ∧ bs = bs₁ ++ bs₂ := by
  rw [List.mapM_append, bind_eq_ok]
  constructor
  · rintro ⟨bs₁, d₁, hxs, h⟩
    obtain ⟨bs₂, d₂, hys, h⟩ := bind_eq_ok.1 h
    obtain ⟨rfl, rfl⟩ := pure_eq_ok.1 h
    exact ⟨bs₁, d₁, bs₂, hxs, hys, rfl⟩
  · rintro ⟨bs₁, d₁, bs₂, hxs, hys, rfl⟩
    exact ⟨bs₁, d₁, hxs, bind_eq_ok.2 ⟨bs₂, d', hys, rfl⟩⟩

theorem mapM_cons_eq_ok {x : α} :
    ((x :: xs).mapM f).run d = .ok (bs, d') ↔ ∃ b d₁ rest, (f x).run d = .ok (b, d₁) ∧
      (xs.mapM f).run d₁ = .ok (rest, d') ∧ bs = b :: rest := by
  rw [List.mapM_cons, bind_eq_ok]
  constructor
  · rintro ⟨b, d₁, hx, h⟩
    obtain ⟨rest, d₂, hxs, h⟩ := bind_eq_ok.1 h
    obtain ⟨rfl, rfl⟩ := pure_eq_ok.1 h
    exact ⟨b, d₁, rest, hx, hxs, rfl⟩
  · rintro ⟨b, d₁, rest, hx, hxs, rfl⟩
    exact ⟨b, d₁, hx, bind_eq_ok.2 ⟨rest, d', hxs, rfl⟩⟩

theorem length_mapM (h : (xs.mapM f).run d = .ok (bs, d')) : bs.length = xs.length := by
  induction xs generalizing d bs with
  | nil =>
    obtain ⟨rfl, -⟩ := pure_eq_ok.1 h
    rfl
  | cons x rest ih =>
    obtain ⟨b, d₁, bs, -, hrest, rfl⟩ := mapM_cons_eq_ok.1 h
    rw [List.length_cons, List.length_cons, ih hrest]

end Elab

open Elab

namespace Draft

/-- Between the two drafts instance `i` is made. -/
structure Makes (i : InstanceId) (d d' : Draft) : Prop where
  le : d.netlist.instances.size ≤ i
  lt : i < d'.netlist.instances.size

variable {d₁ d₂ : Draft} {i : InstanceId}

theorem Makes.split (h : Makes i d d') (d₁ : Draft) : Makes i d d₁ ∨ Makes i d₁ d' :=
  (Nat.lt_or_ge i d₁.netlist.instances.size).imp (⟨h.le, ·⟩) (⟨·, h.lt⟩)

theorem SameInstances.not_makes (h : d.SameInstances d') : ¬ Makes i d d' := by
  intro hmakes
  have hlt := hmakes.lt
  rw [show d'.netlist.instances = d.netlist.instances from h] at hlt
  exact Nat.not_lt.2 hmakes.le hlt

/-- Nothing is made after the last change of the instances. -/
theorem Makes.before_same (h : Makes i d d') (hsame : d₁.SameInstances d') : Makes i d d₁ :=
  (h.split d₁).resolve_right hsame.not_makes

end Draft

open Draft

/-- An instance that is made by a row of steps is made by one of them. -/
theorem Elab.mapM_makes {α β : Type} {f : α → Elab β} {xs : List α} {bs : List β} {i : InstanceId}
    (h : (xs.mapM f).run d = .ok (bs, d')) (hi : Makes i d d') :
    ∃ before x after bs₁ d₁ b d₂ bs₂, xs = before ++ x :: after ∧
      (before.mapM f).run d = .ok (bs₁, d₁) ∧ (f x).run d₁ = .ok (b, d₂) ∧
        (after.mapM f).run d₂ = .ok (bs₂, d') ∧ Makes i d₁ d₂ := by
  induction xs generalizing d bs with
  | nil =>
    obtain ⟨-, rfl⟩ := pure_eq_ok.1 h
    exact absurd hi (SameInstances.not_makes rfl)
  | cons x rest ih =>
    obtain ⟨b, d₁, bs₂, hx, hrest, -⟩ := mapM_cons_eq_ok.1 h
    rcases hi.split d₁ with hhere | hlater
    · exact ⟨[], x, rest, [], d, b, d₁, bs₂, rfl, rfl, hx, hrest, hhere⟩
    · obtain ⟨before, y, after, bs₁, d₂, c, d₃, bs₃, rfl, hbefore, hy, hafter, hmakes⟩ :=
        ih hrest hlater
      exact ⟨x :: before, y, after, b :: bs₁, d₂, c, d₃, bs₃, rfl,
        mapM_cons_eq_ok.2 ⟨b, d₁, bs₁, hx, hbefore, rfl⟩, hy, hafter, hmakes⟩

/-! ## Several expressions -/

theorem Expr.bitsAll_eq_mapM (cx : Context) (es : List Expr) :
    Expr.bitsAll cx es = es.mapM (Expr.bits cx) := by
  induction es with
  | nil => rw [Expr.bitsAll, List.mapM_nil]
  | cons e rest ih => rw [Expr.bitsAll, List.mapM_cons, ih]

theorem Expr.lowBits_eq_mapM (cx : Context) (es : List Expr) :
    Expr.lowBits cx es = es.mapM fun e => e.bit cx 0 := by
  induction es with
  | nil => rw [Expr.lowBits, List.mapM_nil]
  | cons e rest ih => rw [Expr.lowBits, List.mapM_cons, ih]

/-! ## Queries -/

/-- A request for bits of an expression. -/
structure Query where
  expr : Expr
  /-- The bit that is asked for, none for all of them. -/
  bit : Option Nat
  /-- The draft in which elaboration asks. -/
  draft : Draft

namespace Query

/-- The step of elaboration that answers a query. A call may have a target. -/
def run (cx : Context) (target : Option String) (q : Query) : Elab Bits :=
  match q.expr, q.bit with
  | .call callee args, _ =>
    cx.call callee target args.length (Expr.lowBits cx args) (Expr.bitsAll cx args)
  | e, none => e.bits cx
  | e, some k => do return [← e.bit cx k]

/-- The query is answered, and elaboration goes on with the draft. -/
def Answered (cx : Context) (target : Option String) (q : Query) (d' : Draft) : Prop :=
  ∃ bits, (q.run cx target).run q.draft = .ok (bits, d')

/-- To answer the first query elaboration asks the second one. -/
inductive Asks (cx : Context) : Query → Query → Prop
  | index {e : Expr} {i : Nat} {d : Draft} : Asks cx ⟨.index e i, none, d⟩ ⟨e, some i, d⟩
  | indexBit {e : Expr} {i : Nat} {d : Draft} : Asks cx ⟨.index e i, some 0, d⟩ ⟨e, some i, d⟩
  | slice {e : Expr} {first last : Nat} {d : Draft} :
      Asks cx ⟨.slice e first last, none, d⟩ ⟨e, none, d⟩
  | sliceBit {e : Expr} {first last k : Nat} {d : Draft} (hk : k ≤ last - first) :
      Asks cx ⟨.slice e first last, some k, d⟩ ⟨e, some (first + k), d⟩
  | part {before after : List Expr} {e : Expr} {values : List Bits} {d d₁ : Draft}
      (hbefore : (Expr.bitsAll cx before).run d = .ok (values, d₁)) :
      Asks cx ⟨.concat (before ++ e :: after), none, d⟩ ⟨e, none, d₁⟩
  | partBit {parts : List Expr} {e : Expr} {i offset k : Nat} {d : Draft}
      (hlocate : locateConcatBit (Expr.widths d.scope cx.program {} parts) k = some (i, offset))
      (he : parts[i]? = some e) : Asks cx ⟨.concat parts, some k, d⟩ ⟨e, some offset, d⟩
  | arg {callee : String} {before after : List Expr} {e : Expr} {bit : Option Nat}
      {values : List Bits} {d d₁ : Draft} (hcallee : isPrimitive callee = false)
      (hbefore : (Expr.bitsAll cx before).run d = .ok (values, d₁)) :
      Asks cx ⟨.call callee (before ++ e :: after), bit, d⟩ ⟨e, none, d₁⟩
  | low {callee : String} {before after : List Expr} {e : Expr} {bit : Option Nat} {ids : Bits}
      {d d₁ : Draft} (hcallee : isPrimitive callee = true)
      (hbefore : (Expr.lowBits cx before).run d = .ok (ids, d₁)) :
      Asks cx ⟨.call callee (before ++ e :: after), bit, d⟩ ⟨e, some 0, d₁⟩

/-- One query leads to another, by any number of requests. -/
abbrev Leads (cx : Context) : Query → Query → Prop := Relation.ReflTransGen (Asks cx)

variable {e : Expr} {k : Nat} {q q' : Query}

theorem answered_of_bits {bits : Bits} (h : (e.bits cx).run d = .ok (bits, d')) :
    Answered cx none ⟨e, none, d⟩ d' := by
  refine ⟨bits, ?_⟩
  cases e with
  | call callee args =>
    rw [Expr.bits] at h
    exact h
  | _ => exact h

theorem answered_of_bit {id : SignalId} (h : (e.bit cx k).run d = .ok (id, d')) :
    Answered cx none ⟨e, some k, d⟩ d' := by
  cases e with
  | call callee args =>
    rw [Expr.bit] at h
    obtain ⟨bits, d₁, hcall, h⟩ := bind_eq_ok.1 h
    obtain ⟨-, rfl⟩ := pure_eq_ok.1 h
    exact ⟨bits, hcall⟩
  | _ => exact ⟨[id], bind_eq_ok.2 ⟨id, d', h, rfl⟩⟩

/-- The right-hand side of a statement is a query for all of its bits. -/
theorem answered_of_statement {cx : Context} {s : Statement} {bits : Bits}
    (h : (s.bits cx).run d = .ok (bits, d')) :
    Answered cx (some s.target) ⟨s.expr, none, d⟩ d' := by
  refine ⟨bits, ?_⟩
  unfold Statement.bits at h
  unfold run
  cases hexpr : s.expr with
  | _ =>
    simp only [hexpr] at h ⊢
    exact h

/-- A query for one bit of an expression that is no call. -/
theorem bit_of_answered (hcall : ∀ callee args, e ≠ .call callee args)
    (h : Answered cx target ⟨e, some k, d⟩ d') : ∃ id, (e.bit cx k).run d = .ok (id, d') := by
  obtain ⟨bits, h⟩ := h
  cases e with
  | call callee args => exact absurd rfl (hcall callee args)
  | _ =>
    obtain ⟨id, d₁, hbit, h⟩ := bind_eq_ok.1 h
    obtain ⟨-, rfl⟩ := pure_eq_ok.1 h
    exact ⟨id, hbit⟩

section

variable {R : Draft → Draft → Prop} [IsPreorder Draft R]

theorem bitsAll_answered (hcx : cx.Respects R) {before after : List Expr}
    {values more : List Bits} {d₁ d₂ : Draft}
    (hbefore : (Expr.bitsAll cx before).run d = .ok (values, d₁))
    (hall : (Expr.bitsAll cx (before ++ e :: after)).run d = .ok (more, d₂)) :
    ∃ d', Answered cx none ⟨e, none, d₁⟩ d' ∧ R d' d₂ := by
  rw [Expr.bitsAll_eq_mapM] at hbefore hall
  obtain ⟨_, _, _, hbefore', hrest, -⟩ := mapM_append_eq_ok.1 hall
  cases hbefore.symm.trans hbefore'
  obtain ⟨bits, d', _, hbits, hafter, -⟩ := mapM_cons_eq_ok.1 hrest
  rw [← Expr.bitsAll_eq_mapM] at hafter
  exact ⟨d', answered_of_bits hbits, Expr.bitsAll_respects hcx _ _ _ _ hafter⟩

theorem lowBits_answered (hcx : cx.Respects R) {before after : List Expr} {ids more : Bits}
    {d₁ d₂ : Draft} (hbefore : (Expr.lowBits cx before).run d = .ok (ids, d₁))
    (hall : (Expr.lowBits cx (before ++ e :: after)).run d = .ok (more, d₂)) :
    ∃ d', Answered cx none ⟨e, some 0, d₁⟩ d' ∧ R d' d₂ := by
  rw [Expr.lowBits_eq_mapM] at hbefore hall
  obtain ⟨_, _, _, hbefore', hrest, -⟩ := mapM_append_eq_ok.1 hall
  cases hbefore.symm.trans hbefore'
  obtain ⟨id, d', _, hid, hafter, -⟩ := mapM_cons_eq_ok.1 hrest
  rw [← Expr.lowBits_eq_mapM] at hafter
  exact ⟨d', answered_of_bit hid, Expr.lowBits_respects hcx _ _ _ _ hafter⟩

/-- What leads to an answer is answered itself, on the way to that answer. -/
theorem Asks.answered (hcx : cx.Respects R) (h : q.Asks cx q')
    (htarget : cx.RespectsFor target R) (hq : q.Answered cx target d') :
    ∃ d₁, q'.Answered cx none d₁ ∧ R d₁ d' := by
  cases h with
  | index =>
    obtain ⟨bits, h⟩ := hq
    simp only [run, Expr.bits] at h
    obtain ⟨id, d₁, hid, h⟩ := bind_eq_ok.1 h
    obtain ⟨-, rfl⟩ := pure_eq_ok.1 h
    exact ⟨_, answered_of_bit hid, refl _⟩
  | indexBit =>
    obtain ⟨id, h⟩ := bit_of_answered (fun _ _ h => Expr.noConfusion h) hq
    rw [Expr.bit, if_pos rfl] at h
    exact ⟨d', answered_of_bit h, refl _⟩
  | @slice e first last =>
    obtain ⟨bits, h⟩ := hq
    simp only [run, Expr.bits] at h
    by_cases hrange : last < first
    · simp only [if_pos hrange] at h
      obtain ⟨_, _, hthrow, -⟩ := bind_eq_ok.1 h
      exact absurd hthrow throw_ne_ok
    · simp only [if_neg hrange] at h
      obtain ⟨base, d₁, hbase, h⟩ := bind_eq_ok.1 h
      obtain ⟨-, rfl⟩ := pure_eq_ok.1 h
      exact ⟨_, answered_of_bits hbase, refl _⟩
  | @sliceBit e first last k _ hk =>
    obtain ⟨id, h⟩ := bit_of_answered (fun _ _ h => Expr.noConfusion h) hq
    rw [Expr.bit] at h
    by_cases hrange : last < first
    · simp only [if_pos hrange] at h
      obtain ⟨_, _, hthrow, -⟩ := bind_eq_ok.1 h
      exact absurd hthrow throw_ne_ok
    · simp only [if_neg hrange, if_neg (Nat.not_lt.2 hk)] at h
      exact ⟨d', answered_of_bit h, refl _⟩
  | part hbefore =>
    obtain ⟨bits, h⟩ := hq
    simp only [run, Expr.bits] at h
    obtain ⟨values, d₁, hvalues, h⟩ := bind_eq_ok.1 h
    obtain ⟨-, rfl⟩ := pure_eq_ok.1 h
    exact bitsAll_answered hcx hbefore hvalues
  | partBit hlocate he =>
    obtain ⟨id, h⟩ := bit_of_answered (fun _ _ h => Expr.noConfusion h) hq
    rw [Expr.run_bit_concat rfl, hlocate] at h
    simp only [Expr.bitOfPart_eq he] at h
    exact ⟨d', answered_of_bit h, refl _⟩
  | arg hcallee hbefore =>
    obtain ⟨bits, h⟩ := hq
    obtain ⟨m, expand, values, d₁, hfind, hexpand, -, hvalues, hrun⟩ := Expr.call_module hcallee h
    obtain ⟨d₂, hd₂, hrest⟩ := bitsAll_answered hcx hbefore hvalues
    exact ⟨d₂, hd₂, IsTrans.trans _ _ _ hrest (htarget expand hexpand _ m hfind _ _ _ _ hrun)⟩
  | low hcallee hbefore =>
    obtain ⟨bits, h⟩ := hq
    obtain ⟨-, a, b, d₁, out, hids, -, hout⟩ := Expr.call_primitive hcallee h
    obtain ⟨d₂, hd₂, hrest⟩ := lowBits_answered hcx hbefore hids
    exact ⟨d₂, hd₂, IsTrans.trans _ _ _ hrest
      (hout.elim (hcx.nand a b _ _ _) (hcx.dff a b _ _ _))⟩

/-- A relation that expressions respect holds between the drafts in which elaboration asks. -/
theorem Asks.related (hcx : cx.Respects R) (h : q.Asks cx q') : R q.draft q'.draft := by
  cases h with
  | part hbefore | arg hcallee hbefore => exact Expr.bitsAll_respects hcx _ _ _ _ hbefore
  | low hcallee hbefore => exact Expr.lowBits_respects hcx _ _ _ _ hbefore
  | index | indexBit | slice | sliceBit hk | partBit hlocate he => exact refl _

theorem run_respects (hcx : cx.Respects R) (htarget : cx.RespectsFor target R) (q : Query) :
    (q.run cx target).Respects R := by
  unfold run
  split
  · exact hcx.call _ htarget _ (Expr.lowBits_respects hcx _) (Expr.bitsAll_respects hcx _)
  · exact Expr.bits_respects hcx _
  · exact (Expr.bit_respects hcx _ _).bind fun _ => respects_pure _

theorem Leads.related (hcx : cx.Respects R) (h : q.Leads cx q') : R q.draft q'.draft := by
  induction h with
  | refl => exact refl _
  | tail _ hasks ih => exact IsTrans.trans _ _ _ ih (hasks.related hcx)

/-- All that a query leads to is answered on the way to its answer. -/
theorem Leads.answered (hcx : cx.Respects R) (h : q.Leads cx q')
    (htarget : cx.RespectsFor target R) (hq : q.Answered cx target d') :
    (∃ t d₁, q'.Answered cx t d₁) ∧ R q'.draft d' := by
  induction h using Relation.ReflTransGen.head_induction_on generalizing target d' with
  | refl =>
    obtain ⟨bits, hrun⟩ := hq
    exact ⟨⟨target, d', bits, hrun⟩, run_respects hcx htarget _ _ _ _ hrun⟩
  | head hasks _ ih =>
    obtain ⟨d₁, hd₁, hrest⟩ := hasks.answered hcx htarget hq
    obtain ⟨hanswered, hmore⟩ := ih hcx.expand hd₁
    exact ⟨hanswered, IsTrans.trans _ _ _ hmore hrest⟩

end

end Query

/-! ## Calls of modules -/

variable {program : Program} {limit depth : Nat} {callee : String} {args : List Expr}

/-- How a call of a module is expanded, with `depth` levels of nesting left for its body: the arguments
are elaborated from the draft `d` on, the instance is opened, and its body is elaborated in the scope
`child`. -/
structure Inlining (program : Program) (limit depth : Nat) (callee : String) (args : List Expr)
    (target : Option String) (d : Draft) where
  decl : ModuleDecl
  values : List Bits
  first : Bits
  child : Scope
  valued : Draft
  opened : Draft
  finished : Draft
  callee_eq : isPrimitive callee = false
  find_eq : program.find? callee = some decl
  length_eq : args.length = decl.params.length
  values_run : (Expr.bitsAll (contextAt program limit (depth + 1)) args).run d =
    .ok (values, valued)
  open_run : (openInstance decl values target).run valued = .ok ((first, child), opened)
  body_run : (elaborateBody (contextAt program limit depth) decl.statements).run
    { opened with scope := child } = .ok ((), finished)

theorem Inlining.length_values (x : Inlining program limit depth callee args target d) :
    x.values.length = x.decl.params.length := by
  have hrun := x.values_run
  rw [Expr.bitsAll_eq_mapM] at hrun
  exact (length_mapM hrun).trans x.length_eq

theorem inlining_of_call {bits : Bits} (hcallee : isPrimitive callee = false)
    (h : ((contextAt program limit depth).call callee target args.length
      (Expr.lowBits (contextAt program limit depth) args)
      (Expr.bitsAll (contextAt program limit depth) args)).run d = .ok (bits, d')) :
    ∃ (k : Nat) (x : Inlining program limit k callee args target d),
      depth = k + 1 ∧ d' = { x.finished with scope := x.opened.scope } := by
  obtain ⟨m, _, values, d₁, hfind, hexpand, hlength, hvalues, h⟩ := Expr.call_module hcallee h
  obtain ⟨k, rfl, rfl⟩ := contextAt_expand hexpand
  obtain ⟨child, d₂, d₃, hopen, hbody, rfl⟩ := instantiate_eq_ok h
  exact ⟨k, ⟨m, values, bits, child, d₁, d₂, d₃, hcallee, hfind, hlength, hvalues, hopen, hbody⟩,
    rfl, rfl⟩

namespace Query

/-- To answer the query elaboration calls `callee` on `args` for a target, or without one, in the
draft `e`. Only the query itself may have a target. -/
inductive Calls (cx : Context) :
    Option String → Query → String → List Expr → Option String → Draft → Prop
  | itself {target : Option String} {callee : String} {args : List Expr} {bit : Option Nat}
      {d : Draft} : Calls cx target ⟨.call callee args, bit, d⟩ callee args target d
  | asked {target t : Option String} {q q' : Query} {callee : String} {args : List Expr} {e : Draft}
      (hasks : q.Asks cx q') (hcalls : Calls cx none q' callee args t e) :
      Calls cx target q callee args t e

/-- To answer the query elaboration expands a call that makes instance `i`. What the expansion has
led to grows to the netlist of `d'`. -/
def Inlines (program : Program) (limit depth : Nat) (target : Option String) (q : Query)
    (d' : Draft) (i : InstanceId) : Prop :=
  ∃ (callee : String) (args : List Expr) (t : Option String) (e : Draft) (k : Nat)
    (x : Inlining program limit k callee args t e), depth = k + 1 ∧
      q.Calls (contextAt program limit depth) target callee args t e ∧
        Makes i x.valued x.finished ∧ x.finished.netlist.Grows d'.netlist

variable {q q' : Query} {i : InstanceId} {d₁ : Draft}

theorem Inlines.of_asks (hasks : q.Asks (contextAt program limit depth) q')
    (h : q'.Inlines program limit depth none d₁ i) (hgrows : d₁.netlist.Grows d'.netlist) :
    q.Inlines program limit depth target d' i := by
  obtain ⟨callee, args, t, e, k, x, hdepth, hcalls, hmakes, hgrown⟩ := h
  exact ⟨callee, args, t, e, k, x, hdepth, .asked hasks hcalls, hmakes, hgrown.trans hgrows⟩

end Query

/-! ## Where instances come from -/

namespace Expr

/-- Every instance that is made for the expression comes from a call that elaboration asks for. -/
def Covered (program : Program) (limit depth : Nat) (e : Expr) : Prop :=
  ∀ {target : Option String} {bit : Option Nat} {d d' : Draft} {i : InstanceId},
    Query.Answered (contextAt program limit depth) target ⟨e, bit, d⟩ d' → Makes i d d' →
      Query.Inlines program limit depth target ⟨e, bit, d⟩ d' i

/-- Nothing is made for an expression that has no parts. -/
theorem covered_of_respects {e : Expr}
    (h : ∀ target bit d, (Query.run (contextAt program limit depth) target ⟨e, bit, d⟩).Respects
      SameInstances) : Covered program limit depth e := by
  rintro target bit d d' i ⟨bits, hrun⟩ hmakes
  exact absurd hmakes (SameInstances.not_makes (h target bit d _ _ _ hrun))

theorem number_covered (value : UInt64) : Covered program limit depth (.number value) := by
  refine covered_of_respects fun target bit d => ?_
  cases bit with
  | none =>
    simp only [Query.run, Expr.bits]
    exact respects_pure _
  | some k =>
    simp only [Query.run, Expr.bit]
    exact (respects_pure _).bind fun _ => respects_pure _

theorem ident_covered (name : String) : Covered program limit depth (.ident name) := by
  refine covered_of_respects fun target bit d => ?_
  cases bit with
  | none =>
    simp only [Query.run, Expr.bits]
    exact bitsOf_respects name
  | some k =>
    simp only [Query.run, Expr.bit]
    exact (namedBit_respects name k).bind fun _ => respects_pure _

theorem member_covered (object : Expr) (field : String) :
    Covered program limit depth (.member object field) := by
  refine covered_of_respects fun target bit d => ?_
  cases bit with
  | none =>
    simp only [Query.run, Expr.bits]
    exact (memberOf_respects object field).bind fun name => bitsOf_respects name
  | some k =>
    simp only [Query.run, Expr.bit]
    exact ((memberOf_respects object field).bind fun name => namedBit_respects name k).bind fun _ =>
      respects_pure _

theorem index_covered {object : Expr} (hobject : Covered program limit depth object)
    (position : Nat) : Covered program limit depth (.index object position) := by
  rintro target bit d d' i hanswered hmakes
  cases bit with
  | none =>
    obtain ⟨bits, h⟩ := hanswered
    simp only [Query.run, Expr.bits] at h
    obtain ⟨id, d₁, hid, h⟩ := bind_eq_ok.1 h
    obtain ⟨-, rfl⟩ := pure_eq_ok.1 h
    exact (hobject (Query.answered_of_bit hid) hmakes).of_asks .index .refl
  | some k =>
    obtain ⟨id, h⟩ := Query.bit_of_answered (fun _ _ h => Expr.noConfusion h) hanswered
    rw [Expr.bit] at h
    split at h
    · next hk =>
      subst hk
      exact (hobject (Query.answered_of_bit h) hmakes).of_asks .indexBit .refl
    · obtain ⟨-, rfl⟩ := pure_eq_ok.1 h
      exact absurd hmakes (SameInstances.not_makes rfl)

theorem slice_covered {object : Expr} (hobject : Covered program limit depth object)
    (first last : Nat) : Covered program limit depth (.slice object first last) := by
  rintro target bit d d' i hanswered hmakes
  cases bit with
  | none =>
    obtain ⟨bits, h⟩ := hanswered
    simp only [Query.run, Expr.bits] at h
    split at h
    · obtain ⟨_, _, hthrow, -⟩ := bind_eq_ok.1 h
      exact absurd hthrow throw_ne_ok
    · obtain ⟨base, d₁, hbase, h⟩ := bind_eq_ok.1 h
      obtain ⟨-, rfl⟩ := pure_eq_ok.1 h
      exact (hobject (Query.answered_of_bits hbase) hmakes).of_asks .slice .refl
  | some k =>
    obtain ⟨id, h⟩ := Query.bit_of_answered (fun _ _ h => Expr.noConfusion h) hanswered
    rw [Expr.bit] at h
    split at h
    · obtain ⟨_, _, hthrow, -⟩ := bind_eq_ok.1 h
      exact absurd hthrow throw_ne_ok
    · split at h
      · obtain ⟨-, rfl⟩ := pure_eq_ok.1 h
        exact absurd hmakes (SameInstances.not_makes rfl)
      · next hk =>
        have hasks : Query.Asks (contextAt program limit depth) ⟨.slice object first last, some k, d⟩
            ⟨object, some (first + k), d⟩ := .sliceBit (Nat.not_lt.1 hk)
        exact (hobject (Query.answered_of_bit h) hmakes).of_asks hasks .refl

section

variable {es : List Expr} {i : InstanceId}

/-- Among several expressions, one makes the instance. -/
theorem bitsAll_makes (hes : ∀ e ∈ es, Covered program limit depth e) {values : List Bits}
    (h : (Expr.bitsAll (contextAt program limit depth) es).run d = .ok (values, d'))
    (hmakes : Makes i d d') : ∃ before e after values₁ d₁, es = before ++ e :: after ∧
      (Expr.bitsAll (contextAt program limit depth) before).run d = .ok (values₁, d₁) ∧
        Query.Inlines program limit depth none ⟨e, none, d₁⟩ d' i := by
  rw [bitsAll_eq_mapM] at h
  obtain ⟨before, e, after, values₁, d₁, bits, d₂, values₂, rfl, hbefore, he, hafter, hhere⟩ :=
    mapM_makes h hmakes
  rw [← bitsAll_eq_mapM] at hbefore hafter
  have hgrows := Expr.bitsAll_respects (contextAt_grows program limit depth) _ _ _ _ hafter
  obtain ⟨callee, args, t, e', k, x, hdepth, hcalls, hx, hgrown⟩ :=
    hes e (List.mem_append_right _ List.mem_cons_self) (Query.answered_of_bits he) hhere
  exact ⟨before, e, after, values₁, d₁, rfl, hbefore, callee, args, t, e', k, x, hdepth, hcalls, hx,
    hgrown.trans hgrows⟩

theorem lowBits_makes (hes : ∀ e ∈ es, Covered program limit depth e) {ids : Bits}
    (h : (Expr.lowBits (contextAt program limit depth) es).run d = .ok (ids, d'))
    (hmakes : Makes i d d') : ∃ before e after ids₁ d₁, es = before ++ e :: after ∧
      (Expr.lowBits (contextAt program limit depth) before).run d = .ok (ids₁, d₁) ∧
        Query.Inlines program limit depth none ⟨e, some 0, d₁⟩ d' i := by
  rw [lowBits_eq_mapM] at h
  obtain ⟨before, e, after, ids₁, d₁, id, d₂, ids₂, rfl, hbefore, he, hafter, hhere⟩ :=
    mapM_makes h hmakes
  rw [← lowBits_eq_mapM] at hbefore hafter
  have hgrows := Expr.lowBits_respects (contextAt_grows program limit depth) _ _ _ _ hafter
  obtain ⟨callee, args, t, e', k, x, hdepth, hcalls, hx, hgrown⟩ :=
    hes e (List.mem_append_right _ List.mem_cons_self) (Query.answered_of_bit he) hhere
  exact ⟨before, e, after, ids₁, d₁, rfl, hbefore, callee, args, t, e', k, x, hdepth, hcalls, hx,
    hgrown.trans hgrows⟩

end

theorem concat_covered {parts : List Expr} (hparts : ∀ e ∈ parts, Covered program limit depth e) :
    Covered program limit depth (.concat parts) := by
  rintro target bit d d' i hanswered hmakes
  cases bit with
  | none =>
    obtain ⟨bits, h⟩ := hanswered
    simp only [Query.run, Expr.bits] at h
    obtain ⟨values, d₁, hvalues, h⟩ := bind_eq_ok.1 h
    obtain ⟨-, rfl⟩ := pure_eq_ok.1 h
    obtain ⟨before, e, after, values₁, d₂, rfl, hbefore, hinlines⟩ :=
      bitsAll_makes hparts hvalues hmakes
    exact hinlines.of_asks (.part hbefore) .refl
  | some k =>
    obtain ⟨id, h⟩ := Query.bit_of_answered (fun _ _ h => Expr.noConfusion h) hanswered
    rw [Expr.run_bit_concat rfl] at h
    cases hlocate : locateConcatBit
        (Expr.widths d.scope (contextAt program limit depth).program {} parts) k with
    | none =>
      simp only [hlocate] at h
      obtain ⟨-, rfl⟩ := pure_eq_ok.1 h
      exact absurd hmakes (SameInstances.not_makes rfl)
    | some found =>
      obtain ⟨position, offset⟩ := found
      obtain ⟨w, hw, -, -⟩ := locateConcatBit_eq_some.1 hlocate
      have hlt := (List.getElem?_eq_some_iff.1 hw).1
      rw [length_widths] at hlt
      have he := List.getElem?_eq_getElem hlt
      simp only [hlocate, Expr.bitOfPart_eq he] at h
      exact (hparts _ (List.getElem_mem hlt) (Query.answered_of_bit h) hmakes).of_asks
        (.partBit hlocate he) .refl

theorem call_covered {callee : String} {args : List Expr}
    (hargs : ∀ e ∈ args, Covered program limit depth e) :
    Covered program limit depth (.call callee args) := by
  rintro target bit d d' i ⟨bits, h⟩ hmakes
  rw [Query.run] at h
  cases hcallee : isPrimitive callee with
  | true =>
    obtain ⟨-, a, b, d₁, out, hids, -, hout⟩ := Expr.call_primitive hcallee h
    have hgrows : d₁.netlist.Grows d'.netlist := hout.elim
      (respectsAll_grows.emitNand a b _ _ _) (respectsAll_grows.dff a b _ _ _)
    have hsame : d₁.SameInstances d' := hout.elim
      (respectsSteps_sameInstances.emitNand a b _ _ _) (respectsSteps_sameInstances.dff a b _ _ _)
    obtain ⟨before, e, after, ids, d₂, rfl, hbefore, hinlines⟩ :=
      lowBits_makes hargs hids (hmakes.before_same hsame)
    exact hinlines.of_asks (.low hcallee hbefore) hgrows
  | false =>
    obtain ⟨k, x, rfl, rfl⟩ := inlining_of_call hcallee h
    rcases hmakes.split x.valued with hearlier | hhere
    · have hopened := respectsAll_grows.openInstance _ _ _ _ _ _ x.open_run
      have hbody := elaborateBody_grows program limit k _ _ _ _ x.body_run
      obtain ⟨before, e, after, values, d₂, rfl, hbefore, hinlines⟩ :=
        bitsAll_makes hargs x.values_run hearlier
      exact hinlines.of_asks (.arg hcallee hbefore) (hopened.trans hbody)
    · exact ⟨callee, args, target, d, k, x, rfl, .itself, ⟨hhere.le, hhere.lt⟩, .refl⟩

mutual

theorem covered (program : Program) (limit depth : Nat) : ∀ e : Expr, Covered program limit depth e
  | .number value => number_covered value
  | .ident name => ident_covered name
  | .index object position => index_covered (covered program limit depth object) position
  | .slice object first last => slice_covered (covered program limit depth object) first last
  | .member object field => member_covered object field
  | .concat parts => concat_covered (all_covered program limit depth parts)
  | .call _ args => call_covered (all_covered program limit depth args)

theorem all_covered (program : Program) (limit depth : Nat) :
    ∀ es : List Expr, ∀ e ∈ es, Covered program limit depth e
  | [] => fun _ h => absurd h List.not_mem_nil
  | e :: rest => List.forall_mem_cons.2
    ⟨covered program limit depth e, all_covered program limit depth rest⟩

end

end Expr

end NandHdl
