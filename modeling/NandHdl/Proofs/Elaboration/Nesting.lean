-- SUMMARY: The runs of the bodies of a program, wherever in an expression a call stands (`NestedRun`): what their scopes start with (`NestedRun.scope_start`), and that every instance has one (`hasNestedRun_of_instance`).
import NandHdl.Proofs.Elaboration.Asked
import NandHdl.Proofs.Elaboration.Bindings

/-!
# Nested runs

The body of the top module has a run, and so has the body of every module that a statement of such a
run calls. The call may be the whole right-hand side, or it may be an argument of another call, or the
object of an index: it is found by following what elaboration asks for. Every instance of the netlist
has a run of its own.
-/

namespace NandHdl

open Elab Draft

variable {program : Program} {limit depth : Nat} {top : String} {cx : Context} {m : ModuleDecl}
  {start finish d d' e : Draft} {before after : List Statement} {s : Statement}

/-! ## Statements and their turns -/

/-- From the draft `start` on, the body of `m` has elaborated the statements `before` and got to the
draft `d`. -/
def ModuleDecl.Arrives (cx : Context) (m : ModuleDecl) (start : Draft) (before : List Statement)
    (d : Draft) : Prop :=
  ∃ d₁, (declareBody cx m.statements).run start = .ok ((), d₁) ∧
    (elaborateStatements cx before).run d₁ = .ok ((), d)

namespace ModuleDecl.Arrives

theorem of_body (hsplit : m.statements = before ++ s :: after)
    (hbody : (elaborateBody cx m.statements).run start = .ok ((), finish)) :
    ∃ d, m.Arrives cx start before d := by
  obtain ⟨d₁, d₂, d₃, hdeclare, hbefore, -, -⟩ := elaborateBody_split hsplit hbody
  exact ⟨d₂, d₁, hdeclare, hbefore⟩

/-- The next statement is elaborated, and then those that follow. -/
theorem next (h : m.Arrives cx start before d) (hsplit : m.statements = before ++ s :: after)
    (hbody : (elaborateBody cx m.statements).run start = .ok ((), finish)) :
    ∃ d', (elaborateStatement cx s).run d = .ok ((), d') ∧
      (elaborateStatements cx after).run d' = .ok ((), finish) := by
  obtain ⟨d₁, hdeclare, hbefore⟩ := h
  obtain ⟨e₁, e₂, d', hdeclare', hbefore', hs, hafter⟩ := elaborateBody_split hsplit hbody
  -- There is only one run.
  cases hdeclare.symm.trans hdeclare'
  cases hbefore.symm.trans hbefore'
  exact ⟨d', hs, hafter⟩

theorem related {R : Draft → Draft → Prop} [IsPreorder Draft R] (h : m.Arrives cx start before d)
    (hdeclare : (declareBody cx m.statements).Respects R)
    (hbefore : (elaborateStatements cx before).Respects R) : R start d := by
  obtain ⟨d₁, hrun, hrest⟩ := h
  exact IsTrans.trans _ _ _ (hdeclare _ _ _ hrun) (hbefore _ _ _ hrest)

/-- By then the scope has changed by bindings that a body may make. -/
theorem takesOnly (hm : m ∈ program.modules) (hsplit : m.statements = before ++ after)
    (h : m.Arrives (contextAt program limit depth) start before d) : start.TakesOnly program d := by
  refine h.related (declareBody_takesOnly _ fun s hs => .of_mem hm hs)
    (elaborateStatements_takesOnly fun s hs => .of_mem hm ?_)
  exact hsplit ▸ List.mem_append_left _ hs

/-- The right-hand side of the next statement is a query that gets its answer, and the scope changes
no more than it may until the body is done. -/
theorem answered (hm : m ∈ program.modules) (hsplit : m.statements = before ++ s :: after)
    (h : m.Arrives (contextAt program limit depth) start before d)
    (hbody : (elaborateBody (contextAt program limit depth) m.statements).run start =
      .ok ((), finish)) :
    ∃ d', Query.Answered (contextAt program limit depth) (some s.target) ⟨s.expr, none, d⟩ d' ∧
      d'.TakesOnly program finish := by
  obtain ⟨d₁, hs, hafter⟩ := h.next hsplit hbody
  obtain ⟨src, d₂, hsrc, hwiring⟩ := bind_eq_ok.1 hs
  have hwired := ((bitsOf_respects s.target).bind fun dst => respectsParts_sameScope.wire src dst)
    _ _ _ hwiring
  have hrest := elaborateStatements_takesOnly (fun r hr => .of_mem hm
    (hsplit ▸ List.mem_append_right _ (List.mem_cons_of_mem _ hr))) _ _ _ hafter
  exact ⟨d₂, Query.answered_of_statement hsrc,
    IsTrans.trans _ _ _ (SameScope.takesOnly hwired program) hrest⟩

theorem accounted (hstart : start.Accounted)
    (h : m.Arrives (contextAt program limit depth) start before d) : d.Accounted := by
  obtain ⟨d₁, hdeclare, hbefore⟩ := h
  have hcx := contextAt_safe program limit depth
  have h₁ := (declareBody_safe hstart (contextAt program limit depth) m.statements).of_run hdeclare
  exact ((elaborateStatements_safe hcx h₁.1.accounted before).of_run hbefore).1.accounted

end ModuleDecl.Arrives

/-! ## Calls -/

namespace Query

variable {q q' : Query} {target t : Option String} {callee : String} {args : List Expr}

theorem Asks.accounted (hcx : cx.Safe) (h : q.Asks cx q') (hq : q.draft.Accounted) :
    q'.draft.Accounted := by
  cases h with
  | part hbefore | arg hcallee hbefore =>
    exact ((Expr.all_safe hcx _).bitsAll hq |>.of_run hbefore).1.accounted
  | low hcallee hbefore => exact ((Expr.all_safe hcx _).lowBits hq |>.of_run hbefore).1.accounted
  | index | indexBit | slice | sliceBit hk | partBit hlocate he => exact hq

theorem Calls.related {R : Draft → Draft → Prop} [IsPreorder Draft R] (hcx : cx.Respects R)
    (h : q.Calls cx target callee args t e) : R q.draft e := by
  induction h with
  | itself => exact refl _
  | asked hasks _ ih => exact IsTrans.trans _ _ _ (hasks.related hcx) ih

theorem Calls.accounted (hcx : cx.Safe) (h : q.Calls cx target callee args t e)
    (hq : q.draft.Accounted) : e.Accounted := by
  induction h with
  | itself => exact hq
  | asked hasks _ ih => exact ih (hasks.accounted hcx hq)

theorem Calls.target_eq (h : q.Calls cx target callee args t e) : t = target ∨ t = none := by
  induction h with
  | itself => exact .inl rfl
  | asked _ _ ih => exact .inr (ih.elim id id)

end Query

/-! ## Runs -/

/-- In the elaboration of `top`, the body of an instance of `m` takes the draft `start` to `finish`,
with `depth` levels of nesting left. -/
inductive NestedRun (program : Program) (limit : Nat) (top : String) :
    Nat → ModuleDecl → Draft → Draft → Prop
  | top {m : ModuleDecl} {start finish : Draft} (hfind : program.find? top = some m)
      (hopen : (openTop m).run (.empty top) = .ok ((), start))
      (hbody : (elaborateBody (contextAt program limit limit) m.statements).run start =
        .ok ((), finish)) : NestedRun program limit top limit m start finish
  | call {depth : Nat} {m : ModuleDecl} {start finish d e : Draft} {before after : List Statement}
      {s : Statement} {callee : String} {args : List Expr} {t : Option String}
      (hrun : NestedRun program limit top (depth + 1) m start finish)
      (hsplit : m.statements = before ++ s :: after)
      (harrives : m.Arrives (contextAt program limit (depth + 1)) start before d)
      (hcalls : Query.Calls (contextAt program limit (depth + 1)) (some s.target)
        ⟨s.expr, none, d⟩ callee args t e) (x : Inlining program limit depth callee args t e) :
      NestedRun program limit top depth x.decl { x.opened with scope := x.child } x.finished

/-! ## Scopes of runs -/

/-- A property of full scopes that is kept by what bodies bind and by what instances bind as their
ports, and that an instance gets from its caller. -/
structure Scope.Invariant (program : Program) (P : Scope → Prop) : Prop where
  full : ∀ {s}, P s → s.Full
  bind : ∀ {s x} bits, program.Takes s x → P s → P (s.bind x bits)
  child : ∀ {s} moduleName namePrefix owner, P s → P (s.child moduleName namePrefix owner)
  port : ∀ m ∈ program.modules, ∀ q ∈ m.params ++ m.outputs, ∀ s bits, P s →
    P ((s.bind q.name bits).addPort q.name)

theorem Scope.full_invariant (program : Program) : Invariant program Full where
  full h := h
  bind bits _ h := h.bind _ bits
  child _ _ _ h := h
  port _ _ q _ _ bits h := h.bind q.name bits

theorem Scope.Invariant.becomes {P : Scope → Prop} (hP : Invariant program P) {s s' : Scope}
    (h : s.Becomes program s') (hs : P s) : P s' := by
  induction h with
  | refl => exact hs
  | tail _ hstep ih =>
    obtain ⟨x, bits, hx, rfl⟩ := hstep
    exact hP.bind bits hx ih

theorem Scope.full_constants (top : String) : (Draft.constants top).scope.Full := by
  have htop : (Scope.top top).Full := fun x w hw => by
    rw [Scope.top, Std.TreeMap.getElem?_emptyc] at hw
    exact absurd hw.symm (Option.some_ne_none _)
  exact (htop.bind zeroName [zeroId]).bind oneName [oneId]

/-- What the scope of an instance starts from is what the caller has bound by then. -/
theorem Inlining.takesOnly {callee : String} {args : List Expr} {t : Option String}
    (hm : m ∈ program.modules) (hsplit : m.statements = before ++ s :: after)
    (harrives : m.Arrives (contextAt program limit (depth + 1)) start before d)
    (hcalls : Query.Calls (contextAt program limit (depth + 1)) (some s.target) ⟨s.expr, none, d⟩
      callee args t e) (x : Inlining program limit depth callee args t e) :
    start.TakesOnly program x.valued := by
  have hcx := contextAt_takesOnly program limit (depth + 1)
  have hvalues := Expr.bitsAll_respects hcx _ _ _ _ x.values_run
  exact IsTrans.trans _ _ _ (harrives.takesOnly hm hsplit)
    (IsTrans.trans _ _ _ (hcalls.related hcx) hvalues)

/-- A call has the target of its statement, or none. -/
theorem Query.Calls.hasTarget {callee : String} {args : List Expr} {t : Option String} {q : Query}
    (hm : m ∈ program.modules) (hsplit : m.statements = before ++ s :: after)
    (h : q.Calls cx (some s.target) callee args t e) : ∀ x, t = some x → program.HasTarget x := by
  rintro x rfl
  rcases h.target_eq with heq | heq
  · exact Program.HasTarget.of_some (.of_split hm hsplit) x heq.symm
  · exact absurd heq (Option.some_ne_none x)

namespace NestedRun

theorem mem (h : NestedRun program limit top depth m start finish) : m ∈ program.modules := by
  cases h with
  | top hfind _ _ => exact List.mem_of_find?_eq_some hfind
  | call _ _ _ _ x => exact List.mem_of_find?_eq_some x.find_eq

theorem body (h : NestedRun program limit top depth m start finish) :
    (elaborateBody (contextAt program limit depth) m.statements).run start = .ok ((), finish) := by
  cases h with
  | top _ _ hbody => exact hbody
  | call _ _ _ _ x => exact x.body_run

/-- Every body starts in a scope that has what bindings keep. -/
theorem scope_start {P : Scope → Prop} (hP : Scope.Invariant program P)
    (hconstants : P (Draft.constants top).scope)
    (h : NestedRun program limit top depth m start finish) : P start.scope := by
  induction h with
  | @top m start finish hfind hopen hbody =>
    obtain ⟨l, hnames, -, hopened⟩ := openTop_scope hopen
    rw [hopened.scope_eq]
    refine Scope.bindPorts_keeps (fun b hb s hs => ?_) hconstants
    obtain ⟨q, hq, hname⟩ := List.mem_map.1 (hnames ▸ List.mem_map_of_mem hb)
    rw [← hname]
    exact hP.port m (List.mem_of_find?_eq_some hfind) q hq s b.2 hs
  | call hrun hsplit harrives hcalls x ih =>
    have hvalued := x.takesOnly hrun.mem hsplit harrives hcalls (hP.full ih)
    obtain ⟨-, s, hbecomes, hchild⟩ := openInstance_child (List.mem_of_find?_eq_some x.find_eq)
      (hcalls.hasTarget hrun.mem hsplit) x.open_run
    have hcaller := hP.becomes hvalued ih
    refine hchild P (hP.port _ (List.mem_of_find?_eq_some x.find_eq)) (hP.child _ _ _ ?_)
    exact hP.becomes (hbecomes (hP.full hcaller)) hcaller

theorem full (h : NestedRun program limit top depth m start finish) : start.scope.Full :=
  h.scope_start (Scope.full_invariant program) (Scope.full_constants top)

/-- The parameters are bound from outside. -/
theorem isPort_param (h : NestedRun program limit top depth m start finish) {q : Port}
    (hq : q ∈ m.params) : start.scope.isPort q.name = true := by
  cases h with
  | top hfind hopen hbody =>
    obtain ⟨l, hnames, -, hopened⟩ := openTop_scope hopen
    rw [hopened.scope_eq, Scope.isPort_bindPorts, hnames]
    exact .inl (List.mem_map_of_mem (List.mem_append_left _ hq))
  | call hrun hsplit harrives hcalls x =>
    obtain ⟨hport, -⟩ := openInstance_child (List.mem_of_find?_eq_some x.find_eq)
      (hcalls.hasTarget hrun.mem hsplit) x.open_run
    exact hport (Nat.le_of_eq x.length_values.symm) q hq

/-- All signals that a body starts with are accounted for. -/
theorem accounted (h : NestedRun program limit top depth m start finish) : start.Accounted := by
  induction h with
  | top hfind hopen hbody => exact (openTop_meets _ _).of_run hopen
  | @call depth _ _ _ _ _ _ _ _ _ _ _ hrun hsplit harrives hcalls x ih =>
    have hcx := contextAt_safe program limit (depth + 1)
    have hcall := hcalls.accounted hcx (harrives.accounted ih)
    obtain ⟨hvalued, hknown⟩ := ((Expr.all_safe hcx _).bitsAll hcall).of_run x.values_run
    obtain ⟨hopened, -, hchild⟩ :=
      (openInstance_safe hvalued.accounted x.decl hknown _).of_run x.open_run
    exact (hopened.accounted.onward_scope hchild).accounted

end NestedRun

/-! ## All instances -/

/-- Instance `i` of the netlist has a run of its own. -/
def HasNestedRun (program : Program) (limit : Nat) (top : String) (n : Netlist) (i : InstanceId) :
    Prop :=
  ∃ depth m start finish inst, NestedRun program limit top depth m start finish ∧
    start.scope.owner = i ∧ n.instances[i]? = some inst ∧ inst.moduleName = m.name

/-- An instance that is made by statements is made while the right-hand side of one of them is
elaborated. -/
theorem elaborateStatements_makes {statements : List Statement} {i : InstanceId}
    (h : (elaborateStatements (contextAt program limit depth) statements).run d = .ok ((), d'))
    (hmakes : Makes i d d') :
    ∃ before s after d₁ bits d₂, statements = before ++ s :: after ∧
      (elaborateStatements (contextAt program limit depth) before).run d = .ok ((), d₁) ∧
        (s.bits (contextAt program limit depth)).run d₁ = .ok (bits, d₂) ∧ Makes i d₁ d₂ ∧
          d₂.netlist.Grows d'.netlist := by
  induction statements generalizing d with
  | nil =>
    obtain ⟨-, rfl⟩ := pure_eq_ok.1 h
    exact absurd hmakes (SameInstances.not_makes rfl)
  | cons s rest ih =>
    obtain ⟨_, d₁, hs, hrest⟩ := bind_eq_ok.1 h
    rcases hmakes.split d₁ with hhere | hlater
    · obtain ⟨bits, d₂, hbits, hwiring⟩ := bind_eq_ok.1 hs
      have hsame : d₂.SameInstances d₁ := ((bitsOf_respects s.target).bind fun dst =>
        respectsSteps_sameInstances.wire bits dst) _ _ _ hwiring
      have hwired : d₂.netlist.Grows d₁.netlist := ((bitsOf_respects s.target).bind fun dst =>
        respectsParts_grows.wire bits dst) _ _ _ hwiring
      have hgrown := respectsAll_grows.statements
        (respectsAll_grows.contextAt program limit depth) rest _ _ _ hrest
      exact ⟨[], s, rest, d, bits, d₂, rfl, rfl, hbits, hhere.before_same hsame,
        hwired.trans hgrown⟩
    · obtain ⟨before, r, after, d₂, bits, d₃, rfl, hbefore, hbits, hmade, hgrown⟩ := ih hrest hlater
      exact ⟨s :: before, r, after, d₂, bits, d₃, rfl,
        bind_eq_ok.2 ⟨(), d₁, hs, hbefore⟩, hbits, hmade, hgrown⟩

/-- All instances that bodies make, if `depth` levels of nesting are left, have runs of their own. -/
def NestedCovered (program : Program) (limit : Nat) (top : String) (n : Netlist) (depth : Nat) :
    Prop :=
  ∀ {m : ModuleDecl} {start finish : Draft}, NestedRun program limit top depth m start finish →
    finish.netlist.Grows n → ∀ i, Makes i start finish → HasNestedRun program limit top n i

section

variable {n : Netlist}

/-- The instance of a call has the run of its body. -/
theorem Inlining.hasNestedRun {callee : String} {args : List Expr} {t : Option String}
    {x : Inlining program limit depth callee args t e}
    (htarget : ∀ y, t = some y → program.HasTarget y)
    (hrun : NestedRun program limit top depth x.decl { x.opened with scope := x.child } x.finished)
    (hgrows : x.finished.netlist.Grows n) :
    HasNestedRun program limit top n x.valued.netlist.instances.size := by
  obtain ⟨-, s, -, hchild⟩ := openInstance_child (List.mem_of_find?_eq_some x.find_eq) htarget
    x.open_run
  have howner : x.child.owner = x.valued.netlist.instances.size :=
    hchild (fun s => s.owner = x.valued.netlist.instances.size)
      (fun q _ s bits hs => (Scope.owner_bind s q.name bits).trans hs) rfl
  refine ⟨depth, x.decl, _, _, x.valued.nextInstance x.decl, hrun, howner, ?_, rfl⟩
  have hbody := elaborateBody_grows program limit depth _ _ _ _ x.body_run
  refine hgrows.inst_kept (hbody.inst_kept ?_)
  simp only [openInstance_instances x.open_run, Array.getElem?_push_size]

/-- An instance comes from a call in one of the statements: it is that of the call, or the body of the
call makes it. -/
theorem NestedCovered.of_nested
    (hnested : ∀ {k}, depth = k + 1 → NestedCovered program limit top n k) :
    NestedCovered program limit top n depth := by
  intro m start finish hrun hgrows i hmakes
  obtain ⟨_, d₁, hdeclare, hstatements⟩ := bind_eq_ok.1 hrun.body
  have hsame : start.SameInstances d₁ := respectsSteps_sameInstances.declareBody _ _ _ _ _ hdeclare
  have hmakes : Makes i d₁ finish := (hmakes.split d₁).resolve_left hsame.not_makes
  obtain ⟨before, s, after, d₂, bits, d₃, hsplit, hbefore, hbits, hmade, hgrown⟩ :=
    elaborateStatements_makes hstatements hmakes
  have harrives : m.Arrives (contextAt program limit depth) start before d₂ := ⟨d₁, hdeclare, hbefore⟩
  obtain ⟨callee, args, t, e, k, x, rfl, hcalls, hx, hgrown'⟩ :=
    Expr.covered program limit depth s.expr (Query.answered_of_statement hbits) hmade
  have hinner := NestedRun.call hrun hsplit harrives hcalls x
  have hfinal : x.finished.netlist.Grows n := (hgrown'.trans hgrown).trans hgrows
  -- The first instance that the expansion makes is that of the call, its body makes the others.
  rcases Nat.eq_or_lt_of_le hx.le with rfl | hgt
  · exact x.hasNestedRun (hcalls.hasTarget hrun.mem hsplit) hinner hfinal
  · refine hnested rfl hinner hfinal i ⟨?_, hx.lt⟩
    simp only [openInstance_instances x.open_run, Array.size_push]
    exact hgt

theorem nestedCovered (program : Program) (limit : Nat) (top : String) (n : Netlist) (depth : Nat) :
    NestedCovered program limit top n depth := by
  induction depth with
  | zero => exact NestedCovered.of_nested fun h => absurd h.symm (Nat.succ_ne_zero _)
  | succ depth ih =>
    apply NestedCovered.of_nested
    rintro k ⟨⟩
    exact ih

theorem hasNestedRun_of_instance {config : ElabConfig} (he : elaborate program top config = .ok n)
    {i : InstanceId} (hi : i < n.instances.size) :
    HasNestedRun program config.maxInlineDepth top n i := by
  obtain ⟨m, start, finish, hfind, hopen, hbody, rfl⟩ := elaborate_eq_ok he
  obtain ⟨-, hname⟩ := Program.find?_eq_some hfind
  obtain ⟨l, -, -, hopened⟩ := openTop_scope hopen
  have hrun : NestedRun program config.maxInlineDepth top config.maxInlineDepth m start finish :=
    .top hfind hopen hbody
  cases i with
  | zero =>
    have hgrows := elaborateBody_grows program config.maxInlineDepth config.maxInlineDepth _ _ _ _
      hbody
    have hfirst : start.netlist.instances[0]? = (Netlist.empty top).instances[0]? := by
      rw [hopened.instances_eq]
      rfl
    refine ⟨_, m, start, finish, _, hrun, ?_, hgrows.inst_kept hfirst, hname.symm⟩
    rw [hopened.scope_eq, Scope.owner_bindPorts]
    rfl
  | succ i =>
    refine nestedCovered program config.maxInlineDepth top _ _ hrun .refl (i + 1) ⟨?_, hi⟩
    rw [hopened.instances_eq]
    exact Nat.succ_le_succ (Nat.zero_le i)

end

end NandHdl
