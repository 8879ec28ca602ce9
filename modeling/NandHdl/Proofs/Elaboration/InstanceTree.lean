-- SUMMARY: The instances of an elaborated netlist form a tree (`elaborate_instanceTree`): every instance but the top stands in the body of one with a smaller number, and paths lead down from the top.
import NandHdl.Proofs.Elaboration.PortBlocks
import NandHdl.Proofs.Elaboration.Resolved

/-!
# The tree of instances

An instance is numbered when its arguments are there, and they may have made instances themselves. So
the instances of a body are not numbered in a row, and the parent of an instance need not be the one
before it. It is the one whose scope the call is elaborated in, and the calls that have led there are
followed through the runs of the bodies. Each of these runs starts in the scope of its instance.
-/

namespace NandHdl

open Elab Draft

/-! ## Calls that stand in a body -/

/-- The body contains a call of the module, anywhere in a right-hand side. -/
def ModuleDecl.CallsModule (m : ModuleDecl) (callee : String) : Prop :=
  isPrimitive callee = false ∧ ∃ s ∈ m.statements, ∃ args, s.expr.Contains (.call callee args)

namespace Query

variable {cx : Context} {q q' : Query} {target t : Option String} {callee : String}
  {args : List Expr} {e : Draft}

/-- Elaboration asks for parts of what it is asked for. -/
theorem Asks.hasPart (h : q.Asks cx q') : q.expr.HasPart q'.expr := by
  cases h with
  | index | indexBit => exact .index
  | slice | sliceBit => exact .slice
  | part => exact .concat (List.mem_append_right _ List.mem_cons_self)
  | partBit hlocate he => exact .concat (List.mem_of_getElem? he)
  | arg | low => exact .call (List.mem_append_right _ List.mem_cons_self)

theorem Calls.contains (h : q.Calls cx target callee args t e) :
    q.expr.Contains (.call callee args) := by
  induction h with
  | itself => exact .refl
  | asked hasks _ ih => exact .head hasks.hasPart ih

end Query

/-! ## Runs that lead to the netlist -/

variable {program : Program} {limit depth : Nat} {top : String} {m : ModuleDecl}
  {start finish d e : Draft}

section

variable {callee : String} {args : List Expr} {t target : Option String}

/-- A call is expanded in one way. -/
theorem Inlining.unique (x y : Inlining program limit depth callee args t e) : x = y := by
  obtain ⟨decl, values, first, child, valued, opened, finished, -, hfind, -, hvalues, hopen, hbody⟩ := x
  obtain ⟨decl', values', first', child', valued', opened', finished', -, hfind', -, hvalues', hopen',
    hbody'⟩ := y
  cases hfind.symm.trans hfind'
  cases hvalues.symm.trans hvalues'
  cases hopen.symm.trans hopen'
  cases hbody.symm.trans hbody'
  rfl

/-- What a call has led to is part of the answer to the query that it is made for. -/
theorem Inlining.grows {q : Query} (x : Inlining program limit depth callee args t e)
    (hcalls : q.Calls (contextAt program limit (depth + 1)) target callee args t e)
    (hq : q.Answered (contextAt program limit (depth + 1)) target d) :
    x.finished.netlist.Grows d.netlist := by
  have hcx := contextAt_grows program limit (depth + 1)
  induction hcalls generalizing d with
  | itself =>
    obtain ⟨bits, hrun⟩ := hq
    obtain ⟨k, y, hdepth, rfl⟩ := inlining_of_call x.callee_eq hrun
    cases hdepth
    exact x.unique y ▸ .refl
  | @asked target _ _ _ _ _ _ hasks _ ih =>
    have htarget : (contextAt program limit (depth + 1)).RespectsFor target Draft.Grows :=
      fun expand hsome _ m _ args =>
        respectsAll_grows.contextAt program limit (depth + 1) expand hsome m args target
    obtain ⟨d₁, hanswered, hgrows⟩ := hasks.answered hcx htarget hq
    exact (ih x hanswered).trans hgrows

end

namespace ModuleDecl.Arrives

variable {before after : List Statement} {s : Statement}
  (h : m.Arrives (contextAt program limit depth) start before d)

include h

/-- It is in the scope of the body that a statement has its turn. -/
theorem within (hsplit : m.statements = before ++ after) : start.Within program m d :=
  h.related (declareBody_within program _ m)
    (elaborateStatements_within program limit depth fun _ hr =>
      List.mem_map_of_mem (hsplit ▸ List.mem_append_left _ hr))

/-- The value of the statement is elaborated, and what that has led to stays. -/
theorem value (hsplit : m.statements = before ++ s :: after)
    (hbody : (elaborateBody (contextAt program limit depth) m.statements).run start =
      .ok ((), finish)) : ∃ bits d', (s.bits (contextAt program limit depth)).run d = .ok (bits, d') ∧
        d'.netlist.Grows finish.netlist := by
  obtain ⟨d₁, hs, hafter⟩ := h.next hsplit hbody
  obtain ⟨bits, d', hvalue, hwiring⟩ := bind_eq_ok.1 hs
  have hwired : d'.netlist.Grows d₁.netlist := ((bitsOf_respects s.target).bind fun dst =>
    respectsParts_grows.wire bits dst) _ _ _ hwiring
  exact ⟨bits, d', hvalue, hwired.trans (respectsAll_grows.statements
    (respectsAll_grows.contextAt program limit depth) after _ _ _ hafter)⟩

end ModuleDecl.Arrives

namespace NestedRun

variable {config : ElabConfig} {n : Netlist}

/-- All that a run makes is in the netlist. -/
theorem grows (he : elaborate program top config = .ok n)
    (h : NestedRun program config.maxInlineDepth top depth m start finish) :
    finish.netlist.Grows n := by
  induction h with
  | top hfind hopen hbody =>
    obtain ⟨m', e, e', hfind', hopen', hbody', rfl⟩ := elaborate_eq_ok he
    cases hfind.symm.trans hfind'
    cases hopen.symm.trans hopen'
    cases hbody.symm.trans hbody'
    exact .refl
  | call hrun hsplit harrives hcalls x ih =>
    obtain ⟨_, _, hvalue, hrest⟩ := harrives.value hsplit hrun.body
    have hcall := x.grows hcalls (Query.answered_of_statement hvalue)
    exact (hcall.trans hrest).trans ih

section

variable {before after : List Statement} {s : Statement} {callee : String} {args : List Expr}
  {t : Option String} (hsplit : m.statements = before ++ s :: after)
  (hcalls : Query.Calls (contextAt program limit (depth + 1)) (some s.target) ⟨s.expr, none, d⟩
    callee args t e) (x : Inlining program limit depth callee args t e)

include hsplit hcalls

theorem callsModule : m.CallsModule x.decl.name := by
  obtain ⟨-, hname⟩ := Program.find?_eq_some x.find_eq
  rw [hname]
  exact ⟨x.callee_eq, s, hsplit ▸ List.mem_append_right _ List.mem_cons_self, args, hcalls.contains⟩

/-- It is in the scope of the body that an instance is made for a call. -/
theorem valued_within (harrives : m.Arrives (contextAt program limit (depth + 1)) start before d) :
    start.Within program m x.valued := by
  have hcx := contextAt_within program limit (depth + 1) m
  exact IsTrans.trans _ _ _ (harrives.within hsplit) (IsTrans.trans _ _ _ (hcalls.related hcx)
    (Expr.bitsAll_respects hcx _ _ _ _ x.values_run))

end

/-- Every body starts in the scope of its instance. -/
theorem inside (h : NestedRun program limit top depth m start finish) : start.Inside program m := by
  induction h with
  | top hfind hopen _ => exact openTop_inside hfind hopen
  | call hrun hsplit harrives hcalls x ih =>
    obtain ⟨-, hname⟩ := Program.find?_eq_some x.find_eq
    have hvalued := ih.accrues (valued_within hsplit hcalls x harrives ih)
    exact openInstance_inside hvalued (hname.symm ▸ x.find_eq) (hcalls.hasTarget hrun.mem hsplit)
      x.open_run

end NestedRun

/-! ## The tree -/

namespace Netlist

/-- The modules from the top down to instance `i`. -/
inductive PathTo (n : Netlist) : InstanceId → List String → Prop
  | root {i : InstanceId} {inst : Instance} (hinst : n.instances[i]? = some inst)
      (hparent : inst.parent = none) : PathTo n i [inst.moduleName]
  | child {i j : InstanceId} {inst : Instance} {path : List String}
      (hinst : n.instances[i]? = some inst) (hparent : inst.parent = some j) (hpath : PathTo n j path) :
      PathTo n i (path ++ [inst.moduleName])

/-- Instances and flip-flops are numbered by their positions. -/
structure Ordered (n : Netlist) : Prop where
  inst : ∀ {i : InstanceId} {inst : Instance}, n.instances[i]? = some inst → inst.id = i
  dff : ∀ {i : Nat} {f : Dff}, n.dffs[i]? = some f → f.id = i

/-- Instance 0 is the top. Any other instance has a parent with a smaller number, the body of the
parent's module contains a call of its module, and its prefix is that of the parent, continued by its
module and its number. -/
structure InstanceTree (program : Program) (top : String) (n : Netlist) : Prop where
  root : n.instances[0]? = some { id := 0, moduleName := top, parent := none, namePrefix := "" }
  below : ∀ {i : InstanceId} {inst : Instance}, n.instances[i]? = some inst → 0 < i →
    ∃ j parent m, inst.parent = some j ∧ j < i ∧ n.Places program j parent m ∧
      m.CallsModule inst.moduleName ∧
      inst.namePrefix = parent.namePrefix ++ inst.moduleName ++ "_" ++ toString i ++ "_"

variable {n n' : Netlist} {i : InstanceId} {path : List String}

theorem Step.ordered (h : Step n n') (hn : n.Ordered) : n'.Ordered := by
  cases h with
  | flop h =>
    obtain ⟨signals, -, hn'⟩ := Except.bind_eq_ok.1 h
    cases hn'
    refine ⟨hn.inst, fun {i f} hf => ?_⟩
    simp only [Array.getElem?_push] at hf
    split at hf
    · next heq =>
      cases hf
      exact heq.symm
    · exact hn.dff hf
  | inst moduleName parent namePrefix =>
    refine ⟨fun {i inst} hi => ?_, hn.dff⟩
    simp only [addInstance, Array.getElem?_push] at hi
    split at hi
    · next heq =>
      cases hi
      exact heq.symm
    · exact hn.inst hi
  | input h | output h =>
    obtain ⟨signals, -, hn'⟩ := Except.bind_eq_ok.1 h
    cases hn'
    exact ⟨hn.inst, hn.dff⟩
  | named | signal | gate | clock => exact ⟨hn.inst, hn.dff⟩

theorem Grows.ordered (h : n.Grows n') (hn : n.Ordered) : n'.Ordered := by
  induction h with
  | refl => exact hn
  | tail _ hstep ih => exact hstep.ordered ih

theorem PathTo.pathWithin_eq (h : n.PathTo i path) {steps : Nat} (hsteps : path.length ≤ steps) :
    n.pathWithin steps i = path := by
  induction h generalizing steps with
  | root hinst hparent =>
    cases steps with
    | zero => exact absurd hsteps (Nat.not_succ_le_zero _)
    | succ steps => simp only [pathWithin, hinst, hparent, Option.map_none, Option.getD_none,
        List.nil_append]
  | child hinst hparent _ ih =>
    rw [List.length_append, List.length_singleton] at hsteps
    cases steps with
    | zero => exact absurd hsteps (Nat.not_succ_le_zero _)
    | succ steps => simp only [pathWithin, hinst, hparent, Option.map_some, Option.getD_some,
        ih (Nat.le_of_succ_le_succ hsteps)]

namespace InstanceTree

variable {program : Program} {top : String}

/-- Going up from an instance the numbers decrease, so the way is no longer than there are instances. -/
theorem length_le (h : n.InstanceTree program top) (hpath : n.PathTo i path) :
    path.length ≤ i + 1 := by
  induction hpath with
  | root => exact Nat.succ_le_succ (Nat.zero_le _)
  | @child i j inst path hinst hparent _ ih =>
    have hpos : 0 < i := by
      rcases Nat.eq_zero_or_pos i with rfl | hpos
      · cases h.root.symm.trans hinst
        cases hparent
      · exact hpos
    obtain ⟨j', -, -, hparent', hlt, -⟩ := h.below hinst hpos
    cases hparent.symm.trans hparent'
    rw [List.length_append, List.length_singleton]
    exact Nat.succ_le_succ (ih.trans hlt)

theorem instancePath_eq (h : n.InstanceTree program top) (hpath : n.PathTo i path)
    (hi : i < n.instances.size) : n.instancePath i = path :=
  hpath.pathWithin_eq ((h.length_le hpath).trans hi)

end InstanceTree

end Netlist

namespace NestedRun

variable {config : ElabConfig} {n : Netlist}

/-- The instance of a call stands where the call is made. -/
theorem instance_of_call (he : elaborate program top config = .ok n) {before after : List Statement}
    {s : Statement} {callee : String} {args : List Expr} {t : Option String}
    (hrun : NestedRun program config.maxInlineDepth top (depth + 1) m start finish)
    (hsplit : m.statements = before ++ s :: after)
    (harrives : m.Arrives (contextAt program config.maxInlineDepth (depth + 1)) start before d)
    (hcalls : Query.Calls (contextAt program config.maxInlineDepth (depth + 1)) (some s.target)
      ⟨s.expr, none, d⟩ callee args t e)
    (x : Inlining program config.maxInlineDepth depth callee args t e) :
    x.child.owner = x.valued.netlist.instances.size ∧
      n.instances[x.child.owner]? = some (x.valued.nextInstance x.decl) := by
  obtain ⟨howner, -⟩ := openInstance_owner (List.mem_of_find?_eq_some x.find_eq)
    (hcalls.hasTarget hrun.mem hsplit) x.open_run
  have hbody := elaborateBody_grows program config.maxInlineDepth depth _ _ _ _ x.body_run
  refine ⟨howner, (grows he (.call hrun hsplit harrives hcalls x)).inst_kept (hbody.inst_kept ?_)⟩
  simp only [howner, openInstance_instances x.open_run, Array.getElem?_push_size]

/-- With each level of nesting the path to the instance of a run gets longer by one module. -/
theorem path (he : elaborate program top config = .ok n)
    (h : NestedRun program config.maxInlineDepth top depth m start finish) :
    ∃ path, n.PathTo start.scope.owner path ∧ path.length + depth = config.maxInlineDepth + 1 := by
  induction h with
  | top hfind hopen hbody =>
    have hgrows := grows he (.top hfind hopen hbody)
    have hstart := elaborateBody_grows _ _ _ _ _ _ _ hbody
    obtain ⟨l, -, -, hopened⟩ := openTop_scope hopen
    have howner : (Draft.constants top).scope.owner = 0 := rfl
    rw [hopened.scope_eq, Scope.owner_bindPorts, howner]
    obtain ⟨haccrues, -⟩ := (openTop_opens hopen).1.accrues (atTop_constants _)
    have hroot := haccrues.grows.inst_kept (i := 0) rfl
    exact ⟨_, .root (hgrows.inst_kept (hstart.inst_kept hroot)) rfl, Nat.add_comm _ _⟩
  | call hrun hsplit harrives hcalls x ih =>
    obtain ⟨path, hpath, hlength⟩ := ih
    obtain ⟨-, hinst⟩ := instance_of_call he hrun hsplit harrives hcalls x
    have howner := (valued_within hsplit hcalls x harrives hrun.inside).scope.owner_eq
    refine ⟨_, .child hinst (congrArg some howner) hpath, ?_⟩
    rw [List.length_append, List.length_singleton, ← hlength]
    omega

end NestedRun

/-! ## Elaborated programs -/

variable {config : ElabConfig} {n : Netlist}

theorem instanceTree_of_elaborate (he : elaborate program top config = .ok n) :
    n.InstanceTree program top where
  root := by
    obtain ⟨_, -, haccrues⟩ := elaborate_accrues he
    exact haccrues.grows.inst_kept rfl
  below {i inst} hinst hpos := by
    have hlt := (Array.getElem?_eq_some_iff.1 hinst).1
    obtain ⟨_, _, _, _, _, hrun, howner, -⟩ := hasNestedRun_of_instance he hlt
    cases hrun with
    | top hfind hopen _ =>
      obtain ⟨l, -, -, hopened⟩ := openTop_scope hopen
      rw [hopened.scope_eq, Scope.owner_bindPorts] at howner
      exact absurd howner (Nat.ne_of_lt hpos)
    | call hrun hsplit harrives hcalls x =>
      obtain ⟨hnext, hinst'⟩ := NestedRun.instance_of_call he hrun hsplit harrives hcalls x
      cases hinst.symm.trans ((congrArg (n.instances[·]?) howner).symm.trans hinst')
      have hvalued := hrun.inside.accrues
        (NestedRun.valued_within hsplit hcalls x harrives hrun.inside)
      obtain ⟨parent, hplaces, hqual⟩ := hvalued.places
      have hopened := respectsAll_grows.openInstance _ _ _ _ _ _ x.open_run
      have hbody := elaborateBody_grows program config.maxInlineDepth _ _ _ _ _ x.body_run
      have hgrows := (hopened.trans hbody).trans
        (NestedRun.grows he (.call hrun hsplit harrives hcalls x))
      have hsize : x.valued.netlist.instances.size = i := hnext.symm.trans howner
      refine ⟨_, parent, _, rfl, hsize ▸ hvalued.owner_lt, hplaces.mono hgrows,
        NestedRun.callsModule hsplit hcalls x, ?_⟩
      rw [hqual, ← hsize]
      rfl

/-- For every instance there is a path that leads down to it from the top, through one module for each
level of nesting that it takes. -/
theorem pathTo_of_elaborate (he : elaborate program top config = .ok n) {i : InstanceId}
    (hi : i < n.instances.size) :
    ∃ path, n.PathTo i path ∧ path.length ≤ config.maxInlineDepth + 1 := by
  obtain ⟨depth, _, _, _, _, hrun, howner, -⟩ := hasNestedRun_of_instance he hi
  obtain ⟨path, hpath, hlength⟩ := NestedRun.path he hrun
  exact ⟨path, howner ▸ hpath, hlength ▸ Nat.le_add_right _ _⟩

/-- An elaborated netlist is numbered by position throughout, every signal belongs to an instance, and
the instances form a tree: each stands in the body of one before it, which calls its module, and has a
prefix that continues the prefix of that one. The path to an instance is that of the tree. -/
theorem elaborate_instanceTree (he : elaborate program top config = .ok n) :
    n.InstanceTree program top ∧ n.Numbered ∧ n.Ordered ∧ n.Owned ∧
      ∀ i < n.instances.size, n.PathTo i (n.instancePath i) := by
  have htree := instanceTree_of_elaborate he
  obtain ⟨_, -, haccrues⟩ := elaborate_accrues he
  refine ⟨htree, (elaborate_numbered he).1, ?_, elaborate_owned he, fun i hi => ?_⟩
  · refine haccrues.grows.ordered ⟨fun {i inst} hi => ?_, nofun⟩
    obtain ⟨hlt, heq⟩ := Array.getElem?_eq_some_iff.1 hi
    obtain rfl : i = 0 := Nat.lt_one_iff.1 hlt
    exact heq ▸ rfl
  · obtain ⟨path, hpath, -⟩ := pathTo_of_elaborate he hi
    rwa [htree.instancePath_eq hpath hi]

theorem elaborate_instanceTree_heldPair :
    ∃ n, elaborate heldPair "top" {} = .ok n ∧
      n.InstanceTree heldPair "top" ∧ n.Numbered ∧ n.Ordered ∧ n.Owned ∧
        ∀ i < n.instances.size, n.PathTo i (n.instancePath i) := by
  have hruns : (elaborate heldPair "top" {}).toBool = true := by decide +kernel
  cases he : elaborate heldPair "top" {} with
  | error e =>
    rw [he] at hruns
    exact absurd hruns Bool.false_ne_true
  | ok n => exact ⟨n, rfl, elaborate_instanceTree he⟩

end NandHdl
