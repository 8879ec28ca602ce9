-- SUMMARY: Bodies statement by statement: declared targets, the expansion of a call (`Expansion`), and the invariant that the statements keep (`Pending`).
import NandHdl.Proofs.Elaboration.Instances
import NandHdl.Proofs.Elaboration.Values
import NandHdl.Proofs.Elaboration.Widths

/-!
# Elaborated bodies

A statement adds to the draft and publishes members of its target. It rebinds no name that was read
before or that is a port or a target. So each name a statement reads has the bits it has when the
body is done, and the meaning of the statement does not depend on when one looks.

That a body only adds to the draft is shown by induction on the depth of nesting that is left.
-/

namespace NandHdl

/-- The bits of a name, none if it is not bound. -/
def Scope.bitsOf (s : Scope) (name : String) : Bits := (s.bits? name).getD []

theorem Scope.bits?_eq_bitsOf {s : Scope} {name : String} {bits : Bits}
    (h : s.bits? name = some bits) : s.bits? name = some (s.bitsOf name) := by
  rw [bitsOf, h, Option.getD_some]

variable {program : Program} {limit depth : Nat} {d d' : Draft} {m : ModuleDecl} {s : Statement}
  {u : Unit}

/-! ## Declarations -/

/-- Every target that is no port gets bits of its own, as many as were inferred. -/
theorem declareTargets_spec (hd : d.Lawful) {widths : NameMap Nat} {declared : NameSet}
    {statements : List Statement} (hplain : ∀ s ∈ statements, PlainName s.target)
    (hnodup : (statements.map Statement.target).Nodup)
    (hfresh : ∀ s ∈ statements, declared.contains s.target = false)
    (h : (declareTargets widths declared statements).run d = .ok (u, d')) :
    d.Rebinds d' d'.scope ∧
      d.scope.AgreesOn (fun x => Unindexed x ∧
        (x ∈ statements.map Statement.target → d.scope.isPort x = true)) d'.scope ∧
      ∀ s ∈ statements, d.scope.isPort s.target = true ∨ ∃ bits,
        d'.scope.bits? s.target = some bits ∧ bits.length = max 1 (widths.getD s.target 1) := by
  induction statements generalizing d declared with
  | nil =>
    obtain ⟨-, rfl⟩ := Elab.pure_eq_ok.1 h
    exact ⟨hd.adds_self, .refl _ _, nofun⟩
  | cons s rest ih =>
    obtain ⟨hs, hrest⟩ := List.forall_mem_cons.1 hplain
    obtain ⟨hnot, hnodup⟩ := List.nodup_cons.1 hnodup
    obtain ⟨hsfresh, hfresh⟩ := List.forall_mem_cons.1 hfresh
    obtain ⟨_, _, hscope, h⟩ := Elab.bind_eq_ok.1 h
    cases hscope
    rw [hsfresh, Bool.or_false] at h
    by_cases hport : d.scope.isPort s.target = true
    · rw [if_pos hport] at h
      obtain ⟨hbinds, hagrees, hbits⟩ := ih hd hrest hnodup hfresh h
      refine ⟨hbinds, hagrees.weaken ?_, List.forall_mem_cons.2 ⟨.inl hport, hbits⟩⟩
      rintro x ⟨hx, htarget⟩
      exact ⟨hx, fun hmem => htarget (List.mem_cons_of_mem _ hmem)⟩
    · rw [if_neg hport] at h
      obtain ⟨_, d₁, hdeclare, h⟩ := Elab.bind_eq_ok.1 h
      obtain ⟨bits, hdeclare⟩ := Elab.discard_eq_ok hdeclare
      obtain ⟨hbound, hlength⟩ := Elab.declare_spec hd hdeclare
      have hbind := Scope.bind_agreesOn (s := d.scope) hs.1 bits
      rw [← hbound.scope_eq] at hbind
      have hinsert : ∀ r ∈ rest, (declared.insert s.target).contains r.target = false := by
        intro r hr
        have hne : s.target ≠ r.target := fun heq => hnot (heq ▸ List.mem_map_of_mem hr)
        rw [Std.TreeSet.contains_insert, hfresh r hr, Bool.or_false, beq_eq_false_iff_ne]
        exact fun heq => hne (Std.LawfulEqCmp.compare_eq_iff_eq.1 heq)
      obtain ⟨hbinds, hagrees, hbits⟩ := ih hbound.lawful hrest hnodup hinsert h
      refine ⟨hbound.trans hbinds, ?_, List.forall_mem_cons.2 ⟨.inr ⟨bits, ?_, hlength⟩, ?_⟩⟩
      · refine (hbind.weaken ?_).trans (hagrees.weaken ?_)
        · rintro x ⟨hx, htarget⟩
          exact ⟨hx, fun heq => hport (heq ▸ htarget (heq ▸ List.mem_cons_self))⟩
        · rintro x ⟨hx, htarget⟩
          refine ⟨hx, fun hmem => ?_⟩
          rw [hbind.isPort_eq]
          exact htarget (List.mem_cons_of_mem _ hmem)
      · rw [hagrees.bits?_eq ⟨hs.1, fun hmem => absurd hmem hnot⟩, hbound.scope_eq]
        exact Scope.bits?_bind_self (Elab.ne_nil_of_length hlength)
      · intro r hr
        rw [← hbind.isPort_eq]
        exact hbits r hr

/-! ## Calls of modules -/

theorem Statement.callee?_eq_some {callee : String} :
    s.callee? = some callee ↔ ∃ args, s.expr = .call callee args ∧ isPrimitive callee = false := by
  unfold Statement.callee?
  cases hexpr : s.expr with
  | call name args =>
    simp only [Expr.call.injEq, Option.ite_none_left_eq_some, Option.some.injEq,
      Bool.not_eq_true]
    constructor
    · rintro ⟨hprimitive, rfl⟩
      exact ⟨args, ⟨rfl, rfl⟩, hprimitive⟩
    · rintro ⟨_, ⟨rfl, -⟩, hprimitive⟩
      exact ⟨hprimitive, rfl⟩
  | _ => simp

theorem contextAt_program (program : Program) (limit depth : Nat) :
    (contextAt program limit depth).program = program := by
  cases depth with
  | zero => rfl
  | succ depth => rfl

/-- A body in which modules may be called expands them by elaborating their bodies one level
deeper. -/
theorem contextAt_expand {expand : ModuleDecl → List Bits → Option String → Elab Bits}
    (h : (contextAt program limit depth).expand = some expand) :
    ∃ k, depth = k + 1 ∧ expand = fun m args target =>
      instantiate m args target (elaborateBody (contextAt program limit k) m.statements) := by
  cases depth with
  | zero => exact absurd h.symm (Option.some_ne_none _)
  | succ k =>
    cases h
    exact ⟨k, rfl, rfl⟩

/-- How the statement is elaborated if it calls a module, from the draft `d` before it to the draft
`d'` after it: the arguments are elaborated, the instance is opened, its body is elaborated in the
scope `child`, and the first output is wired to the target. -/
structure Expansion (program : Program) (limit depth : Nat) (s : Statement) (d d' : Draft) where
  callee : String
  args : List Expr
  decl : ModuleDecl
  values : List Bits
  first : Bits
  child : Scope
  valued : Draft
  opened : Draft
  finished : Draft
  bits : Bits
  expr_eq : s.expr = .call callee args
  callee_eq : isPrimitive callee = false
  find_eq : program.find? callee = some decl
  length_eq : args.length = decl.params.length
  values_run : (Expr.bitsAll (contextAt program limit (depth + 1)) args).run d =
    .ok (values, valued)
  open_run : (openInstance decl values (some s.target)).run valued = .ok ((first, child), opened)
  body_run : (elaborateBody (contextAt program limit depth) decl.statements).run
    { opened with scope := child } = .ok ((), finished)
  bits_eq : opened.scope.bits? s.target = some bits
  wire_run : (Elab.wire first bits).run { finished with scope := opened.scope } = .ok ((), d')

/-- A call of a module is expanded, if it is nested not too deep. -/
theorem expansion_of_run {callee : String} (hcallee : s.callee? = some callee)
    (h : (elaborateStatement (contextAt program limit depth) s).run d = .ok ((), d')) :
    ∃ k, depth = k + 1 ∧ Nonempty (Expansion program limit k s d d') := by
  obtain ⟨args, hexpr, hprimitive⟩ := Statement.callee?_eq_some.1 hcallee
  obtain ⟨src, d₁, hsrc, h⟩ := Elab.bind_eq_ok.1 h
  obtain ⟨dst, d₂, hdst, hwire⟩ := Elab.bind_eq_ok.1 h
  obtain ⟨hdst, rfl⟩ := Elab.bitsOf_eq_ok.1 hdst
  simp only [Statement.bits, hexpr] at hsrc
  obtain ⟨m, _, values, d₂, hfind, hexpand, hlength, hvalues, hsrc⟩ :=
    Expr.call_module hprimitive hsrc
  obtain ⟨k, rfl, rfl⟩ := contextAt_expand hexpand
  obtain ⟨child, d₃, d₄, hopen, hbody, rfl⟩ := instantiate_eq_ok hsrc
  exact ⟨k, rfl, ⟨callee, args, m, values, src, child, d₂, d₃, d₄, dst, hexpr, hprimitive,
    hfind, hlength, hvalues, hopen, hbody, hdst, hwire⟩⟩

/-- An expansion is a run of the statement. -/
theorem Expansion.run_eq (x : Expansion program limit depth s d d') :
    (elaborateStatement (contextAt program limit (depth + 1)) s).run d = .ok ((), d') := by
  have hnot := isPrimitive_eq_false.1 x.callee_eq
  have hbits : (s.bits (contextAt program limit (depth + 1))).run d =
      .ok (x.first, { x.finished with scope := x.opened.scope }) := by
    simp only [Statement.bits, x.expr_eq, Context.call, if_neg hnot.1, if_neg hnot.2, contextAt,
      x.find_eq, x.length_eq, ne_eq, not_true_eq_false, if_false]
    refine Elab.bind_eq_ok.2 ⟨_, _, x.values_run, Elab.bind_eq_ok.2 ⟨_, _, x.open_run, ?_⟩⟩
    refine Elab.bind_eq_ok.2 ⟨_, _, Elab.scope_run, Elab.bind_eq_ok.2 ⟨(), _, rfl, ?_⟩⟩
    exact Elab.bind_eq_ok.2 ⟨_, _, x.body_run, rfl⟩
  refine Elab.bind_eq_ok.2 ⟨_, _, hbits, Elab.bind_eq_ok.2 ⟨x.bits, _, ?_, x.wire_run⟩⟩
  exact Elab.bitsOf_eq_ok.2 ⟨x.bits_eq, rfl⟩

/-! ## Statements -/

/-- A statement that calls no module: the value carries the meaning of the right-hand side. -/
theorem Statement.bits_mean {cx : Context} {names : List String} {bound : String → Bits}
    {bits : Bits} (hd : d.Lawful) (hbinds : d.scope.Binds names bound)
    (hcallee : s.callee? = none) (hreads : s.readsOnly names)
    (h : (s.bits cx).run d = .ok (bits, d')) :
    d.Adds d' ∧ ∃ q, ∀ k, d'.Means bound q s.expr k (bits.getD k zeroId) := by
  unfold Statement.bits at h
  unfold Statement.readsOnly at hreads
  unfold Statement.callee? at hcallee
  cases hexpr : s.expr with
  | call callee args =>
    simp only [hexpr] at h hreads hcallee
    have hprimitive : isPrimitive callee = true := by simpa using hcallee
    obtain ⟨hadds, -, hq⟩ := Expr.primitive_mean hprimitive
      (Expr.all_mean cx bound args hreads).2.1 hd hbinds h
    exact ⟨hadds, hq⟩
  | _ =>
    simp only [hexpr] at h hreads
    obtain ⟨hadds, -, hq⟩ := (Expr.bits_mean cx bound _ hreads).1 hd hbinds h
    exact ⟨hadds, hq⟩

/-- Every bit of the target of such a statement means what the bit of the right-hand side means. -/
theorem Statement.value_of_run {cx : Context} {names : List String} {bound : String → Bits}
    (hd : d.Lawful) (hbinds : d.scope.Binds names bound) (hcallee : s.callee? = none)
    (hreads : s.readsOnly names) (hrun : (elaborateStatement cx s).run d = .ok ((), d')) :
    d.Adds d' ∧ ∃ bits q, d.scope.bits? s.target = some bits ∧
      ∀ (k : Nat) (id : SignalId), bits[k]? = some id → d'.Means bound q s.expr k id := by
  obtain ⟨src, d₁, hsrc, hrun⟩ := Elab.bind_eq_ok.1 hrun
  obtain ⟨bits, _, hbits, hwire⟩ := Elab.bind_eq_ok.1 hrun
  obtain ⟨hbits, rfl⟩ := Elab.bitsOf_eq_ok.1 hbits
  obtain ⟨hadds, q, hq⟩ := Statement.bits_mean hd hbinds hcallee hreads hsrc
  obtain ⟨hwired, hcopy⟩ := Elab.wire_spec hadds.lawful hwire
  refine ⟨hadds.trans hwired, bits, q, hadds.scope_eq ▸ hbits, fun k id hid v hv => ?_⟩
  rw [hcopy v hv.settled k id hid]
  exact (hq k).mono hwired.toExtends v hv

/-- The target is bound, and for a call of a module it is a port or wide enough for the result. -/
def Statement.Fits (program : Program) (scope : Scope) (s : Statement) : Prop :=
  ∃ bits, scope.bits? s.target = some bits ∧ ∀ {callee m}, s.callee? = some callee →
    program.find? callee = some m → scope.isPort s.target = true ∨ m.firstWidth ≤ bits.length

theorem Statement.Fits.of_agreesOn {P : String → Prop} {scope scope' : Scope}
    (h : s.Fits program scope) (hagrees : scope.AgreesOn P scope') (htarget : P s.target) :
    s.Fits program scope' := by
  obtain ⟨bits, hbits, hwide⟩ := h
  refine ⟨bits, (hagrees.bits?_eq htarget).trans hbits, fun hcallee hfind => ?_⟩
  rw [hagrees.isPort_eq]
  exact hwide hcallee hfind

/-- The statements `rest` are still to be elaborated, and `names` can be read by the first of them. -/
structure Pending (program : Program) (names : List String) (rest : List Statement) (d : Draft) :
    Prop where
  lawful : d.Lawful
  plain : ∀ s ∈ rest, PlainName s.target
  nodup : (rest.map Statement.target).Nodup
  fits : ∀ s ∈ rest, s.Fits program d.scope
  reads : ∀ i, (h : i < rest.length) →
    rest[i].readsOnly (names ++ (rest.take i).flatMap (Statement.members program))
  bound : ∀ x ∈ names, ∃ bits, d.scope.bits? x = some bits
  apart : ∀ x ∈ names, Unindexed x ∧ ∀ s ∈ rest, x ∉ s.members program

/-- The bodies of modules only add to a draft, if `depth` levels of nesting are left. -/
def BodiesGrow (program : Program) (limit depth : Nat) : Prop :=
  ∀ {m : ModuleDecl} {d d' : Draft}, m ∈ program.modules → d.Lawful → d.scope.Starts m →
    (elaborateBody (contextAt program limit depth) m.statements).run d = .ok ((), d') →
      d.Extends d' ∧ d.scope.AgreesOn (· ∈ m.portNames) d'.scope

/-- What an expansion leads to. -/
structure Expansion.Grows (x : Expansion program limit depth s d d') : Prop where
  adds : d.Adds x.valued
  opened : Opened x.decl s.target x.values x.valued x.first x.child x.opened
  body : { x.opened with scope := x.child }.Extends x.finished
  ports : x.child.AgreesOn (· ∈ x.decl.portNames) x.finished.scope
  wired : { x.finished with scope := x.opened.scope }.Adds d'

theorem Statement.mem_members (hp : program.Disciplined) {x : String}
    (h : x ∈ s.members program) : ∃ f, PlainName f ∧ x = memberName s.target f := by
  unfold Statement.members at h
  split at h
  · next m hm =>
    obtain ⟨callee, -, hfind⟩ := Option.bind_eq_some_iff.1 hm
    obtain ⟨out, hout, rfl⟩ := List.mem_map.1 h
    refine ⟨out.name, (hp m (Program.find?_eq_some hfind).1).plain _ ?_, rfl⟩
    apply List.mem_append_left
    exact List.mem_map_of_mem (List.mem_append_right _ (List.mem_of_mem_drop hout))
  · cases h

theorem Statement.not_mem_members (hp : program.Disciplined) {x : String} (hx : PlainName x) :
    x ∉ s.members program := by
  intro h
  obtain ⟨f, -, heq⟩ := Statement.mem_members hp h
  exact memberName_ne hx s.target f heq.symm

theorem Statement.members_of_callee {callee : String} (hcallee : s.callee? = some callee)
    (hfind : program.find? callee = some m) :
    s.members program = (m.outputs.drop 1).map fun out => memberName s.target out.name := by
  rw [Statement.members, hcallee, Option.bind_some, hfind]

namespace Pending

variable {names : List String} {rest : List Statement}

theorem binds (h : Pending program names rest d) : d.scope.Binds names d.scope.bitsOf := by
  intro x hx
  obtain ⟨bits, hbits⟩ := h.bound x hx
  exact Scope.bits?_eq_bitsOf hbits

theorem head_reads (h : Pending program names (s :: rest) d) : s.readsOnly names := by
  simpa using h.reads 0 (Nat.succ_pos _)

end Pending

theorem Expansion.args_read (x : Expansion program limit depth s d d') {names : List String}
    (hreads : s.readsOnly names) : Expr.allReadOnly names x.args := by
  rw [Statement.readsOnly, x.expr_eq] at hreads
  exact hreads

theorem Expansion.callee?_eq (x : Expansion program limit depth s d d') :
    s.callee? = some x.callee :=
  Statement.callee?_eq_some.2 ⟨x.args, x.expr_eq, x.callee_eq⟩

theorem Expansion.grows (hp : program.Disciplined) (hbodies : BodiesGrow program limit depth)
    {names : List String} {rest : List Statement} (h : Pending program names (s :: rest) d)
    (x : Expansion program limit depth s d d') : x.Grows := by
  obtain ⟨hmem, -⟩ := Program.find?_eq_some x.find_eq
  obtain ⟨hadds, hsizes, -⟩ := (Expr.all_mean _ _ x.args (x.args_read h.head_reads)).1 h.lawful
    h.binds x.values_run
  have hlength : x.values.length = x.decl.params.length := by
    have := congrArg List.length hsizes
    rw [Expr.sizes_eq, List.length_map, List.length_map] at this
    exact this.trans x.length_eq
  obtain ⟨bits, hbits, hwide⟩ := h.fits s List.mem_cons_self
  rw [← hadds.scope_eq] at hbits hwide
  have hopened := openInstance_opened hadds.lawful (hp _ hmem) (h.plain s List.mem_cons_self)
    hlength hbits (hwide x.callee?_eq x.find_eq) x.open_run
  obtain ⟨hbody, hports⟩ := hbodies hmem
    (hopened.extends_draft.lawful.rebinds_self x.child).lawful hopened.starts x.body_run
  obtain ⟨hwired, -⟩ := Elab.wire_spec (hbody.lawful.rebinds_self x.opened.scope).lawful x.wire_run
  exact ⟨hadds, hopened, hbody, hports, hwired⟩

namespace Expansion.Grows

variable {x : Expansion program limit depth s d d'}

theorem extends_draft (h : x.Grows) : d.Extends d' :=
  ⟨((h.adds.netlist.trans h.opened.extends_draft.netlist).trans h.body.netlist).trans
    h.wired.netlist, h.wired.lawful⟩

theorem caller (h : x.Grows) :
    d.scope.AgreesOn (fun y => Unindexed y ∧ y ∉ s.members program) d'.scope := by
  rw [h.wired.scope_eq, ← h.adds.scope_eq]
  refine h.opened.caller.weaken ?_
  rintro y ⟨hy, hmem⟩
  rw [Statement.members_of_callee x.callee?_eq x.find_eq] at hmem
  exact ⟨hy, fun out hout heq => hmem (List.mem_map.2 ⟨out, hout, heq⟩)⟩

theorem members_bound (h : x.Grows) :
    ∀ y ∈ s.members program, ∃ bits, d'.scope.bits? y = some bits := by
  intro y hy
  rw [Statement.members_of_callee x.callee?_eq x.find_eq] at hy
  obtain ⟨out, hout, rfl⟩ := List.mem_map.1 hy
  obtain ⟨bits, -, hbits⟩ := h.opened.member out hout
  exact ⟨bits, h.wired.scope_eq ▸ hbits⟩

end Expansion.Grows

/-! ## The invariant -/

/-- What one statement does. -/
theorem Statement.grows (hp : program.Disciplined)
    (hbodies : ∀ {k}, depth = k + 1 → BodiesGrow program limit k) {names : List String}
    {rest : List Statement} (h : Pending program names (s :: rest) d)
    (hrun : (elaborateStatement (contextAt program limit depth) s).run d = .ok ((), d')) :
    d.Extends d' ∧ d.scope.AgreesOn (fun x => Unindexed x ∧ x ∉ s.members program) d'.scope ∧
      ∀ x ∈ s.members program, ∃ bits, d'.scope.bits? x = some bits := by
  cases hcallee : s.callee? with
  | some callee =>
    obtain ⟨k, rfl, ⟨x⟩⟩ := expansion_of_run hcallee hrun
    have hgrows := x.grows hp (hbodies rfl) h
    exact ⟨hgrows.extends_draft, hgrows.caller, hgrows.members_bound⟩
  | none =>
    obtain ⟨hadds, -⟩ := Statement.value_of_run h.lawful h.binds hcallee h.head_reads hrun
    refine ⟨hadds.toExtends, ?_, fun x hx => ?_⟩
    · rw [hadds.scope_eq]
      exact .refl _ _
    · rw [Statement.members, hcallee] at hx
      exact absurd hx List.not_mem_nil

namespace Pending

variable {names : List String} {rest before : List Statement}

/-- The first statement is done. Its members can be read from now on. -/
theorem step (hp : program.Disciplined) (h : Pending program names (s :: rest) d)
    (hextends : d.Extends d')
    (hagrees : d.scope.AgreesOn (fun x => Unindexed x ∧ x ∉ s.members program) d'.scope)
    (hbound : ∀ x ∈ s.members program, ∃ bits, d'.scope.bits? x = some bits) :
    Pending program (names ++ s.members program) rest d' := by
  obtain ⟨hs, hplain⟩ := List.forall_mem_cons.1 h.plain
  obtain ⟨hnot, hnodup⟩ := List.nodup_cons.1 h.nodup
  obtain ⟨-, hfits⟩ := List.forall_mem_cons.1 h.fits
  refine ⟨hextends.lawful, hplain, hnodup, ?_, ?_, ?_, ?_⟩
  · intro r hr
    exact (hfits r hr).of_agreesOn hagrees
      ⟨(hplain r hr).1, Statement.not_mem_members hp (hplain r hr)⟩
  · intro i hi
    have hreads := h.reads (i + 1) (Nat.succ_lt_succ hi)
    rw [List.take_succ_cons, List.flatMap_cons, ← List.append_assoc] at hreads
    exact hreads
  · intro x hx
    rcases List.mem_append.1 hx with hx | hx
    · obtain ⟨hunindexed, hapart⟩ := h.apart x hx
      rw [hagrees.bits?_eq ⟨hunindexed, hapart s List.mem_cons_self⟩]
      exact h.bound x hx
    · exact hbound x hx
  · intro x hx
    rcases List.mem_append.1 hx with hx | hx
    · obtain ⟨hunindexed, hapart⟩ := h.apart x hx
      exact ⟨hunindexed, fun r hr => hapart r (List.mem_cons_of_mem _ hr)⟩
    · -- Members of different targets have different names.
      obtain ⟨f, hf, rfl⟩ := Statement.mem_members hp hx
      refine ⟨hs.unindexed_memberName hf, fun r hr hmem => hnot ?_⟩
      obtain ⟨g, -, heq⟩ := Statement.mem_members hp hmem
      rw [((memberName_inj hs (hplain r hr)).1 heq).1]
      exact List.mem_map_of_mem hr

/-- Some statements are done. -/
theorem run (hp : program.Disciplined)
    (hbodies : ∀ {k}, depth = k + 1 → BodiesGrow program limit k)
    (h : Pending program names (before ++ rest) d)
    (hrun : (elaborateStatements (contextAt program limit depth) before).run d = .ok ((), d')) :
    Pending program (names ++ before.flatMap (Statement.members program)) rest d' ∧
      d.Extends d' ∧ d.scope.AgreesOn
        (fun x => Unindexed x ∧ ∀ s ∈ before, x ∉ s.members program) d'.scope := by
  induction before generalizing d names with
  | nil =>
    obtain ⟨-, rfl⟩ := Elab.pure_eq_ok.1 hrun
    rw [List.flatMap_nil, List.append_nil]
    exact ⟨h, h.lawful.extends_self, .refl _ _⟩
  | cons s before ih =>
    obtain ⟨_, d₁, hfirst, hrun⟩ := Elab.bind_eq_ok.1 hrun
    obtain ⟨hextends, hagrees, hbound⟩ := Statement.grows hp hbodies h hfirst
    obtain ⟨hpending, hextends', hagrees'⟩ := ih (h.step hp hextends hagrees hbound) hrun
    rw [List.append_assoc, ← List.flatMap_cons] at hpending
    refine ⟨hpending, hextends.trans hextends', ?_⟩
    refine (hagrees.weaken ?_).trans (hagrees'.weaken ?_)
    · rintro x ⟨hx, hapart⟩
      exact ⟨hx, hapart s List.mem_cons_self⟩
    · rintro x ⟨hx, hapart⟩
      exact ⟨hx, fun r hr => hapart r (List.mem_cons_of_mem _ hr)⟩

end Pending

/-! ## Bodies -/

theorem ModuleDecl.firstWidth_le {callee : String} (hprimitive : isPrimitive callee = false)
    (hfind : program.find? callee = some m) : m.firstWidth ≤ max 1 (callWidth program callee) := by
  rw [firstWidth, callWidth, if_neg (not_or.2 (isPrimitive_eq_false.1 hprimitive)), hfind]
  simp only
  cases m.outputs.head? with
  | none => exact Nat.zero_le _
  | some out => exact Nat.le_refl _

theorem ModuleDecl.Disciplined.plain_port (hm : m.Disciplined program) {x : String}
    (hx : x ∈ m.portNames) : PlainName x :=
  hm.plain x (List.mem_append_left _ hx)

theorem ModuleDecl.Disciplined.plain_target (hm : m.Disciplined program) (hs : s ∈ m.statements) :
    PlainName s.target :=
  hm.plain s.target (List.mem_append_right _ (List.mem_map_of_mem hs))

/-- After the declarations all statements are to be elaborated, and ports and targets can be read. -/
theorem declareBody_pending (hp : program.Disciplined) (hm : m.Disciplined program) (hd : d.Lawful)
    (hstarts : d.scope.Starts m)
    (h : (declareBody (contextAt program limit depth) m.statements).run d = .ok ((), d')) :
    Pending program (m.portNames ++ m.targets) m.statements d' ∧ d.Rebinds d' d'.scope ∧
      d.scope.AgreesOn (· ∈ m.portNames) d'.scope := by
  obtain ⟨_, _, hscope, h⟩ := Elab.bind_eq_ok.1 h
  cases hscope
  rw [contextAt_program] at h
  obtain ⟨hbinds, hagrees, hbits⟩ := declareTargets_spec hd (fun s hs => hm.plain_target hs)
    hm.targets_nodup (fun _ _ => Std.TreeSet.contains_emptyc) h
  have hports : d.scope.AgreesOn (· ∈ m.portNames) d'.scope := hagrees.weaken fun x hx =>
    ⟨(hm.plain_port hx).1, fun _ => (hstarts.isPort_iff x).2 hx⟩
  have hbound : ∀ x ∈ m.portNames, ∃ bits, d'.scope.bits? x = some bits := by
    intro x hx
    rw [hports.bits?_eq hx]
    exact hstarts.bound x hx
  have hfits : ∀ s ∈ m.statements, s.Fits program d'.scope := by
    intro s hs
    rcases hbits s hs with hport | ⟨bits, hs', hlength⟩
    · obtain ⟨bits, hs'⟩ := hbound s.target ((hstarts.isPort_iff _).1 hport)
      exact ⟨bits, hs', fun _ _ => .inl (hagrees.isPort_eq _ ▸ hport)⟩
    · refine ⟨bits, hs', fun hcallee hfind => ?_⟩
      obtain ⟨args, hexpr, hprimitive⟩ := Statement.callee?_eq_some.1 hcallee
      cases hport : d.scope.isPort s.target with
      | true => exact .inl (hagrees.isPort_eq _ ▸ hport)
      | false =>
        have hfirst := ModuleDecl.firstWidth_le hprimitive hfind
        have hwidth : callWidth program _ ≤ _ :=
          callWidth_le_inferWidths hs (hm.plain_target hs) hport hexpr
        right
        omega
  refine ⟨⟨hbinds.lawful, fun s hs => hm.plain_target hs, hm.targets_nodup, hfits, hm.reads, ?_, ?_⟩,
    hbinds, hports⟩
  · intro x hx
    rcases List.mem_append.1 hx with hx | hx
    · exact hbound x hx
    · obtain ⟨s, hs, rfl⟩ := List.mem_map.1 hx
      obtain ⟨bits, hs', -⟩ := hfits s hs
      exact ⟨bits, hs'⟩
  · intro x hx
    exact ⟨(hm.plain x hx).1, fun s _ => Statement.not_mem_members hp (hm.plain x hx)⟩

/-- Bodies only add to a draft if the bodies nested in them do. -/
theorem BodiesGrow.of_nested (hp : program.Disciplined)
    (hbodies : ∀ {k}, depth = k + 1 → BodiesGrow program limit k) :
    BodiesGrow program limit depth := by
  intro m d d' hmem hd hstarts h
  obtain ⟨_, d₁, hdeclare, hrun⟩ := Elab.bind_eq_ok.1 h
  obtain ⟨hpending, hbinds, hports⟩ := declareBody_pending hp (hp m hmem) hd hstarts hdeclare
  rw [← List.append_nil m.statements] at hpending
  obtain ⟨-, hextends, hagrees⟩ := hpending.run hp hbodies hrun
  refine ⟨hbinds.toExtends.trans hextends, hports.trans (hagrees.weaken fun x hx => ?_)⟩
  have hplain := (hp m hmem).plain_port hx
  exact ⟨hplain.1, fun s _ => Statement.not_mem_members hp hplain⟩

theorem bodiesGrow (hp : program.Disciplined) (limit depth : Nat) :
    BodiesGrow program limit depth := by
  induction depth with
  | zero => exact BodiesGrow.of_nested hp fun h => absurd h.symm (Nat.succ_ne_zero _)
  | succ depth ih =>
    apply BodiesGrow.of_nested hp
    rintro k ⟨⟩
    exact ih

/-- A statement of a body in the course of the elaboration: the draft is `d` before it and `d'` after
it, and it is `final` when the body is done. The names that the statement reads have their final
bits. -/
structure Situation (program : Program) (names : List String) (s : Statement) (d d' final : Draft) :
    Prop where
  pending : ∃ rest, Pending program names (s :: rest) d
  binds : d.scope.Binds names final.scope.bitsOf
  extends_final : d'.Extends final
  target : final.scope.bits? s.target = d.scope.bits? s.target
  members : ∀ x ∈ s.members program, final.scope.bits? x = d'.scope.bits? x
  owner_eq : final.scope.owner = d.scope.owner

theorem elaborateStatements_append {cx : Context} {before after : List Statement} :
    (elaborateStatements cx (before ++ after)).run d = .ok ((), d') ↔
      ∃ d₁, (elaborateStatements cx before).run d = .ok ((), d₁) ∧
        (elaborateStatements cx after).run d₁ = .ok ((), d') := by
  induction before generalizing d with
  | nil =>
    constructor
    · exact fun h => ⟨d, rfl, h⟩
    · rintro ⟨_, h, hafter⟩
      cases h
      exact hafter
  | cons s before ih =>
    rw [List.cons_append, elaborateStatements, elaborateStatements, Elab.bind_eq_ok]
    simp only [Elab.bind_eq_ok, ih]
    constructor
    · rintro ⟨_, d₂, hs, d₁, hbefore, hafter⟩
      exact ⟨d₁, ⟨(), d₂, hs, hbefore⟩, hafter⟩
    · rintro ⟨d₁, ⟨_, d₂, hs, hbefore⟩, hafter⟩
      exact ⟨(), d₂, hs, d₁, hbefore, hafter⟩

/-- Every statement of a body has its turn. -/
theorem elaborateBody_split {cx : Context} {statements before after : List Statement}
    (hsplit : statements = before ++ s :: after)
    (h : (elaborateBody cx statements).run d = .ok ((), d')) :
    ∃ d₁ d₂ d₃, (declareBody cx statements).run d = .ok ((), d₁) ∧
      (elaborateStatements cx before).run d₁ = .ok ((), d₂) ∧
      (elaborateStatement cx s).run d₂ = .ok ((), d₃) ∧
      (elaborateStatements cx after).run d₃ = .ok ((), d') := by
  obtain ⟨_, d₁, hdeclare, hrun⟩ := Elab.bind_eq_ok.1 h
  rw [hsplit] at hrun
  obtain ⟨d₂, hbefore, hrun⟩ := elaborateStatements_append.1 hrun
  obtain ⟨_, d₃, hs, hafter⟩ := Elab.bind_eq_ok.1 hrun
  exact ⟨d₁, d₂, d₃, hdeclare, hbefore, hs, hafter⟩

theorem situation_of_run (hp : program.Disciplined) (hmem : m ∈ program.modules) (hd : d.Lawful)
    (hstarts : d.scope.Starts m) {d₁ d₂ d₃ : Draft} {before after : List Statement}
    (hsplit : m.statements = before ++ s :: after)
    (hdeclare : (declareBody (contextAt program limit depth) m.statements).run d = .ok ((), d₁))
    (hbefore : (elaborateStatements (contextAt program limit depth) before).run d₁ = .ok ((), d₂))
    (hrun : (elaborateStatement (contextAt program limit depth) s).run d₂ = .ok ((), d₃))
    (hafter : (elaborateStatements (contextAt program limit depth) after).run d₃ = .ok ((), d')) :
    Situation program (m.portNames ++ m.targets ++ before.flatMap (Statement.members program)) s d₂
      d₃ d' := by
  obtain ⟨hpending, hbinds, hports⟩ := declareBody_pending hp (hp m hmem) hd hstarts hdeclare
  have hbodies : ∀ {k}, depth = k + 1 → BodiesGrow program limit k := fun _ => bodiesGrow hp _ _
  rw [hsplit] at hpending
  obtain ⟨hpending₂, -, -⟩ := hpending.run hp hbodies hbefore
  obtain ⟨hextends₃, hagrees₃, hbound₃⟩ := Statement.grows hp hbodies hpending₂ hrun
  have hpending₃ := hpending₂.step hp hextends₃ hagrees₃ hbound₃
  rw [← List.append_nil after] at hpending₃
  obtain ⟨-, hextends, hagrees⟩ := hpending₃.run hp hbodies hafter
  have hlater : ∀ x, (Unindexed x ∧ ∀ r ∈ after ++ [], x ∉ r.members program) →
      d'.scope.bits? x = d₃.scope.bits? x := by
    rintro x ⟨hx, hapart⟩
    exact hagrees.bits?_eq ⟨hx, fun r hr => hapart r (List.mem_append_left _ hr)⟩
  -- What can be read now is left alone by the statement itself and by those that follow.
  have hkeep : ∀ x ∈ m.portNames ++ m.targets ++ before.flatMap (Statement.members program),
      d'.scope.bits? x = d₂.scope.bits? x := by
    intro x hx
    obtain ⟨hunindexed, hapart⟩ := hpending₂.apart x hx
    rw [hlater x (hpending₃.apart x (List.mem_append_left _ hx)),
      hagrees₃.bits?_eq ⟨hunindexed, hapart s List.mem_cons_self⟩]
  have htarget : s.target ∈ m.targets := by
    rw [ModuleDecl.targets, hsplit]
    exact List.mem_map_of_mem (List.mem_append_right _ List.mem_cons_self)
  refine ⟨⟨after, hpending₂⟩, ?_, hextends, ?_, ?_, ?_⟩
  · intro x hx
    obtain ⟨bits, hbits⟩ := hpending₂.bound x hx
    rw [Scope.bitsOf, hkeep x hx, hbits, Option.getD_some]
  · exact hkeep _ (List.mem_append_left _ (List.mem_append_right _ htarget))
  · intro x hx
    exact hlater x (hpending₃.apart x (List.mem_append_right _ hx))
  · rw [hagrees.owner_eq, hagrees₃.owner_eq]

end NandHdl
