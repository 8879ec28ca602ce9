-- SUMMARY: Elaboration computes what the source says (`elaborate_computes`): in every instance every target holds the value of its expression.
import NandHdl.Proofs.Elaboration.Bodies
import NandHdl.Proofs.Elaboration.Top

/-!
# Elaborated programs

The elaboration of a program runs through the bodies of its instances, one run for each instance.
Once the gates have settled, every statement of every run holds: the bits of its target have the
value of the right-hand side, extended by zeros or cut to the width of the target. A call of a module
has the value of the first output in the run of its instance, and that run starts from the values of
the arguments.
-/

namespace NandHdl

variable {program : Program} {limit depth : Nat} {top : String} {d d' d₁ d₂ d₃ : Draft}
  {m : ModuleDecl} {s : Statement}

/-! ## Runs -/

/-- In the elaboration of `top`, the body of an instance of `m` takes the draft `d` to `d'`, with
`depth` levels of nesting left. The scope of `d'` tells what the names of the body stand for. -/
inductive BodyRun (program : Program) (limit : Nat) (top : String) :
    Nat → ModuleDecl → Draft → Draft → Prop where
  | top {m : ModuleDecl} {d d' : Draft} (hfind : program.find? top = some m)
    (hopen : (openTop m).run (.empty top) = .ok ((), d))
    (hbody : (elaborateBody (contextAt program limit limit) m.statements).run d = .ok ((), d')) :
    BodyRun program limit top limit m d d'
  | call {depth : Nat} {m : ModuleDecl} {d d' d₁ d₂ d₃ : Draft} {before after : List Statement}
    {s : Statement} (hrun : BodyRun program limit top (depth + 1) m d d')
    (hsplit : m.statements = before ++ s :: after)
    (hdeclare : (declareBody (contextAt program limit (depth + 1)) m.statements).run d =
      .ok ((), d₁))
    (hbefore : (elaborateStatements (contextAt program limit (depth + 1)) before).run d₁ =
      .ok ((), d₂))
    (x : Expansion program limit depth s d₂ d₃) :
    BodyRun program limit top depth x.decl { x.opened with scope := x.child } x.finished

/-- The run is one of a body that is ready for it, and all that it makes is in the netlist `n`. -/
structure BodyRun.Sound (program : Program) (limit depth : Nat) (m : ModuleDecl) (d d' : Draft)
    (n : Netlist) : Prop where
  mem : m ∈ program.modules
  lawful : d.Lawful
  starts : d.scope.Starts m
  body : (elaborateBody (contextAt program limit depth) m.statements).run d = .ok ((), d')
  extends_final : d'.netlist.Extends n

theorem elaborate_eq_ok {config : ElabConfig} {n : Netlist}
    (h : elaborate program top config = .ok n) :
    ∃ m d d', program.find? top = some m ∧ (openTop m).run (.empty top) = .ok ((), d) ∧
      (elaborateBody (contextAt program config.maxInlineDepth config.maxInlineDepth)
        m.statements).run d = .ok ((), d') ∧ d'.netlist = n := by
  unfold elaborate at h
  cases hfind : program.find? top with
  | none =>
    simp only [hfind] at h
    exact nomatch h
  | some m =>
    simp only [hfind] at h
    obtain ⟨⟨_, draft⟩, hrun, h⟩ := Except.bind_eq_ok.1 h
    obtain ⟨_, d, hopen, hbody⟩ := Elab.bind_eq_ok.1 hrun
    refine ⟨m, d, draft, rfl, hopen, hbody, ?_⟩
    split at h
    · cases h
      rfl
    · exact nomatch h

/-- The situation of a statement in a run. -/
theorem BodyRun.Sound.situation (hp : program.Disciplined) {n : Netlist}
    (h : Sound program limit depth m d d' n) {before after : List Statement}
    (hsplit : m.statements = before ++ s :: after)
    (hdeclare : (declareBody (contextAt program limit depth) m.statements).run d = .ok ((), d₁))
    (hbefore : (elaborateStatements (contextAt program limit depth) before).run d₁ = .ok ((), d₂))
    (hrun : (elaborateStatement (contextAt program limit depth) s).run d₂ = .ok ((), d₃)) :
    Situation program (m.portNames ++ m.targets ++ before.flatMap (Statement.members program)) s d₂
      d₃ d' := by
  obtain ⟨e₁, e₂, e₃, hdeclare', hbefore', hrun', hafter⟩ := elaborateBody_split hsplit h.body
  -- There is only one run.
  cases hdeclare.symm.trans hdeclare'
  cases hbefore.symm.trans hbefore'
  cases hrun.symm.trans hrun'
  exact situation_of_run hp h.mem h.lawful h.starts hsplit hdeclare hbefore hrun hafter

theorem BodyRun.sound {config : ElabConfig} {n : Netlist} (hp : program.Disciplined)
    (he : elaborate program top config = .ok n)
    (h : BodyRun program config.maxInlineDepth top depth m d d') :
    Sound program config.maxInlineDepth depth m d d' n := by
  induction h with
  | top hfind hopen hbody =>
    obtain ⟨m', e, e', hfind', hopen', hbody', rfl⟩ := elaborate_eq_ok he
    cases hfind.symm.trans hfind'
    cases hopen.symm.trans hopen'
    cases hbody.symm.trans hbody'
    have hmem := (Program.find?_eq_some hfind).1
    obtain ⟨hlawful, hstarts, -, -⟩ := openTop_spec (hp _ hmem) hopen
    exact ⟨hmem, hlawful, hstarts, hbody, .refl _⟩
  | call hrun hsplit hdeclare hbefore x ih =>
    have hsituation := ih.situation hp hsplit hdeclare hbefore x.run_eq
    obtain ⟨rest, hpending⟩ := hsituation.pending
    have hgrows := x.grows hp (bodiesGrow hp _ _) hpending
    refine ⟨(Program.find?_eq_some x.find_eq).1, ?_, hgrows.opened.starts, x.body_run, ?_⟩
    · exact (hgrows.opened.extends_draft.lawful.rebinds_self _).lawful
    · exact (hgrows.wired.netlist.trans hsituation.extends_final.netlist).trans ih.extends_final

/-! ## All instances -/

/-- Instance `i` of the netlist has a run of its own. -/
def HasRun (program : Program) (limit : Nat) (top : String) (n : Netlist) (i : InstanceId) : Prop :=
  ∃ depth m d d' inst, BodyRun program limit top depth m d d' ∧ d'.scope.owner = i ∧
    n.instances[i]? = some inst ∧ inst.moduleName = m.name

/-- All instances that bodies make, if `depth` levels of nesting are left, have runs of their own. -/
def BodiesCovered (program : Program) (limit : Nat) (top : String) (n : Netlist) (depth : Nat) :
    Prop :=
  ∀ {m : ModuleDecl} {d d' : Draft}, BodyRun program limit top depth m d d' →
    ∀ i, d.netlist.instances.size ≤ i → i < d'.netlist.instances.size → HasRun program limit top n i

section

variable {config : ElabConfig} {n : Netlist} {before after : List Statement}

/-- A statement makes the instance of its call and those that the body of the instance makes. -/
theorem hasRun_of_statement (hp : program.Disciplined) (he : elaborate program top config = .ok n)
    (hnested : ∀ {k}, depth = k + 1 → BodiesCovered program config.maxInlineDepth top n k)
    (hrun : BodyRun program config.maxInlineDepth top depth m d d')
    (hsplit : m.statements = before ++ s :: after)
    (hdeclare : (declareBody (contextAt program config.maxInlineDepth depth) m.statements).run d =
      .ok ((), d₁))
    (hbefore : (elaborateStatements (contextAt program config.maxInlineDepth depth) before).run d₁ =
      .ok ((), d₂))
    (hs : (elaborateStatement (contextAt program config.maxInlineDepth depth) s).run d₂ =
      .ok ((), d₃)) {i : InstanceId} (hle : d₂.netlist.instances.size ≤ i)
    (hlt : i < d₃.netlist.instances.size) : HasRun program config.maxInlineDepth top n i := by
  have hsituation := (hrun.sound hp he).situation hp hsplit hdeclare hbefore hs
  obtain ⟨rest, hpending⟩ := hsituation.pending
  cases hcallee : s.callee? with
  | none =>
    obtain ⟨hadds, -⟩ := Statement.value_of_run hpending.lawful hpending.binds hcallee
      hpending.head_reads hs
    rw [hadds.instances_eq] at hlt
    exact absurd hlt (Nat.not_lt.2 hle)
  | some callee =>
    obtain ⟨k, rfl, ⟨x⟩⟩ := expansion_of_run hcallee hs
    have hgrows := x.grows hp (bodiesGrow hp _ _) hpending
    have hcall := BodyRun.call hrun hsplit hdeclare hbefore x
    have hsize := hgrows.opened.instances_size
    rw [hgrows.adds.instances_eq] at hsize
    rw [hgrows.wired.instances_eq] at hlt
    rcases Nat.eq_or_lt_of_le hle with rfl | hgt
    · obtain ⟨inst, hinst, hname, -⟩ := hgrows.opened.inst
      have howner : x.finished.scope.owner = d₂.netlist.instances.size := by
        rw [hgrows.ports.owner_eq, hgrows.opened.owner_eq, hgrows.adds.instances_eq]
      have hfinal := hgrows.body.netlist.trans (hcall.sound hp he).extends_final
      rw [← hgrows.ports.owner_eq, howner] at hinst
      exact ⟨k, x.decl, _, _, inst, hcall, howner, hfinal.inst hinst, hname⟩
    · exact hnested rfl hcall i (hsize ▸ hgt) hlt

theorem hasRun_of_statements (hp : program.Disciplined) (he : elaborate program top config = .ok n)
    (hnested : ∀ {k}, depth = k + 1 → BodiesCovered program config.maxInlineDepth top n k)
    (hrun : BodyRun program config.maxInlineDepth top depth m d d')
    (hsplit : m.statements = before ++ after)
    (hdeclare : (declareBody (contextAt program config.maxInlineDepth depth) m.statements).run d =
      .ok ((), d₁))
    (hbefore : (elaborateStatements (contextAt program config.maxInlineDepth depth) before).run d₁ =
      .ok ((), d₂)) {i : InstanceId} (hle : d₁.netlist.instances.size ≤ i)
    (hlt : i < d₂.netlist.instances.size) : HasRun program config.maxInlineDepth top n i := by
  induction before using List.reverseRecOn generalizing d₂ after with
  | nil =>
    cases hbefore
    exact absurd hlt (Nat.not_lt.2 hle)
  | append_singleton before s ih =>
    rw [List.append_assoc, List.singleton_append] at hsplit
    obtain ⟨e, hbefore', hrest⟩ := elaborateStatements_append.1 hbefore
    obtain ⟨_, e', hs, hdone⟩ := Elab.bind_eq_ok.1 hrest
    cases hdone
    rcases Nat.lt_or_ge i e.netlist.instances.size with hearlier | hhere
    · exact ih hsplit hbefore' hearlier
    · exact hasRun_of_statement hp he hnested hrun hsplit hdeclare hbefore' hs hhere hlt

theorem BodiesCovered.of_nested (hp : program.Disciplined)
    (he : elaborate program top config = .ok n)
    (hnested : ∀ {k}, depth = k + 1 → BodiesCovered program config.maxInlineDepth top n k) :
    BodiesCovered program config.maxInlineDepth top n depth := by
  intro m d d' hrun i hle hlt
  have hsound := hrun.sound hp he
  obtain ⟨_, d₁, hdeclare, hstatements⟩ := Elab.bind_eq_ok.1 hsound.body
  obtain ⟨-, hbinds, -⟩ := declareBody_pending hp (hp m hsound.mem) hsound.lawful hsound.starts
    hdeclare
  rw [← hbinds.instances_eq] at hle
  exact hasRun_of_statements hp he hnested hrun (List.append_nil _).symm hdeclare hstatements hle hlt

theorem bodiesCovered (hp : program.Disciplined) (he : elaborate program top config = .ok n)
    (depth : Nat) : BodiesCovered program config.maxInlineDepth top n depth := by
  induction depth with
  | zero => exact BodiesCovered.of_nested hp he fun h => absurd h.symm (Nat.succ_ne_zero _)
  | succ depth ih =>
    apply BodiesCovered.of_nested hp he
    rintro k ⟨⟩
    exact ih

theorem hasRun_of_instance (hp : program.Disciplined) (he : elaborate program top config = .ok n)
    {i : InstanceId} (hi : i < n.instances.size) : HasRun program config.maxInlineDepth top n i := by
  obtain ⟨m, d, d', hfind, hopen, hbody, rfl⟩ := elaborate_eq_ok he
  obtain ⟨hmem, hname⟩ := Program.find?_eq_some hfind
  obtain ⟨hlawful, hstarts, howner, hinstances⟩ := openTop_spec (hp m hmem) hopen
  have hrun : BodyRun program config.maxInlineDepth top config.maxInlineDepth m d d' :=
    .top hfind hopen hbody
  cases i with
  | zero =>
    obtain ⟨hextends, hagrees⟩ := bodiesGrow hp _ _ hmem hlawful hstarts hbody
    have hfirst : d.netlist.instances[0]? = (Netlist.empty top).instances[0]? := by rw [hinstances]
    exact ⟨_, m, d, d', _, hrun, hagrees.owner_eq.trans howner, hextends.netlist.inst hfirst,
      hname.symm⟩
  | succ i =>
    refine bodiesCovered hp he _ hrun (i + 1) ?_ hi
    rw [hinstances]
    exact Nat.succ_le_succ (Nat.zero_le i)

end

/-! ## Values -/

/-- The bits of the first output of a module, none if it has no outputs. -/
def ModuleDecl.resultBits (m : ModuleDecl) (scope : Scope) : Bits :=
  match m.outputs with
  | [] => []
  | out :: _ => scope.bitsOf out.name

/-- The target of the statement holds the value of the right-hand side in the valuations `V`, where
names stand for what `scope` says. If the value is too short, the missing bits are 0; if it is too
long, the surplus bits are dropped. -/
inductive Statement.Computes (program : Program) (limit : Nat) (top : String) (n : Netlist)
    (V : Valuation → Prop) (scope : Scope) (s : Statement) : Prop where
  | value (bits : Bits) (q : DffOutputs) (hcallee : s.callee? = none)
    (hbits : scope.bits? s.target = some bits)
    (hvalue : ∀ v, V v → ∀ (k : Nat) (id : SignalId), bits[k]? = some id →
      s.expr.HasBit n v scope.bitsOf q k (v id))
  /-- The call has the value of the first output in the run of its instance. That instance belongs to
  the one at hand, its parameters hold the arguments, and its further outputs are the members. -/
  | call (bits : Bits) (q : DffOutputs) {callee : String} {args : List Expr} {m : ModuleDecl}
    {depth : Nat} {d d' : Draft} {inst : Instance} (hexpr : s.expr = .call callee args)
    (hprimitive : isPrimitive callee = false) (hfind : program.find? callee = some m)
    (hlength : args.length = m.params.length) (hbits : scope.bits? s.target = some bits)
    (hrun : BodyRun program limit top depth m d d')
    (hinst : n.instances[d'.scope.owner]? = some inst) (hname : inst.moduleName = m.name)
    (hparent : inst.parent = some scope.owner)
    (hparams : ∀ (i : Nat) (p : Port) (arg : Expr), m.params[i]? = some p → args[i]? = some arg →
      ∃ param, d'.scope.bits? p.name = some param ∧ param.length = max 1 p.width ∧
        ∀ v, V v → ∀ (k : Nat) (id : SignalId), param[k]? = some id →
          arg.HasBit n v scope.bitsOf (q.arg i) k (v id))
    (hmembers : ∀ out ∈ m.outputs.drop 1, ∃ output, d'.scope.bits? out.name = some output ∧
      scope.bits? (memberName s.target out.name) = some output)
    (hvalue : ∀ v, V v → ∀ (k : Nat) (id : SignalId), bits[k]? = some id →
      v id = bitAt v (m.resultBits d'.scope) k)

section

variable {config : ElabConfig} {n : Netlist} {V : Valuation → Prop}

theorem getElem?_resize {bits : Bits} {width k : Nat} {id : SignalId}
    (h : (resize bits width)[k]? = some id) : id = bits.getD k zeroId := by
  rw [resize, List.getElem?_map, Option.map_eq_some_iff] at h
  obtain ⟨i, hi, rfl⟩ := h
  obtain ⟨hlt, rfl⟩ := List.getElem?_eq_some_iff.1 hi
  rw [List.getElem_range]

theorem Draft.Means.lift {bound : String → Bits} {q : DffOutputs} {e : Expr} {k : Nat}
    {id : SignalId} (h : d.Means bound q e k id) (hn : d.netlist.Extends n) {v : Valuation}
    (hv : n.AtRest v) : e.HasBit n v bound q k (v id) :=
  (h v (hv.of_extends hn)).mono hn

section

variable {x : Expansion program config.maxInlineDepth depth s d₂ d₃} {names : List String}

theorem Expansion.Grows.port_bits? (h : x.Grows) {y : String} (hy : y ∈ x.decl.portNames) :
    x.finished.scope.bits? y = x.child.bits? y :=
  h.ports.bits?_eq hy

/-- The parameters of an instance hold the arguments, extended by zeros or cut to their widths. -/
theorem Expansion.Grows.param_value (h : x.Grows) (hd : d₂.Lawful) (hreads : s.readsOnly names)
    {bound : String → Bits} (hbinds : d₂.scope.Binds names bound)
    (hvalued : x.valued.netlist.Extends n) :
    ∃ q : DffOutputs, ∀ (i : Nat) (p : Port) (arg : Expr), x.decl.params[i]? = some p →
      x.args[i]? = some arg → ∃ param, x.finished.scope.bits? p.name = some param ∧
        param.length = max 1 p.width ∧ ∀ v, n.AtRest v → ∀ (k : Nat) (id : SignalId),
          param[k]? = some id → arg.HasBit n v bound (q.arg i) k (v id) := by
  obtain ⟨-, hsizes, q, hq⟩ := (Expr.all_mean _ bound x.args (x.args_read hreads)).1 hd hbinds
    x.values_run
  refine ⟨q, fun i p arg hp harg => ?_⟩
  have hlengths := congrArg List.length hsizes
  rw [Expr.sizes_eq, List.length_map, List.length_map] at hlengths
  have hi : i < x.values.length := hlengths ▸ (List.getElem?_eq_some_iff.1 harg).1
  have hvalue := List.getElem?_eq_getElem hi
  have hport : p.name ∈ x.decl.portNames :=
    List.mem_map_of_mem (List.mem_append_left _ (List.mem_of_getElem? hp))
  refine ⟨_, (h.port_bits? hport).trans (h.opened.param hp hvalue), length_resize _ _, ?_⟩
  intro v hv k id hid
  rw [getElem?_resize hid]
  exact (hq i arg _ harg hvalue k).lift hvalued hv

theorem Expansion.Grows.resultBits_eq (h : x.Grows) :
    x.decl.resultBits x.finished.scope = x.first := by
  unfold ModuleDecl.resultBits
  cases houts : x.decl.outputs with
  | nil => exact (h.opened.no_output houts).symm
  | cons out rest =>
    have hport : out.name ∈ x.decl.portNames := by
      apply List.mem_map_of_mem
      apply List.mem_append_right
      rw [houts]
      exact List.mem_cons_self
    have hfirst := h.opened.first_output (by rw [houts, List.head?_cons])
    show x.finished.scope.bitsOf out.name = x.first
    rw [Scope.bitsOf, h.port_bits? hport, hfirst, Option.getD_some]

end

/-- A statement that calls a module. -/
theorem Statement.computes_call (hp : program.Disciplined) (hV : ∀ v, V v → n.AtRest v)
    {names : List String} (hsituation : Situation program names s d₂ d₃ d')
    (hfinal : d'.netlist.Extends n) (x : Expansion program config.maxInlineDepth depth s d₂ d₃)
    (hcall : BodyRun program config.maxInlineDepth top depth x.decl
      { x.opened with scope := x.child } x.finished) :
    s.Computes program config.maxInlineDepth top n V d'.scope := by
  obtain ⟨rest, hpending⟩ := hsituation.pending
  have hgrows := x.grows hp (bodiesGrow hp _ _) hpending
  have hwired : d₃.netlist.Extends n := hsituation.extends_final.netlist.trans hfinal
  have hopened : x.opened.netlist.Extends n :=
    (hgrows.body.netlist.trans hgrows.wired.netlist).trans hwired
  have hvalued := hgrows.opened.extends_draft.netlist.trans hopened
  have htarget := hpending.plain s List.mem_cons_self
  obtain ⟨q, hparams⟩ := hgrows.param_value hpending.lawful hpending.head_reads hsituation.binds
    hvalued
  obtain ⟨inst, hinst, hname, hparent⟩ := hgrows.opened.inst
  have hbits : d'.scope.bits? s.target = some x.bits := by
    rw [hsituation.target, ← hgrows.adds.scope_eq, ← x.bits_eq]
    exact (hgrows.opened.caller.bits?_eq
      ⟨htarget.1, fun out _ => memberName_ne htarget s.target out.name⟩).symm
  refine .call x.bits q x.expr_eq x.callee_eq x.find_eq x.length_eq hbits hcall ?_ hname ?_ ?_ ?_ ?_
  · rw [hgrows.ports.owner_eq]
    exact hopened.inst hinst
  · rw [hparent, hgrows.adds.scope_eq, hsituation.owner_eq]
  · intro i p arg hparam harg
    obtain ⟨param, hbound, hlength, hvalue⟩ := hparams i p arg hparam harg
    exact ⟨param, hbound, hlength, fun v hv => hvalue v (hV v hv)⟩
  · intro out hout
    obtain ⟨output, hinner, houter⟩ := hgrows.opened.member out hout
    have hport : out.name ∈ x.decl.portNames :=
      List.mem_map_of_mem (List.mem_append_right _ (List.mem_of_mem_drop hout))
    refine ⟨output, (hgrows.port_bits? hport).trans hinner, ?_⟩
    rw [hsituation.members, hgrows.wired.scope_eq, houter]
    rw [Statement.members_of_callee x.callee?_eq x.find_eq]
    exact List.mem_map_of_mem (f := fun out : Port => memberName s.target out.name) hout
  · intro v hv k id hid
    have hrest := (hV v hv).of_extends hwired
    have hlawful := (hgrows.body.lawful.rebinds_self x.opened.scope).lawful
    rw [hgrows.resultBits_eq, bitAt_eq hrest.zero]
    exact (Elab.wire_spec hlawful x.wire_run).2 v hrest.settled k id hid

/-- Every statement of every run holds. -/
theorem BodyRun.computes (hp : program.Disciplined) (he : elaborate program top config = .ok n)
    (hV : ∀ v, V v → n.AtRest v) (hrun : BodyRun program config.maxInlineDepth top depth m d d')
    (hs : s ∈ m.statements) : s.Computes program config.maxInlineDepth top n V d'.scope := by
  have hsound := hrun.sound hp he
  obtain ⟨before, after, hsplit⟩ := List.append_of_mem hs
  obtain ⟨d₁, d₂, d₃, hdeclare, hbefore, hstatement, -⟩ := elaborateBody_split hsplit hsound.body
  have hsituation := hsound.situation hp hsplit hdeclare hbefore hstatement
  cases hcallee : s.callee? with
  | some callee =>
    obtain ⟨k, rfl, ⟨x⟩⟩ := expansion_of_run hcallee hstatement
    exact Statement.computes_call hp hV hsituation hsound.extends_final x
      (.call hrun hsplit hdeclare hbefore x)
  | none =>
    obtain ⟨rest, hpending⟩ := hsituation.pending
    obtain ⟨hadds, bits, q, hbits, hvalue⟩ := Statement.value_of_run hpending.lawful
      hsituation.binds hcallee hpending.head_reads hstatement
    have hfinal := hsituation.extends_final.netlist.trans hsound.extends_final
    exact .value bits q hcallee (hsituation.target.trans hbits) fun v hv k id hid =>
      (hvalue k id hid).lift hfinal (hV v hv)

end

/-! ## Evaluation -/

/-- The signals have the values `v` after a combinational pass over some store in which the constants
hold 0 and 1. -/
def Kernel.Reaches (k : Kernel) (n : Netlist) (v : Valuation) : Prop :=
  ∃ s s' : Store, s.SizedFor n.signals.size ∧ s.bit zeroId = false ∧ s.bit oneId = true ∧
    k.evaluate.run s = .ok () s' ∧ s'.bit = v

/-- What a pass reaches is at rest: no gate drives a constant. -/
theorem atRest_of_reaches {n : Netlist} {l : LevelizedNetlist} {k : Kernel} {v : Valuation}
    {level : GateId → Nat} (hsorted : l.Sorted n level) (hw : n.Wellformed)
    (hout : ∀ g ∈ n.gates, oneId < g.out)
    (hpass : ∀ {t : Store}, t.SizedFor n.signals.size →
      k.evaluate.run t = .ok () (t.compute l.wires)) (h : k.Reaches n v) : n.AtRest v := by
  obtain ⟨s, s', hs, hzero, hone, hrun, rfl⟩ := h
  have hresult := (hpass hs).symm.trans hrun
  cases hresult
  have hsettled := hsorted.compute_settledFrom hw hs
  refine ⟨hsettled.settled, ?_, ?_⟩
  · rw [hsettled.bit_eq, hzero]
    rintro ⟨g, hg, heq⟩
    exact absurd (heq ▸ hout g hg) (by decide)
  · rw [hsettled.bit_eq, hone]
    rintro ⟨g, hg, heq⟩
    exact absurd (heq ▸ hout g hg) (by decide)

theorem elaborate_lawful {config : ElabConfig} {n : Netlist} (hp : program.Disciplined)
    (he : elaborate program top config = .ok n) :
    n.Numbered ∧ ∀ g ∈ n.gates, oneId < g.out := by
  obtain ⟨m, d, d', hfind, hopen, hbody, rfl⟩ := elaborate_eq_ok he
  obtain ⟨hmem, -⟩ := Program.find?_eq_some hfind
  obtain ⟨hlawful, hstarts, -, -⟩ := openTop_spec (hp m hmem) hopen
  obtain ⟨hextends, -⟩ := bodiesGrow hp _ _ hmem hlawful hstarts hbody
  exact ⟨hextends.lawful.numbered, hextends.lawful.gate_out⟩

/-- A module with two outputs, and one that stores the first of them and answers the second. -/
def heldPair : Program where
  modules := [
    { name := "pair"
      params := [{ name := "a" }]
      outputs := [{ name := "o" }, { name := "c", width := 2 }]
      statements := [
        { target := "o", expr := .call nandName [.ident "a", .ident "a"] },
        { target := "c", expr := .concat [.ident "o", .ident "a"] }] },
    { name := "top"
      params := [{ name := "x" }, { name := "clk" }]
      outputs := [{ name := "y", width := 2 }]
      statements := [
        { target := "p", expr := .call "pair" [.ident "x"] },
        { target := "r", expr := .call dffName [.ident "p", .ident "clk"] },
        { target := "y", expr := .member (.ident "p") "c" }] }]

end NandHdl
