-- SUMMARY: A body cannot drive an input from inside if the input is driven already (`elaborate_inputs`): that of the top module always is, that of an instance if its argument is when the instance is made.
import NandHdl.Proofs.Elaboration.Nesting

/-!
# Inputs that are driven from inside

A statement that gives a parameter the output of a gate or a flip-flop takes the right to drive the
first signal of the parameter. The signals of the top module's inputs are driven from the start, so
there the statement is an error. The parameters of an instance have the signals of its arguments. Such
a signal may be a target or an output of the caller that nothing drives yet, and then the body of the
instance drives it for the caller.
-/

namespace NandHdl

open Elab

variable {d d' : Draft} {u : Unit}

/-! ## Driven signals -/

namespace Draft

/-- No signal loses its driver. -/
def KeepsDriven (d d' : Draft) : Prop :=
  ∀ id : SignalId, d.driven[id]? = some true → d'.driven[id]? = some true

instance : IsPreorder Draft KeepsDriven where
  refl _ _ h := h
  trans _ _ _ h h' id hid := h' id (h id hid)

/-- Nothing drives the signal yet. -/
def Free (d : Draft) (id : SignalId) : Prop := d.driven[id]? ≠ some true

theorem KeepsDriven.free (h : d.KeepsDriven d') {id : SignalId} (hid : d'.Free id) : d.Free id :=
  mt (h id) hid

/-- A known signal is either driven or not. -/
theorem Known.undriven (hd : d.Accounted) {id : SignalId} (hid : d.Known id) (hfree : d.Free id) :
    d.driven[id]? = some false := by
  have hlt : id < d.driven.size := hd.driven_size ▸ hid.lt
  rw [Free, Array.getElem?_eq_getElem hlt, ne_eq, Option.some_inj, Bool.not_eq_true] at hfree
  rw [Array.getElem?_eq_getElem hlt, hfree]

end Draft

open Draft

theorem claimDriver_driven {id : SignalId} (h : (claimDriver id).run d = .ok (u, d')) :
    d.driven[id]? = some false ∧ d'.driven[id]? = some true ∧ d.KeepsDriven d' := by
  obtain ⟨hfree, rfl⟩ := claimDriver_eq_ok h
  refine ⟨hfree, ?_, fun i hi => ?_⟩
  · simp [Array.getElem?_modify, hfree]
  · rw [Array.getElem?_modify]
    split
    · next heq => rw [← heq, hfree, Option.map_some]
    · exact hi

theorem newSignal_keepsDriven (name : String) (owner : InstanceId) :
    (newSignal name owner).Respects KeepsDriven := by
  rintro d d' id ⟨⟩ i hi
  rwa [Array.getElem?_push_lt (Array.getElem?_eq_some_iff.1 hi).1, ← Array.getElem?_eq_getElem]

theorem respectsAll_keepsDriven : RespectsAll KeepsDriven where
  signal := newSignal_keepsDriven
  driver id _ _ _ h := (claimDriver_driven h).2.2
  gate _ _ _ := respects_modifyNetlist fun _ _ hi => hi
  named _ _ := respects_modifyNetlist fun _ _ hi => hi
  dff a clk := by
    intro d d' q h
    obtain ⟨name, d₁, d₂, n, hq, hclaim, -, rfl⟩ := emitDff_eq_ok h
    have hsignal : d.KeepsDriven d₁ := newSignal_keepsDriven _ _ _ _ _ hq
    exact fun i hi => (claimDriver_driven hclaim).2.2 i (hsignal i hi)
  scope _ := respects_modifyScope fun _ _ hi => hi
  inst _ _ _ := respects_modifyNetlist fun _ _ hi => hi

theorem contextAt_keepsDriven (program : Program) (limit depth : Nat) :
    (contextAt program limit depth).Respects KeepsDriven :=
  respectsAll_keepsDriven.context (respectsAll_keepsDriven.contextAt program limit depth)

/-! ## Wiring -/

theorem wireInto_free {src dst : SignalId} (h : (wireInto src dst).run d = .ok (u, d')) :
    src = dst ∨ d.Free dst := by
  unfold wireInto at h
  split at h
  · next heq => exact .inl heq
  · obtain ⟨_, d₁, hclaim, -⟩ := bind_eq_ok.1 h
    refine .inr fun hdriven => ?_
    rw [(claimDriver_driven hclaim).1] at hdriven
    cases hdriven

/-- Each signal of the target either is the one that is copied into it or had no driver. -/
theorem wire_free {src dst : Bits} (h : (wire src dst).run d = .ok (u, d')) {k : Nat} {id : SignalId}
    (hk : dst[k]? = some id) : src.getD k zeroId = id ∨ d.Free id := by
  induction dst generalizing src d k with
  | nil => exact absurd hk.symm (Option.some_ne_none id)
  | cons first rest ih =>
    have hstep : ∃ d₁, (wireInto (src.getD 0 zeroId) first).run d = .ok ((), d₁) ∧
        (wire (src.drop 1) rest).run d₁ = .ok (u, d') := by
      cases src with
      | nil | cons =>
        obtain ⟨_, d₁, hfirst, hrest⟩ := bind_eq_ok.1 h
        exact ⟨d₁, hfirst, hrest⟩
    obtain ⟨d₁, hfirst, hrest⟩ := hstep
    cases k with
    | zero =>
      cases hk
      exact wireInto_free hfirst
    | succ k =>
      have hlater := ih hrest hk
      rw [List.getD_eq_getElem?_getD, List.getElem?_drop, Nat.add_comm,
        ← List.getD_eq_getElem?_getD] at hlater
      exact hlater.imp_right (respectsAll_keepsDriven.wireInto _ _ _ _ _ hfirst).free

theorem emitNand_out {a b out : SignalId} (h : (emitNand a b).run d = .ok (out, d')) :
    out = d.netlist.signals.size := by
  obtain ⟨id, d₁, hid, h⟩ := bind_eq_ok.1 h
  obtain ⟨_, d₂, -, h⟩ := bind_eq_ok.1 h
  obtain ⟨_, d₃, -, h⟩ := bind_eq_ok.1 h
  obtain ⟨rfl, -⟩ := pure_eq_ok.1 h
  cases hid
  rfl

theorem emitDff_out {a clk q : SignalId} (h : (emitDff a clk).run d = .ok (q, d')) :
    q = d.netlist.signals.size := by
  obtain ⟨name, d₁, d₂, n, hq, -, -, -⟩ := emitDff_eq_ok h
  cases hq
  rfl

/-! ## Inputs of the top module -/

namespace Draft

/-- All signals of the name are driven. -/
def DrivesName (d : Draft) (x : String) : Prop :=
  ∃ bits, d.scope.bits? x = some bits ∧ ∀ id ∈ bits, d.driven[id]? = some true

theorem DrivesName.kept {x : String} (h : d.DrivesName x) (hkeeps : d.KeepsDriven d')
    (hbits : d'.scope.bits? x = d.scope.bits? x) : d'.DrivesName x := by
  obtain ⟨bits, hx, hdriven⟩ := h
  exact ⟨bits, hbits.trans hx, fun id hid => hkeeps id (hdriven id hid)⟩

end Draft

theorem markInputs_driven {bits : Bits} (h : (markInputs bits).run d = .ok (u, d')) :
    d.KeepsDriven d' ∧ d'.scope = d.scope ∧ ∀ id ∈ bits, d'.driven[id]? = some true := by
  induction bits generalizing d with
  | nil =>
    obtain ⟨-, rfl⟩ := pure_eq_ok.1 h
    exact ⟨refl _, rfl, fun _ hid => absurd hid List.not_mem_nil⟩
  | cons id rest ih =>
    obtain ⟨n, d₁, -, hclaim, hrest⟩ := markInputs_cons_eq_ok h
    obtain ⟨-, hdriven, hclaimed⟩ := claimDriver_driven hclaim
    obtain ⟨hkeeps, hscope, hmarked⟩ := ih hrest
    have hsame := claimDriver_sameScope id _ _ _ hclaim
    refine ⟨fun i hi => hkeeps i (hclaimed i hi), hscope.trans hsame, ?_⟩
    exact List.forall_mem_cons.2 ⟨hkeeps id hdriven, hmarked⟩

/-- A declaration leaves the bits of other names. -/
theorem bits?_declare {name x : String} {width : Nat} {bits : Bits}
    (hapart : Scope.NamesApart name x) (h : (declare name width).run d = .ok (bits, d')) :
    d'.scope.bits? x = d.scope.bits? x := by
  obtain ⟨-, names, d₁, hnew, rfl⟩ := declare_eq_ok h
  have hsame : d₁.scope = d.scope := respectsParts_sameScope.newSignals _ _ _ _ _ hnew
  rw [← hsame]
  exact Scope.bits?_bind_of_apart hapart bits

theorem declareInputs_driven {ports : List Port} {x : String}
    (hports : ∀ q ∈ ports, q.name ≠ x → Scope.NamesApart q.name x)
    (hdone : x ∈ ports.map Port.name ∨ d.DrivesName x)
    (h : (declareInputs ports).run d = .ok (u, d')) : d'.DrivesName x := by
  induction ports generalizing d with
  | nil =>
    obtain ⟨-, rfl⟩ := pure_eq_ok.1 h
    exact hdone.resolve_left List.not_mem_nil
  | cons q rest ih =>
    obtain ⟨hq, hother⟩ := List.forall_mem_cons.1 hports
    obtain ⟨bits, d₁, d₂, clock, hdeclare, hmark, hrest⟩ := declareInputs_cons_eq_ok h
    obtain ⟨hkeeps, hscope, hmarked⟩ := markInputs_driven hmark
    have hdeclared := respectsAll_keepsDriven.declare _ _ _ _ _ hdeclare
    refine ih hother ?_ hrest
    rcases eq_or_ne q.name x with rfl | hne
    · refine .inr ⟨bits, ?_, hmarked⟩
      show d₂.scope.bits? q.name = some bits
      obtain ⟨hlength, names, d₀, -, rfl⟩ := declare_eq_ok hdeclare
      rw [hscope]
      exact Scope.bits?_bind_self (ne_nil_of_length hlength)
    · refine hdone.imp (fun hmem => ?_) fun hdriven => hdriven.kept
        (fun i hi => hkeeps i (hdeclared i hi)) ?_
      · exact (List.mem_cons.1 hmem).resolve_left hne.symm
      · show d₂.scope.bits? x = d.scope.bits? x
        rw [hscope]
        exact bits?_declare (hq hne) hdeclare

theorem markOutputs_same {bits : Bits} (h : (markOutputs bits).run d = .ok (u, d')) :
    d'.driven = d.driven ∧ d'.scope = d.scope := by
  induction bits generalizing d with
  | nil =>
    obtain ⟨-, rfl⟩ := pure_eq_ok.1 h
    exact ⟨rfl, rfl⟩
  | cons id rest ih =>
    obtain ⟨n, -, hrest⟩ := markOutputs_cons_eq_ok h
    have hsame := ih hrest
    exact hsame

theorem declareOutputs_driven {ports : List Port} {x : String}
    (hports : ∀ q ∈ ports, Scope.NamesApart q.name x) (hdone : d.DrivesName x)
    (h : (declareOutputs ports).run d = .ok (u, d')) : d'.DrivesName x := by
  induction ports generalizing d with
  | nil =>
    obtain ⟨-, rfl⟩ := pure_eq_ok.1 h
    exact hdone
  | cons q rest ih =>
    obtain ⟨hq, hother⟩ := List.forall_mem_cons.1 hports
    obtain ⟨bits, d₁, d₂, hdeclare, hmark, hrest⟩ := declareOutputs_cons_eq_ok h
    obtain ⟨hdriven, hscope⟩ := markOutputs_same hmark
    have hdeclared := respectsAll_keepsDriven.declare _ _ _ _ _ hdeclare
    refine ih hother (hdone.kept (fun i hi => ?_) ?_) hrest
    · show d₂.driven[i]? = some true
      rw [hdriven]
      exact hdeclared i hi
    · show d₂.scope.bits? x = d.scope.bits? x
      rw [hscope]
      exact bits?_declare hq hdeclare

/-- The inputs of the top module are driven from outside before its body starts. -/
theorem openTop_driven {m : ModuleDecl} {top : String} {x : String}
    (hports : ∀ q ∈ m.params ++ m.outputs, q.name ≠ x → Scope.NamesApart q.name x)
    (hparam : x ∈ m.params.map Port.name) (hout : x ∉ m.outputs.map Port.name)
    (h : (openTop m).run (.empty top) = .ok (u, d)) : d.DrivesName x := by
  obtain ⟨hparams, houts⟩ := List.forall_mem_append.1 hports
  obtain ⟨d₁, hinputs, houtputs⟩ := openTop_eq_ok h
  have hdriven := declareInputs_driven hparams (.inl hparam) hinputs
  refine declareOutputs_driven (fun q hq => houts q hq ?_) hdriven houtputs
  rintro rfl
  exact hout (List.mem_map_of_mem hq)

/-! ## Clashing names -/

namespace Program

variable {program : Program} {x y : String}

/-- The name is that of a port or a target. -/
def Declares (p : Program) (x : String) : Prop :=
  ∃ m ∈ p.modules, x ∈ m.portNames ++ m.targets

/-- An instance makes the name: it is a target that it makes for itself, or a further output. -/
inductive Makes (p : Program) : String → Prop
  | temporary {x : String} (hx : p.MadeUp x) : Makes p x
  | member {t : String} {m : ModuleDecl} {out : Port} (ht : p.HasTarget t ∨ p.MadeUp t)
      (hm : m ∈ p.modules) (hout : out ∈ m.outputs) : Makes p (memberName t out.name)

/-- Some body may bind signals of `x` without assigning `x`: an instance makes a name that is `x`, is a
bit of `x` or has `x` for a bit, or a port or target other than `x` is such a name. -/
def Clashes (p : Program) (x : String) : Prop :=
  ∃ y, (p.Makes y ∨ p.Declares y ∧ y ≠ x) ∧ ¬ Scope.NamesApart y x

theorem apart_of_declares (h : ¬ program.Clashes x) (hy : program.Declares y) (hne : y ≠ x) :
    Scope.NamesApart y x :=
  by_contra fun hnot => h ⟨y, .inr ⟨hy, hne⟩, hnot⟩

theorem apart_of_makes (h : ¬ program.Clashes x) (hy : program.Makes y) : Scope.NamesApart y x :=
  by_contra fun hnot => h ⟨y, .inl hy, hnot⟩

/-- Among names without brackets and points only the targets that instances make can clash. -/
theorem PlainNames.not_clashes (hnames : program.PlainNames) (hx : program.Declares x)
    (hmade : ¬ program.MadeUp x) : ¬ program.Clashes x := by
  have hplain : ∀ {y}, program.Declares y → PlainName y := fun ⟨m, hm, hy⟩ => (hnames m hm).2 _ hy
  rintro ⟨y, hy, hnot⟩
  refine hnot ?_
  rcases hy with hy | ⟨hy, hne⟩
  · cases hy with
    | temporary hy =>
      refine Scope.namesApart_of_ne (hplain hx).1 (hnames.target (.inr hy)).1 ?_
      rintro rfl
      exact hmade hy
    | member ht hm hout =>
      have hfield := hnames.port hm (List.mem_append_right _ hout)
      exact Scope.namesApart_of_ne (hplain hx).1 ((hnames.target ht).unindexed_memberName hfield)
        (memberName_ne (hplain hx) _ _)
  · exact Scope.namesApart_of_ne (hplain hx).1 (hplain hy).1 hne

end Program

/-! ## Statements that drive an input -/

/-- The statement gives the output of a gate or a flip-flop to a parameter of its module that is no
output. -/
structure ModuleDecl.DrivesInput (m : ModuleDecl) (s : Statement) : Prop where
  mem : s ∈ m.statements
  param : s.target ∈ m.params.map Port.name
  output : s.target ∉ m.outputs.map Port.name
  gate : ∃ callee args, s.expr = .call callee args ∧ isPrimitive callee = true

variable {program : Program} {limit depth : Nat} {top : String} {m : ModuleDecl}
  {start finish : Draft} {s : Statement}

/-- The bits of a port stay, unless another name clashes with its name. -/
theorem Scope.Becomes.bits?_port {scope scope' : Scope} {x : String} (hport : scope.isPort x = true)
    (hclash : ¬ program.Clashes x) (h : scope.Becomes program scope') :
    scope'.bits? x = scope.bits? x := by
  induction h with
  | refl => rfl
  | @tail e _ hbefore hstep ih =>
    obtain ⟨name, bits, hname, rfl⟩ := hstep
    have hapart : NamesApart name x := by
      cases hname with
      | target hname hfree =>
        obtain ⟨m, hm, hmem⟩ := hname
        refine Program.apart_of_declares hclash ⟨m, hm, List.mem_append_right _ hmem⟩ ?_
        rintro rfl
        rw [Scope.Becomes.isPort_eq hbefore, hport] at hfree
        cases hfree
      | temporary hname => exact Program.apart_of_makes hclash (.temporary hname)
      | member ht hbound hm hout => exact Program.apart_of_makes hclash (.member ht hm hout)
    exact (bits?_bind_of_apart hapart bits).trans ih

/-- What a gate or flip-flop is wired into had no driver when the arguments were there. Only the first
signal gets the output, the others get 0. -/
theorem elaborateStatement_gate {cx : Context} {callee : String} {args : List Expr}
    (hexpr : s.expr = .call callee args) (hcallee : isPrimitive callee = true)
    (h : (elaborateStatement cx s).run d = .ok (u, d')) :
    ∃ ids d₁ dst, (Expr.lowBits cx args).run d = .ok (ids, d₁) ∧
      d₁.scope.bits? s.target = some dst ∧ ∀ (k : Nat) (id : SignalId), dst[k]? = some id →
        [d₁.netlist.signals.size].getD k zeroId = id ∨ d₁.Free id := by
  obtain ⟨src, d₂, hsrc, hwiring⟩ := bind_eq_ok.1 h
  obtain ⟨dst, d₃, hdst, hwire⟩ := bind_eq_ok.1 hwiring
  obtain ⟨hdst, hd₃⟩ := bitsOf_eq_ok.1 hdst
  subst hd₃
  simp only [Statement.bits, hexpr] at hsrc
  obtain ⟨-, a, b, d₁, out, hids, rfl, hout⟩ := Expr.call_primitive hcallee hsrc
  obtain rfl : out = d₁.netlist.signals.size := hout.elim emitNand_out emitDff_out
  have hsame : d₁.SameScope d₃ := hout.elim (respectsParts_sameScope.emitNand a b _ _ _)
    (emitDff_sameScope a b _ _ _)
  have hkeeps : d₁.KeepsDriven d₃ := hout.elim (respectsAll_keepsDriven.emitNand a b _ _ _)
    (respectsAll_keepsDriven.dff a b _ _ _)
  rw [show d₃.scope = d₁.scope from hsame] at hdst
  exact ⟨[a, b], d₁, dst, hids, hdst, fun k id hk => (wire_free hwire hk).imp_right hkeeps.free⟩

/-- A statement that drives an input finds the first signal of the input without a driver, and the
others without a driver or constantly 0. So they were when the body started. -/
theorem NestedRun.input_free (hrun : NestedRun program limit top depth m start finish)
    (hs : m.DrivesInput s) (hclash : ¬ program.Clashes s.target) :
    ∃ id more, start.scope.bits? s.target = some (id :: more) ∧ start.driven[id]? = some false ∧
      ∀ i ∈ more, i = zeroId ∨ start.driven[i]? = some false := by
  obtain ⟨q, hq, hname⟩ := List.mem_map.1 hs.param
  have hport : start.scope.isPort s.target = true := hname ▸ hrun.isPort_param hq
  obtain ⟨callee, args, hexpr, hcallee⟩ := hs.gate
  obtain ⟨before, after, hsplit⟩ := List.append_of_mem hs.mem
  obtain ⟨d, harrives⟩ := ModuleDecl.Arrives.of_body hsplit hrun.body
  obtain ⟨d', hstatement, -⟩ := harrives.next hsplit hrun.body
  obtain ⟨ids, d₁, dst, hids, hdst, hwired⟩ := elaborateStatement_gate hexpr hcallee hstatement
  -- The bits of the input and what drives them, from the start of the body to the statement.
  have hbecomes : start.TakesOnly program d₁ := IsTrans.trans _ _ _
    (harrives.takesOnly hrun.mem hsplit)
    (Expr.lowBits_respects (contextAt_takesOnly program limit depth) _ _ _ _ hids)
  have hkeeps : start.KeepsDriven d₁ := IsTrans.trans _ _ _
    (harrives.related (respectsAll_keepsDriven.declareBody _ _) (respectsAll_keepsDriven.statements
      (respectsAll_keepsDriven.contextAt program limit depth) _))
    (Expr.lowBits_respects (contextAt_keepsDriven program limit depth) _ _ _ _ hids)
  have hstart : start.scope.bits? s.target = some dst :=
    ((hbecomes hrun.full).bits?_port hport hclash).symm.trans hdst
  have haccounted : d₁.Accounted := ((Expr.all_safe (contextAt_safe program limit depth)
    args).lowBits (harrives.accounted hrun.accounted) |>.of_run hids).1.accounted
  have hundriven : ∀ i ∈ dst, d₁.Free i → start.driven[i]? = some false := fun i hi hfree =>
    (hrun.accounted.scope_known.bits? hstart i hi).undriven hrun.accounted (hkeeps.free hfree)
  cases dst with
  | nil => exact absurd rfl (hrun.full.bits_ne_nil hstart)
  | cons id more =>
    refine ⟨id, more, hstart, ?_, fun i hi => ?_⟩
    · have hlt := (haccounted.scope_known.bits? hdst id List.mem_cons_self).lt
      exact hundriven id List.mem_cons_self
        ((hwired 0 id rfl).resolve_left (Nat.ne_of_gt hlt))
    · obtain ⟨k, hk⟩ := List.mem_iff_getElem?.1 hi
      exact (hwired (k + 1) i hk).imp Eq.symm (hundriven i (List.mem_cons_of_mem _ hi))

/-! ## Elaborated programs -/

variable {config : ElabConfig} {n : Netlist}

/-- If elaboration succeeds, the body of the top module drives none of its inputs. If the body of an
instance drives one, then the input had signals without a driver when the instance was made. Every
instance has a run for which this is said. Inputs whose names clash with others are left out. -/
theorem elaborate_inputs (he : elaborate program top config = .ok n) :
    (∀ m s, program.find? top = some m → m.DrivesInput s → program.Clashes s.target) ∧
      (∀ i < n.instances.size, HasNestedRun program config.maxInlineDepth top n i) ∧
        ∀ {depth : Nat} {m : ModuleDecl} {start finish : Draft} {s : Statement},
          NestedRun program config.maxInlineDepth top depth m start finish → m.DrivesInput s →
            ¬ program.Clashes s.target →
              ∃ id more, start.scope.bits? s.target = some (id :: more) ∧
                start.driven[id]? = some false ∧
                  ∀ i ∈ more, i = zeroId ∨ start.driven[i]? = some false := by
  refine ⟨fun m s hfind hs => ?_, fun i hi => hasNestedRun_of_instance he hi,
    fun hrun hs hclash => hrun.input_free hs hclash⟩
  by_contra hclash
  obtain ⟨m', start, finish, hfind', hopen, hbody, -⟩ := elaborate_eq_ok he
  cases hfind.symm.trans hfind'
  have hrun : NestedRun program config.maxInlineDepth top config.maxInlineDepth m start finish :=
    .top hfind hopen hbody
  have hports : ∀ q ∈ m.params ++ m.outputs, q.name ≠ s.target → Scope.NamesApart q.name s.target :=
    fun q hq hne => Program.apart_of_declares hclash
      ⟨m, hrun.mem, List.mem_append_left _ (List.mem_map_of_mem hq)⟩ hne
  obtain ⟨bits, hbits, hdriven⟩ := openTop_driven hports hs.param hs.output hopen
  obtain ⟨id, more, hstart, hfree, -⟩ := hrun.input_free hs hclash
  cases hbits.symm.trans hstart
  rw [hdriven id List.mem_cons_self] at hfree
  cases hfree

/-- Drives its second input from inside. -/
def backDriver : ModuleDecl where
  name := "child"
  params := [{ name := "c" }, { name := "a" }]
  outputs := [{ name := "r" }]
  statements := [
    { target := "a", expr := .call "nand" [.ident "c", .ident "c"] },
    { target := "r", expr := .ident "c" }]

/-- The argument for that input is an output that nothing else drives. -/
def drivenFromInside : Program where
  modules := [
    backDriver,
    { name := "top"
      params := [{ name := "x" }]
      outputs := [{ name := "o" }, { name := "p" }]
      statements := [{ target := "o", expr := .call "child" [.ident "x", .ident "p"] }] }]

theorem elaborate_inputs_drivenFromInside :
    ∃ n, elaborate drivenFromInside "top" {} = .ok n ∧
      (∀ m s, drivenFromInside.find? "top" = some m → m.DrivesInput s →
        drivenFromInside.Clashes s.target) ∧
      (∀ i < n.instances.size, HasNestedRun drivenFromInside 64 "top" n i) ∧
      ∀ {depth : Nat} {m : ModuleDecl} {start finish : Draft} {s : Statement},
        NestedRun drivenFromInside 64 "top" depth m start finish → m.DrivesInput s →
          ¬ drivenFromInside.Clashes s.target →
            ∃ id more, start.scope.bits? s.target = some (id :: more) ∧
              start.driven[id]? = some false ∧
                ∀ i ∈ more, i = zeroId ∨ start.driven[i]? = some false := by
  have hruns : (elaborate drivenFromInside "top" {}).toBool = true := by decide +kernel
  cases he : elaborate drivenFromInside "top" {} with
  | error e =>
    rw [he] at hruns
    exact absurd hruns Bool.false_ne_true
  | ok n => exact ⟨n, rfl, elaborate_inputs he⟩

/-- At the top the assignment is an error. In an instance it is not, though the name clashes with no
other one. -/
theorem input_driven_from_inside :
    elaborate drivenFromInside "child" {} = .error (.multipleDrivers "a") ∧
      ∃ (n : Netlist) (i : InstanceId) (inst : Instance) (m : ModuleDecl) (s : Statement),
        elaborate drivenFromInside "top" {} = .ok n ∧ n.instances[i]? = some inst ∧
          drivenFromInside.find? inst.moduleName = some m ∧ m.DrivesInput s ∧
            ¬ drivenFromInside.Clashes s.target := by
  have herror : (match elaborate drivenFromInside "child" {} with
      | .error e => decide (e = .multipleDrivers "a")
      | .ok _ => false) = true := by decide +kernel
  have hruns : (match elaborate drivenFromInside "top" {} with
      | .error _ => false
      | .ok n => decide ((n.instances[1]?.map Instance.moduleName) = some "child")) = true := by
    decide +kernel
  have hclash : ¬ drivenFromInside.Clashes "a" :=
    Program.PlainNames.not_clashes (by decide) ⟨backDriver, List.mem_cons_self, by decide⟩
      (Program.not_madeUp (by decide))
  constructor
  · split at herror
    · next e he => rw [he, of_decide_eq_true herror]
    · exact absurd herror Bool.false_ne_true
  · split at hruns
    · exact absurd hruns Bool.false_ne_true
    · next n he =>
      obtain ⟨inst, hinst, hname⟩ := Option.map_eq_some_iff.1 (of_decide_eq_true hruns)
      have hdrives : backDriver.DrivesInput
          { target := "a", expr := .call "nand" [.ident "c", .ident "c"] } :=
        ⟨List.mem_cons_self, by decide, by decide, _, _, rfl, by decide⟩
      exact ⟨n, 1, inst, backDriver, _, he, hinst, by rw [hname]; rfl, hdrives, hclash⟩

end NandHdl
