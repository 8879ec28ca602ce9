-- SUMMARY: In the scope of an instance a body gives only names of this instance and of those below it, and it binds its own targets and what instances publish (`elaborateBody_within`).
import NandHdl.Proofs.Elaboration.Provenance

/-!
# Bodies within their instances

The scope of a body has the prefix and the number of the instance. Calls change to the scope of another
instance and back, so this holds at each step of the body, whatever it calls. What is said here about one
body is proved for all nested bodies at once, by induction on the levels of nesting that are left.
-/

namespace NandHdl

open Elab Netlist

namespace Draft

variable {p : Program} {m : ModuleDecl} {d d' : Draft} {given bound : String → Prop}

/-- The scope is that of an instance of `m`. If this is the top, the ports of `m` are bound from
outside. -/
structure Inside (p : Program) (m : ModuleDecl) (d : Draft) : Prop where
  places : ∃ inst, d.netlist.Places p d.scope.owner inst m ∧ inst.namePrefix = d.scope.namePrefix
  isPort : d.scope.owner = 0 → ∀ x ∈ m.portNames, d.scope.isPort x = true

theorem Inside.accrues (hin : d.Inside p m) (h : d.Accrues given bound d') : d'.Inside p m := by
  obtain ⟨⟨inst, hplaces, hqual⟩, hports⟩ := hin
  refine ⟨⟨inst, ?_, hqual.trans h.scope.namePrefix_eq.symm⟩, ?_⟩
  · rw [h.scope.owner_eq]
    exact hplaces.mono h.netlist.grows
  · rwa [h.scope.owner_eq, h.scope.isPort_eq]

theorem Inside.owner_lt (hin : d.Inside p m) : d.scope.owner < d.netlist.instances.size := by
  obtain ⟨inst, ⟨hinst, -⟩, -⟩ := hin.places
  exact (Array.getElem?_eq_some_iff.1 hinst).1

/-- From one draft to the other the body of `m` may bind the name: it is a target of `m` that is no
port, or an instance publishes it. -/
def Yields (p : Program) (m : ModuleDecl) (d d' : Draft) (x : String) : Prop :=
  x ∈ m.targets ∧ d.scope.isPort x = false ∨ d'.netlist.Publishes p d.scope.owner m x

theorem Yields.mono {d'' : Draft} {x : String} (h : d.Yields p m d' x)
    (hgrows : d'.netlist.Grows d''.netlist) : d.Yields p m d'' x :=
  h.imp_right fun hx => hx.mono hgrows

/-- A name that the body may bind has its global name from the instance. -/
theorem Inside.covers (hin : d.Inside p m) {x : String} (hx : d.Yields p m d x) :
    Covers (d.netlist.Given p) (d.scope.globalName x) := by
  obtain ⟨⟨inst, hplaces, hqual⟩, hports⟩ := hin
  rw [Scope.globalName, ← hqual]
  refine LocalName.covers ?_ hplaces
  rcases hx with ⟨htarget, hfree⟩ | hpublished
  · refine .target htarget fun hzero hport => ?_
    rw [hports hzero x hport] at hfree
    cases hfree
  · exact .published hpublished

/-- In the scope of an instance of `m` only such names are given and bound as the body may give and
bind. -/
def Within (p : Program) (m : ModuleDecl) (d d' : Draft) : Prop :=
  d.Inside p m → d.Accrues (d'.netlist.Given p) (d.Yields p m d') d'

instance (p : Program) (m : ModuleDecl) : IsPreorder Draft (Within p m) where
  refl _ := fun _ => refl _
  trans d d₁ d₂ h h' hin := by
    have hfirst := h hin
    have hsecond := h' (hin.accrues hfirst)
    have hgrows := hsecond.netlist.grows
    refine (hfirst.mono (fun x hx => hx.mono hgrows) fun x hx => hx.mono hgrows).trans
      (hsecond.mono (fun x hx => hx) fun x hx => ?_)
    rwa [Yields, hfirst.scope.isPort_eq, hfirst.scope.owner_eq] at hx

end Draft

open Draft

/-! ## Gates and flip-flops -/

/-- Gates name their outputs by their numbers. -/
theorem respectsGates_within (p : Program) (m : ModuleDecl) : RespectsGates (Within p m) where
  output d d' out h hin := by
    obtain ⟨_, _, hget, h⟩ := bind_eq_ok.1 h
    cases hget
    exact (newSignal_enriches (.gate _) hin.owner_lt h).widen
  driver id d d' u h _ := (claimDriver_enriches h).widen
  gate in1 in2 out d d' u h _ := (modifyNetlist_enriches (.addNand _ in1 in2 out) h).widen

theorem emitDff_within (p : Program) (m : ModuleDecl) (a clk : SignalId) :
    (emitDff a clk).Respects (Within p m) := by
  intro d d' q h hin
  obtain ⟨_, _, hget, hemit⟩ := bind_eq_ok.1 h
  cases hget
  obtain ⟨id, d₁, hq, hrest⟩ := bind_eq_ok.1 hemit
  obtain ⟨_, d₂, hclaim, hflop⟩ := bind_eq_ok.1 hrest
  obtain ⟨_, _, hget', hadd⟩ := bind_eq_ok.1 hflop
  cases hget'
  obtain ⟨n, e, hchecked, hset⟩ := bind_eq_ok.1 hadd
  obtain ⟨hn, rfl⟩ := ofChecked_eq_ok.1 hchecked
  obtain ⟨_, d₃, hmodify, hdone⟩ := bind_eq_ok.1 hset
  obtain ⟨-, rfl⟩ := pure_eq_ok.1 hdone
  have hsignal : d.Enriches (d'.netlist.Given p) d₁ := newSignal_enriches (.flop _) hin.owner_lt hq
  have hadded : e.Enriches (d'.netlist.Given p) d' := modifyNetlist_enriches (.addDff hn) hmodify
  exact ((hsignal.trans (claimDriver_enriches hclaim)).trans hadded).widen

/-! ## Instances -/

section

variable {p : Program} {m callee : ModuleDecl} {d d' : Draft}

section

variable {inst : Instance} {target : Option String} {name : String} {first : Bits} {d₁ d₂ : Draft}

/-- When a new instance is noted, it gets a target and its first output. The target is one of the
caller's, or the instance makes it. -/
theorem firstOutput_accrues (hin : d.Inside p m) (hplaces : d.netlist.Places p inst.id inst callee)
    (hparent : inst.parent = some d.scope.owner) (htarget : ∀ t, target = some t → t ∈ m.targets)
    (h₁ : (instanceTarget callee inst.id callee.firstWidth target).run d = .ok (name, d₁))
    (h₂ : (firstOutput callee name inst).run d₁ = .ok (first, d₂)) :
    d.Accrues (d.netlist.Given p) (d.Yields p m d) d₂ ∧
      (name ∈ m.targets ∨ name = callee.temporary inst.id) := by
  cases target with
  | some t =>
    obtain ⟨rfl, rfl⟩ := pure_eq_ok.1 h₁
    have hname := htarget _ rfl
    refine ⟨?_, .inl hname⟩
    unfold firstOutput at h₂
    split at h₂
    · obtain ⟨-, rfl⟩ := pure_eq_ok.1 h₂
      exact refl _
    · obtain ⟨parent, hcaller, -⟩ := hin.places
      exact firstOutputBits_accrues (fun hport => .inl ⟨hname, hport⟩)
        (fun hport => hin.covers (.inl ⟨hname, hport⟩))
        (LocalName.covers (.surplus hplaces.inst_eq hparent hcaller hname) hplaces) hplaces.lt
        hin.owner_lt h₂
  | none =>
    obtain ⟨_, e, hdiscard, hdone⟩ := bind_eq_ok.1 h₁
    obtain ⟨bits, hdeclare⟩ := discard_eq_ok hdiscard
    obtain ⟨rfl, rfl⟩ := pure_eq_ok.1 hdone
    have hyields : d.Yields p m d (callee.temporary inst.id) :=
      .inr (.own hplaces hparent (.inl rfl))
    have hdeclared : d.Accrues (d.netlist.Given p) (d.Yields p m d) d₁ :=
      declare_accrues hyields ((hin.covers hyields).bitNames _) hin.owner_lt hdeclare
    -- The target that is made is as wide as the output, so it is neither widened nor cut.
    obtain ⟨hlength, names, d₀, -, rfl⟩ := declare_eq_ok hdeclare
    have hbits : (d₀.scope.bind (callee.temporary inst.id) bits).bits? (callee.temporary inst.id) =
        some bits := Scope.bits?_bind_self (ne_nil_of_length hlength)
    obtain ⟨-, rfl⟩ := firstOutput_of_declared hbits (hlength ▸ Nat.le_max_right _ _) h₂
    exact ⟨hdeclared, .inr rfl⟩

end

/-- An instance of a module of the program gives the names of its own, and it publishes names to the
body that it stands in. -/
theorem openInstance_within (hfind : p.find? callee.name = some callee) {target : Option String}
    (htarget : ∀ t, target = some t → t ∈ m.targets) (args : List Bits) :
    (openInstance callee args target).Respects (Within p m) := by
  rintro d d' ⟨first, child⟩ h hin
  obtain ⟨name, d₁, d₂, d₃, d₄, _, _, hname, hfirst, hparams, hout, houts⟩ := openInstance_steps h
  let d₀ : Draft := { d with
    netlist := d.netlist.addInstance callee.name d.scope.owner (d.nextInstance callee).namePrefix }
  have hnoted : ∀ {given}, d.Enriches given d₀ := enriches_of_netlist (.addInstance ..)
  have hplaces : d₀.netlist.Places p (d.nextInstance callee).id (d.nextInstance callee) callee :=
    ⟨Array.getElem?_push_size, hfind⟩
  have hempty : d.Enriches (fun _ => False) d₀ := hnoted
  have hcaller : d₀.Inside p m := hin.accrues hempty
  obtain ⟨haccrues, hlocal⟩ := firstOutput_accrues hcaller hplaces rfl htarget hname hfirst
  have hports : ∀ q ∈ callee.params ++ callee.outputs,
      Covers (d₀.netlist.Given p) ((d.nextInstance callee).namePrefix ++ q.name) := fun q hq =>
    LocalName.covers (.port (Nat.zero_lt_of_lt hin.owner_lt) (List.mem_map_of_mem hq)) hplaces
  have hmembers : ∀ out ∈ callee.outputs.drop 1,
      d₀.Yields p m d₀ (memberName name out.name) := by
    intro out hmem
    rcases hlocal with hmine | rfl
    · exact .inr (.member hplaces rfl hmine hmem)
    · exact .inr (.own hplaces rfl (.inr ⟨out, hmem, rfl⟩))
  have hinputs := bindParams_enriches (fun q hq => hports q (List.mem_append_left _ hq)) hparams
  have hresult := bindFirst_enriches (fun q hq => hports q (List.mem_append_right _ hq)) hout
  have hgrows := (haccrues.trans hinputs.widen).trans hresult.widen
  have houtputs := bindOutputs_accrues hmembers
    (fun q hq => hports q (List.mem_append_right _ (List.mem_of_mem_drop hq)))
    (fun out hmem => hcaller.covers (hmembers out hmem))
    (hplaces.lt.trans_le hgrows.netlist.grows.instances_le) houts
  have hopened := hgrows.trans houtputs
  exact hnoted.widen.trans (hopened.mono (fun x hx => hx.mono hopened.netlist.grows)
    fun x hx => hx.mono hopened.netlist.grows)

/-- The scope that is opened for a body is that of the new instance. -/
theorem openInstance_owner (hm : callee ∈ p.modules) {target : Option String}
    (htarget : ∀ t, target = some t → p.HasTarget t) {args : List Bits} {first : Bits} {child : Scope}
    (h : (openInstance callee args target).run d = .ok ((first, child), d')) :
    child.owner = d.netlist.instances.size ∧
      child.namePrefix = (d.nextInstance callee).namePrefix := by
  obtain ⟨-, s, -, hchild⟩ := openInstance_child hm htarget h
  refine hchild (fun s => s.owner = d.netlist.instances.size ∧
    s.namePrefix = (d.nextInstance callee).namePrefix) (fun q _ s bits hs => ?_) ⟨rfl, rfl⟩
  exact ⟨(Scope.owner_bind s q.name bits).trans hs.1,
    (Scope.namePrefix_bind s q.name bits).trans hs.2⟩

theorem openInstance_inside (hin : d.Inside p m) (hfind : p.find? callee.name = some callee)
    {target : Option String} (htarget : ∀ t, target = some t → p.HasTarget t) {args : List Bits}
    {first : Bits} {child : Scope}
    (h : (openInstance callee args target).run d = .ok ((first, child), d')) :
    Inside p callee { d' with scope := child } := by
  obtain ⟨howner, hqual⟩ := openInstance_owner (List.mem_of_find?_eq_some hfind) htarget h
  refine ⟨⟨d.nextInstance callee, ⟨?_, hfind⟩, hqual.symm⟩, fun hzero => ?_⟩
  · show d'.netlist.instances[child.owner]? = _
    rw [howner, openInstance_instances h, Array.getElem?_push_size]
  · exact absurd (howner.symm.trans hzero) (Nat.ne_of_gt (Nat.zero_lt_of_lt hin.owner_lt))

theorem instantiate_within (hfind : p.find? callee.name = some callee) {target : Option String}
    (htarget : ∀ t, target = some t → t ∈ m.targets) (args : List Bits) {body : Elab Unit}
    (hbody : body.Respects (Within p callee)) :
    (instantiate callee args target body).Respects (Within p m) := by
  intro d d' first h hin
  obtain ⟨child, d₁, d₂, hopen, hrun, rfl⟩ := instantiate_eq_ok h
  have hopened := openInstance_within hfind htarget args _ _ _ hopen hin
  obtain ⟨inst, hplaces, -⟩ := hin.places
  have hchild := openInstance_inside hin hfind
    (fun t ht => ⟨m, List.mem_of_find?_eq_some hplaces.find_eq, htarget t ht⟩) hopen
  have hnested := (hbody _ _ _ hrun hchild).netlist
  have hgrows := hnested.grows
  exact ⟨(hopened.netlist.mono fun x hx => hx.mono hgrows).trans hnested,
    hopened.scope.mono fun x hx => hx.mono hgrows⟩

/-! ## Bodies -/

/-- Declares targets of `m`. -/
theorem declareTargets_within {statements : List Statement}
    (htargets : ∀ s ∈ statements, s.target ∈ m.targets) (widths : NameMap Nat) (declared : NameSet) :
    (declareTargets widths declared statements).Respects (Within p m) := by
  induction statements generalizing declared with
  | nil => exact respects_pure _
  | cons s rest ih =>
    obtain ⟨hs, hrest⟩ := List.forall_mem_cons.1 htargets
    intro d d' u h
    obtain ⟨_, _, hscope, h⟩ := bind_eq_ok.1 h
    cases hscope
    split at h
    · exact ih hrest declared d d' u h
    · next hnew =>
      rw [Bool.or_eq_true, not_or, Bool.not_eq_true] at hnew
      obtain ⟨_, d₁, hdiscard, h⟩ := bind_eq_ok.1 h
      obtain ⟨bits, hdeclare⟩ := discard_eq_ok hdiscard
      have hfirst : d.Within p m d₁ := by
        intro hin
        have hyields : d.Yields p m d s.target := .inl ⟨hs, hnew.1⟩
        have hdeclared := declare_accrues hyields ((hin.covers hyields).bitNames _) hin.owner_lt
          hdeclare
        exact hdeclared.mono (fun x hx => hx.mono hdeclared.netlist.grows)
          fun x hx => hx.mono hdeclared.netlist.grows
      exact IsTrans.trans _ _ _ hfirst (ih hrest _ d₁ d' u h)

theorem declareBody_within (p : Program) (cx : Context) (m : ModuleDecl) :
    (declareBody cx m.statements).Respects (Within p m) :=
  respects_scope.bind fun _ =>
    declareTargets_within (fun _ hs => List.mem_map_of_mem hs) _ _

section

variable {cx : Context}
  (hexpand : ∀ expand, cx.expand = some expand → ∀ name callee, p.find? name = some callee →
    ∀ m args target, (∀ t, target = some t → t ∈ m.targets) →
      (expand callee args target).Respects (Within p m))
  (hcx : cx.program = p)

include hexpand hcx

theorem context_within (m : ModuleDecl) : cx.Respects (Within p m) where
  nand := (respectsGates_within p m).emitNand
  dff := emitDff_within p m
  expand expand hsome name callee hfind args :=
    hexpand expand hsome name callee (hcx ▸ hfind) m args none nofun

theorem statement_within {s : Statement} (hs : s.target ∈ m.targets) :
    (s.bits cx).Respects (Within p m) :=
  s.bits_respects (context_within hexpand hcx m) fun expand hsome name callee hfind args =>
    hexpand expand hsome name callee (hcx ▸ hfind) m args (some s.target) fun _ ht =>
      Option.some_inj.1 ht ▸ hs

theorem statements_within {statements : List Statement}
    (htargets : ∀ s ∈ statements, s.target ∈ m.targets) :
    (elaborateStatements cx statements).Respects (Within p m) := by
  induction statements with
  | nil => exact respects_pure _
  | cons s rest ih =>
    obtain ⟨hs, hrest⟩ := List.forall_mem_cons.1 htargets
    have hvalue := statement_within hexpand hcx hs
    exact (hvalue.bind fun src => (bitsOf_respects s.target).bind fun dst =>
      (respectsGates_within p m).wire src dst).bind fun _ => ih hrest

end

/-- Nested bodies are as the ones that they are nested in. -/
theorem expand_within (p : Program) (limit depth : Nat) :
    ∀ expand, (contextAt p limit depth).expand = some expand → ∀ name callee,
      p.find? name = some callee → ∀ m args target, (∀ t, target = some t → t ∈ m.targets) →
        (expand callee args target).Respects (Within p m) := by
  induction depth with
  | zero => exact nofun
  | succ depth ih =>
    rintro expand ⟨⟩ name callee hfind m args target htarget
    obtain ⟨-, rfl⟩ := Program.find?_eq_some hfind
    refine instantiate_within hfind htarget args ?_
    exact (declareBody_within p _ callee).bind fun _ =>
      statements_within ih (contextAt_program p limit depth) fun _ hs => List.mem_map_of_mem hs

section

variable (p) (limit depth : Nat)

/-- In the scope of an instance of `m` an expression gives only names of the instance and of those that
it makes, and it binds only what these publish. -/
theorem contextAt_within (m : ModuleDecl) : (contextAt p limit depth).Respects (Within p m) :=
  context_within (expand_within p limit depth) (contextAt_program p limit depth) m

theorem bits_within {s : Statement} (hs : s.target ∈ m.targets) :
    (s.bits (contextAt p limit depth)).Respects (Within p m) :=
  statement_within (expand_within p limit depth) (contextAt_program p limit depth) hs

theorem elaborateStatements_within {statements : List Statement}
    (htargets : ∀ s ∈ statements, s.target ∈ m.targets) :
    (elaborateStatements (contextAt p limit depth) statements).Respects (Within p m) :=
  statements_within (expand_within p limit depth) (contextAt_program p limit depth) htargets

theorem elaborateBody_within (m : ModuleDecl) :
    (elaborateBody (contextAt p limit depth) m.statements).Respects (Within p m) :=
  (declareBody_within p _ m).bind fun _ =>
    elaborateStatements_within p limit depth fun _ hs => List.mem_map_of_mem hs

end

end

end NandHdl
