-- SUMMARY: The order of statements does not matter (`elaborate_perm_statements`): the circuits that a top module leads to cannot be told apart at its ports.
import NandHdl.Proofs.Design.InRange
import NandHdl.Proofs.Reordering.Ports
import NandHdl.Proofs.Reordering.Runs

/-!
# Statements in another order

The top module is opened in the same way, whatever the order of its statements. From there on the
drafts are similar: a permutation leads from the one to the other and leaves the ports alone. So the
circuits have levels or not, and they answer the same to operations on the ports.
-/

namespace NandHdl

variable {m : ModuleDecl} {d e e' : Draft} {n n' : Netlist} {σ : Equiv.Perm SignalId}

/-! ## Widths -/

/-- The inferred width of the target `t` depends on that of the target `u`: a statement gives `t` a
value whose width is made up of the width of `u`, among others. -/
def ModuleDecl.SizedBy (m : ModuleDecl) (t u : String) : Prop :=
  t ∉ m.portNames ∧ u ∉ m.portNames ∧ u ∈ m.targets ∧
    ∃ s ∈ m.statements, s.target = t ∧ { name := u } ∈ s.expr.sizing

theorem ModuleDecl.Opened.sizedBy (hd : m.Opened d) (htargets : ∀ x ∈ m.targets, PlainName x)
    {t u : String} (h : d.scope.SizedBy m.statements t u) : m.SizedBy t u := by
  obtain ⟨ht, ⟨hu, s, hs, rfl⟩, s', hs', htarget, r, hr, htext⟩ := h
  have hnot : ∀ {x}, d.scope.isPort x = false → x ∉ m.portNames := by
    intro x hx
    rw [← hd.isPort_iff, hx]
    exact Bool.false_ne_true
  have hmem : s.target ∈ m.targets := List.mem_map_of_mem hs
  refine ⟨hnot ht, hnot hu, hmem, s', hs', htarget, ?_⟩
  -- The name of a further output is no name of a target.
  obtain ⟨name, field⟩ := r
  cases field with
  | none =>
    obtain rfl : name = s.target := htext
    exact hr
  | some field => exact absurd htext (memberName_ne (htargets _ hmem) name field)

/-! ## Ports -/

/-- Operations that reach signals through the ports of the module alone. -/
def SimOp.OnPorts (m : ModuleDecl) : SimOp → Prop
  | .set name _ | .get name =>
    ∃ p ∈ m.params ++ m.outputs, name ∈ Elab.bitNames p.name (max 1 p.width)
  | .poke name _ | .peek name => name ∈ m.portNames
  | .evaluate | .step | .run _ | .reset => True
  | _ => False

/-- The draft `e` has been made from `d` by the statements of a body. -/
structure Draft.Fills (d e : Draft) : Prop where
  keeps : d.KeepsPorts e
  grows : d.netlist.Grows e.netlist

/-- A name of a port stands for the same signals in both circuits, and these are older than the
statements. -/
theorem ModuleDecl.Opened.shared (hd : m.Opened d) (hports : ∀ x ∈ m.portNames, PlainName x)
    (he : d.Fills e) (he' : d.Fills e') (hold : ∀ i < d.netlist.signals.size, σ i = i) {op : SimOp}
    (hop : op.OnPorts m) : op.Shared e.netlist e'.netlist σ := by
  have hbit : ∀ {name}, (∃ p ∈ m.params ++ m.outputs,
      name ∈ Elab.bitNames p.name (max 1 p.width)) →
        e'.netlist.signalId? name = e.netlist.signalId? name ∧
          ∀ i, e.netlist.signalId? name = some i → σ i = i := by
    rintro name ⟨p, hp, hname⟩
    have hsame := (hd.named p hp).signalId?_eq he.grows hname
    refine ⟨((hd.named p hp).signalId?_eq he'.grows hname).trans hsame.symm, fun i hi => ?_⟩
    exact hold i (hd.accounted.wellformed.name_lt (hsame ▸ hi))
  have hbus : ∀ {name}, name ∈ m.portNames → e'.netlist.targets name = e.netlist.targets name ∧
      ∀ i ∈ e.netlist.targets name, σ i = i := by
    intro name hname
    obtain ⟨p, hp, rfl⟩ := List.mem_map.1 hname
    have hport := (hd.isPort_iff p.name).2 hname
    have hplain := (hports p.name hname).1
    have hsame := he.keeps.targets_eq he.grows hport hplain (hd.named p hp)
    refine ⟨(he'.keeps.targets_eq he'.grows hport hplain (hd.named p hp)).trans hsame.symm, ?_⟩
    intro i hi
    exact hold i (Netlist.mem_targets_lt hd.accounted.wellformed (hsame ▸ hi))
  cases op with
  | set name _ | get name => exact hbit hop
  | poke name _ | peek name => exact hbus hop
  | evaluate | step | run _ | reset => trivial
  | startRecording _ | startRecordingAll | stopRecording | exportVcd _ => exact hop.elim

/-! ## Circuits -/

/-- The simulations give the same answers to all operations on the ports, and after each operation
the outputs have the same values. -/
def Simulation.SameAtPorts (m : ModuleDecl) (outputs : Array SignalId) (a b : Simulation) : Prop :=
  ∀ ops : List SimOp, (∀ op ∈ ops, op.OnPorts m) →
    List.Forall₂ (fun op entries => op.AnsweredAlike outputs entries.1 entries.2) ops
      ((a.transcript ops).zip (b.transcript ops))

/-- Two circuits cannot be told apart at the ports of the module: both have levels or neither has,
and simulations of them, with whatever engines, start and answer alike. -/
structure Netlist.SameAtPorts (m : ModuleDecl) (n n' : Netlist) : Prop where
  outputs_eq : n'.primaryOutputs = n.primaryOutputs
  size_eq : n'.signals.size = n.signals.size
  levels : (∃ l l', levelize n = .ok l ∧ levelize n' = .ok l' ∧
      ∀ {c c' : SimConfig}, (c.kernel = .batch → n.signals.size < 2 ^ 32) →
        (c'.kernel = .batch → n'.signals.size < 2 ^ 32) →
          ∃ a b, Simulation.start l c = .ok a ∧ Simulation.start l' c' = .ok b ∧
            a.SameAtPorts m n.primaryOutputs b) ∨
    ∃ err err', levelize n = .error err ∧ levelize n' = .error err'

theorem ModuleDecl.Opened.sameAtPorts (hd : m.Opened d) (hports : ∀ x ∈ m.portNames, PlainName x)
    (he : d.Fills e) (he' : d.Fills e') (hsane : e.netlist.Sane) (hsane' : e'.netlist.Sane)
    (h : Draft.Similar d.netlist.signals.size e e') :
    Netlist.SameAtPorts m e.netlist e'.netlist := by
  obtain ⟨σ, h⟩ := h
  refine ⟨h.netlist.outputs_eq, h.netlist.size_eq, ?_⟩
  cases hl : levelize e.netlist with
  | error err =>
    cases hl' : levelize e'.netlist with
    | error err' => exact .inr ⟨err, err', rfl, rfl⟩
    | ok l' =>
      obtain ⟨l, hok⟩ := h.netlist.symm.levelize hsane'.numbered hsane.numbered hsane.wellformed
        (hsane'.constants _) hl'
      exact nomatch hl.symm.trans hok
  | ok l =>
    obtain ⟨l', hl'⟩ := h.netlist.levelize hsane.numbered hsane'.numbered hsane'.wellformed
      (hsane.constants _) hl
    obtain ⟨-, level, hs⟩ := levelize_sorted hsane.numbered hl
    obtain ⟨-, level', hs'⟩ := levelize_sorted hsane'.numbered hl'
    have houtputs : ∀ o ∈ e.netlist.primaryOutputs, σ o = o := by
      intro o ho
      rw [he.keeps.outputs_eq] at ho
      exact h.old o (hd.accounted.wellformed.port_lt o (.inr ho))
    have hreordered : e.netlist.Reordered e'.netlist σ l l' level level' :=
      ⟨hsane.numbered, hsane'.numbered, hsane.wellformed, hsane'.wellformed, hs, hs', h.netlist,
        houtputs⟩
    refine .inl ⟨l, l', rfl, hl', fun hfits hfits' => ?_⟩
    obtain ⟨a, b, hstart, hstart', hmatched⟩ :=
      hreordered.start hfits (h.netlist.size_eq ▸ hfits')
    exact ⟨a, b, hstart, hstart', fun ops hops => hmatched.transcript hreordered fun op hop =>
      hd.shared hports he he' h.old (hops op hop)⟩

/-! ## Programs -/

/-- The statements of a top module without calls of modules may stand in any order, if no width
depends on itself. -/
theorem elaborate_perm_statements {program program' : Program} {statements' : List Statement}
    {top : String} (config : ElabConfig) (hfind : program.find? top = some m)
    (hfind' : program'.find? top = some { m with statements := statements' })
    (hperm : m.statements.Perm statements') (hports : ∀ x ∈ m.portNames, PlainName x)
    (htargets : ∀ x ∈ m.targets, PlainName x) (hcalls : ∀ s ∈ m.statements, s.expr.callees = [])
    (hacyclic : ∀ t, ¬Relation.TransGen m.SizedBy t t) :
    (∃ n n', elaborate program top config = .ok n ∧ elaborate program' top config = .ok n' ∧
      Netlist.SameAtPorts m n n') ∨
    ∃ e e', elaborate program top config = .error e ∧
      elaborate program' top config = .error e' := by
  have hcx := contextAt_safe program config.maxInlineDepth config.maxInlineDepth
  have hcx' := contextAt_safe program' config.maxInlineDepth config.maxInlineDepth
  cases hopen : (openTop m).run (.empty top) with
  | error err =>
    exact .inr ⟨err, err, elaborate_of_run_error hfind (run_andThen_error hopen),
      elaborate_of_run_error hfind' (run_andThen_error hopen)⟩
  | ok answer =>
    obtain ⟨u, d⟩ := answer
    have hd := openTop_opened hports htargets hopen
    have hsized : ∀ t, ¬Relation.TransGen (d.scope.SizedBy m.statements) t t := fun t ht =>
      hacyclic t (Relation.TransGen.mono (fun _ _ h => hd.sizedBy htargets h) t t ht)
    rcases elaborateBody_perm hcx hcx' hd.accounted hd.surrounds hcalls hsized hperm with
      ⟨e, e', hbody, hbody', hsimilar⟩ | ⟨err, err', hbody, hbody'⟩
    · have helaborate := (elaborate_of_run hfind ((run_andThen hopen).trans hbody)).2
      have helaborate' := (elaborate_of_run hfind' ((run_andThen hopen).trans hbody')).2
      have hsurrounds' := hd.surrounds.perm hperm
      have he : d.Fills e :=
        ⟨elaborateBody_keepsPorts hcx hd.accounted hd.surrounds hcalls hbody,
          elaborateBody_grows _ _ _ m.statements _ _ _ hbody⟩
      have he' : d.Fills e' :=
        ⟨elaborateBody_keepsPorts hcx' hd.accounted hsurrounds'
          (fun t ht => hcalls t (hperm.mem_iff.2 ht)) hbody',
          elaborateBody_grows _ _ _ statements' _ _ _ hbody'⟩
      exact .inl ⟨e.netlist, e'.netlist, helaborate, helaborate', hd.sameAtPorts hports he he'
        ((elaborate_sane program top config).value helaborate)
        ((elaborate_sane program' top config).value helaborate') hsimilar⟩
    · exact .inr ⟨err, err',
        elaborate_of_run_error hfind ((run_andThen hopen).trans hbody),
        elaborate_of_run_error hfind' ((run_andThen hopen).trans hbody')⟩

/-- A flip-flop that toggles. What is put out is assigned below the place where it is read. -/
def pairToggle : ModuleDecl where
  name := "toggle"
  params := [{ name := "en" }, { name := "clk" }]
  outputs := [{ name := "y", width := 2 }]
  statements := [
    { target := "y", expr := .ident "pair" },
    { target := "pair", expr := .concat [.ident "next", .ident "q"] },
    { target := "next", expr := .call nandName [.ident "q", .ident "en"] },
    { target := "q", expr := .call dffName [.ident "next", .ident "clk"] }]

/-- Only the pair is as wide as something else asks. -/
theorem pairToggle.sizedBy {t u : String} (h : pairToggle.SizedBy t u) :
    t = "pair" ∧ u ≠ "pair" := by
  obtain ⟨hport, -, -, s, hs, rfl, hu⟩ := h
  simp only [pairToggle, List.mem_cons, List.not_mem_nil, or_false] at hs
  rcases hs with rfl | rfl | rfl | rfl
  · exact absurd (by decide) hport
  · refine ⟨rfl, ?_⟩
    rintro rfl
    revert hu
    decide
  · exact absurd hu List.not_mem_nil
  · exact absurd hu List.not_mem_nil

theorem pairToggle.acyclic (t : String) : ¬Relation.TransGen pairToggle.SizedBy t t := by
  intro h
  obtain ⟨_, hfirst, -⟩ := Relation.TransGen.head'_iff.1 h
  obtain ⟨_, -, hlast⟩ := Relation.TransGen.tail'_iff.1 h
  exact (sizedBy hlast).2 (sizedBy hfirst).1

/-- The same statements from the last one to the first. -/
def pairToggle.upward : ModuleDecl :=
  { pairToggle with statements := pairToggle.statements.reverse }

theorem elaborate_perm_statements_pairToggle :
    pairToggle.statements.Perm pairToggle.upward.statements ∧
    (∀ x ∈ pairToggle.portNames, PlainName x) ∧ (∀ x ∈ pairToggle.targets, PlainName x) ∧
    (∀ s ∈ pairToggle.statements, s.expr.callees = []) ∧
    (∀ t, ¬Relation.TransGen pairToggle.SizedBy t t) ∧
    ∃ n n' l, elaborate { modules := [pairToggle] } "toggle" {} = .ok n ∧
      elaborate { modules := [pairToggle.upward] } "toggle" {} = .ok n' ∧
      levelize n = .ok l ∧ Netlist.SameAtPorts pairToggle n n' := by
  have hfind : ({ modules := [pairToggle] } : Program).find? "toggle" = some pairToggle := rfl
  have hfind' : ({ modules := [pairToggle.upward] } : Program).find? "toggle" =
      some { pairToggle with statements := pairToggle.upward.statements } := rfl
  have hperm : pairToggle.statements.Perm pairToggle.upward.statements :=
    (List.reverse_perm _).symm
  have hports : ∀ x ∈ pairToggle.portNames, PlainName x := by decide
  have htargets : ∀ x ∈ pairToggle.targets, PlainName x := by decide
  have hcalls : ∀ s ∈ pairToggle.statements, s.expr.callees = [] := by decide
  have hlevels : (match elaborate { modules := [pairToggle] } "toggle" {} with
      | .ok n => (levelize n).toBool
      | .error _ => false) = true := by decide +kernel
  refine ⟨hperm, hports, htargets, hcalls, pairToggle.acyclic, ?_⟩
  rcases elaborate_perm_statements {} hfind hfind' hperm hports htargets hcalls
    pairToggle.acyclic with ⟨n, n', he, he', hsame⟩ | ⟨e, -, he, -⟩
  · rw [he] at hlevels
    dsimp only at hlevels
    cases hl : levelize n with
    | ok l => exact ⟨n, n', l, he, he', hl, hsame⟩
    | error err =>
      rw [hl] at hlevels
      exact nomatch hlevels
  · rw [he] at hlevels
    exact nomatch hlevels

end NandHdl
