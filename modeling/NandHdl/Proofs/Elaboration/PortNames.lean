-- SUMMARY: A port of the top module whose name nothing else takes is addressed by it (`elaborate_ports`): the netlist, the primary lists and the scope of the body all have the block of the port.
import NandHdl.Proofs.Elaboration.InstanceTree
import NandHdl.Proofs.Elaboration.PortLabels

/-!
# Ports and their names

Three tables know the ports of the top module. The names of the netlist go to the first signal that takes
them, the names of the scope to the last binding, and the primary lists have no names. They agree on a
port as long as its name is not taken for something else as well: for a constant, for another port or
target, for what an instance publishes, or for a signal inside an instance. All these share one space of
names with the bits of ports, and nobody keeps them apart.

A name of one word without an underscore cannot be taken by instances, for what they make has an
underscore or a point in its name.
-/

namespace NandHdl

open Elab Draft Netlist

variable {program : Program} {top : String} {config : ElabConfig} {n : Netlist} {m : ModuleDecl}
  {x : String}

/-! ## Names that belong to one port -/

/-- Of all that the elaboration of the top module `m` has made, nothing but one port is called `x`, and
nothing is called like a bit of `x` or has `x` for a bit. -/
structure Netlist.Exclusive (n : Netlist) (p : Program) (m : ModuleDecl) (x : String) : Prop where
  constant : x ≠ zeroName ∧ x ≠ oneName
  once : m.portNames.count x = 1
  declared : ∀ y ∈ m.portNames ++ m.targets, y ≠ x → Scope.NamesApart y x
  published : ∀ y, n.Publishes p 0 m y → Scope.NamesApart y x
  nested : ∀ {i : InstanceId} {inst : Instance} {callee : ModuleDecl} {y : String}, 0 < i →
    n.Places p i inst callee → n.LocalName p i callee y →
      Scope.NamesApart (inst.namePrefix ++ y) x

theorem unindexed_append_digits {word : String} (hword : Unindexed word) (k : Nat) :
    Unindexed (word ++ toString k) := by
  intro hmem
  rw [String.toList_append, List.mem_append] at hmem
  rcases hmem with hmem | hmem
  · exact hword hmem
  · exact absurd (isDigit_of_mem_toString hmem) (by decide)

namespace Netlist.Exclusive

theorem mem (h : n.Exclusive program m x) : x ∈ m.portNames :=
  List.count_pos_iff.1 (h.once ▸ Nat.one_pos)

/-- The other ports are apart. -/
theorem apart {before after : List Port} {q : Port} (h : n.Exclusive program m q.name)
    (hsplit : m.params ++ m.outputs = before ++ q :: after) :
    ∀ r ∈ before ++ after, Scope.NamesApart r.name q.name := by
  intro r hr
  have honce := h.once
  rw [ModuleDecl.portNames, hsplit, List.map_append, List.map_cons, List.count_append,
    List.count_cons_self] at honce
  have hother : r.name ≠ q.name := by
    intro heq
    have hpos : 0 < List.count q.name ((before ++ after).map Port.name) :=
      List.count_pos_iff.2 (heq ▸ List.mem_map_of_mem hr)
    rw [List.map_append, List.count_append] at hpos
    omega
  refine h.declared r.name (List.mem_append_left _ (List.mem_map_of_mem ?_)) hother
  rw [hsplit]
  rcases List.mem_append.1 hr with hr | hr
  · exact List.mem_append_left _ hr
  · exact List.mem_append_right _ (List.mem_cons_of_mem _ hr)

section

variable (h : n.Exclusive program m x) (htree : n.InstanceTree program top)
  (hfind : program.find? top = some m)

include h htree hfind

/-- So is all that instances are called. -/
theorem local_apart {i : InstanceId} {inst : Instance} {callee : ModuleDecl} {y : String}
    (hplaces : n.Places program i inst callee) (hy : n.LocalName program i callee y) :
    Scope.NamesApart (inst.namePrefix ++ y) x := by
  rcases Nat.eq_zero_or_pos i with rfl | hpos
  · obtain ⟨hinst, hcallee⟩ := hplaces
    cases hinst.symm.trans htree.root
    cases hcallee.symm.trans hfind
    rw [String.empty_append]
    cases hy with
    | port hpos => exact absurd hpos (Nat.lt_irrefl 0)
    | target htarget hport =>
      refine h.declared y (List.mem_append_right _ htarget) ?_
      rintro rfl
      exact hport rfl h.mem
    | published hy => exact h.published y hy
    | surplus hinst hparent =>
      cases hinst.symm.trans htree.root
      cases hparent
  · exact h.nested hpos hplaces hy

/-- Bodies do not give the name of a further bit. -/
theorem not_given (k : Nat) : ¬ n.Given program (bitName x k) := by
  intro hgiven
  generalize hz : bitName x k = z at hgiven
  cases hgiven with
  | name hplaces hy => exact (h.local_apart htree hfind hplaces hy).ne_bit k hz.symm
  | bit hplaces hy j =>
    exact (h.local_apart htree hfind hplaces hy).ne (bitName_inj.1 hz).1.symm
  | gate j => exact bitName_ne (unindexed_append_digits (by decide) j) x k hz
  | flop j => exact bitName_ne (unindexed_append_digits (by decide) j) x k hz

end

end Netlist.Exclusive

/-! ## Names of the netlist -/

theorem signalId?_constants {z : String} (hzero : z ≠ zeroName) (hone : z ≠ oneName) :
    (constants top).netlist.signalId? z = none := by
  rw [constants, signalId?_addSignal, signalId?_addSignal, if_neg hzero.symm, if_neg hone.symm]
  simp [Netlist.empty, Netlist.signalId?]

theorem bitName_ne_constant (y : String) (k : Nat) :
    bitName y k ≠ zeroName ∧ bitName y k ≠ oneName :=
  ⟨bitName_ne (by decide) y k, bitName_ne (by decide) y k⟩

section

variable {before after : List Port} {q : Port}
  (h : n.Exclusive program m q.name) (hsplit : m.params ++ m.outputs = before ++ q :: after)

include h

/-- Before the ports are declared, the names of the port are free. -/
theorem Netlist.Exclusive.free {z : String} (hz : z ∈ bitNames q.name (max 1 q.width)) :
    (constants top).netlist.signalId? z = none := by
  unfold bitNames at hz
  split at hz
  · obtain rfl := List.mem_singleton.1 hz
    exact signalId?_constants h.constant.1 h.constant.2
  · obtain ⟨k, -, rfl⟩ := List.mem_map.1 hz
    exact signalId?_constants (bitName_ne_constant _ k).1 (bitName_ne_constant _ k).2

include hsplit

/-- There is no name for a bit that the port does not have. -/
theorem Netlist.Exclusive.absent (he : elaborate program top config = .ok n)
    (hfind : program.find? top = some m) {k : Nat}
    (hk : bitName q.name k ∉ bitNames q.name (max 1 q.width)) :
    n.signalId? (bitName q.name k) = none := by
  obtain ⟨m', hfind', haccrues⟩ := elaborate_accrues he
  cases hfind.symm.trans hfind'
  rw [haccrues.signalId?_eq]
  · exact signalId?_constants (bitName_ne_constant _ k).1 (bitName_ne_constant _ k).2
  · rintro (⟨r, hr, hz⟩ | hgiven)
    · rw [hsplit, List.mem_append, List.mem_cons] at hr
      have hself : bitName q.name k ∈ bitNames q.name (k + 2) := by
        rw [bitNames, if_neg (by omega)]
        exact List.mem_map_of_mem (List.mem_range.2 (by omega))
      have hother : ∀ r ∈ before ++ after, bitName q.name k ∉ bitNames r.name (max 1 r.width) :=
        fun r hr => not_mem_bitNames (h.apart hsplit r hr) hself
      rcases hr with hr | rfl | hr
      · exact hother r (List.mem_append_left _ hr) hz
      · exact hk hz
      · exact hother r (List.mem_append_right _ hr) hz
    · exact h.not_given (instanceTree_of_elaborate he) hfind k hgiven

end

/-- A name stands for the bits of a value if these have the names of its bits, and if there is no name
for one more. -/
theorem Netlist.Finds.targets_eq {bits : Bits} {width : Nat}
    (hfinds : n.Finds (bitNames x width) bits) (hpos : 0 < width)
    (hend : ∀ k, bitName x k ∉ bitNames x width → n.signalId? (bitName x k) = none) :
    n.targets x = bits := by
  unfold Finds bitNames at hfinds
  unfold bitNames at hend
  split at hfinds
  · next hone =>
    have hbus : n.bus x = [] := bus_eq_of_names fun k _ => by
      refine hend k fun hmem => ?_
      rw [if_pos hone] at hmem
      exact bitName_ne_self x k (List.mem_singleton.1 hmem)
    have hlength := congrArg List.length hfinds
    rw [List.length_map, List.length_map] at hlength
    obtain ⟨id, rfl⟩ := List.length_eq_one_iff.1 hlength.symm
    rw [targets, hbus]
    exact congrArg Option.toList (List.cons.inj hfinds).1
  · next hmany =>
    have hlength := congrArg List.length hfinds
    rw [List.map_map, List.length_map, List.length_range, List.length_map] at hlength
    have hbus : n.bus x = bits := bus_eq_of_names fun k hk => by
      rcases Nat.lt_or_ge k width with hlt | hge
      · have hbit := congrArg (·[k]?) hfinds
        simp only [List.map_map, List.getElem?_map, List.getElem?_range hlt, Option.map_some,
          Function.comp] at hbit
        rw [List.getElem?_eq_getElem (hlength ▸ hlt)] at hbit ⊢
        exact Option.some_inj.1 hbit
      · rw [List.getElem?_eq_none (hlength ▸ hge)]
        refine hend k fun hmem => ?_
        rw [if_neg hmany] at hmem
        obtain ⟨j, hj, heq⟩ := List.mem_map.1 hmem
        rw [(bitName_inj.1 heq).2] at hj
        exact Nat.not_lt.2 hge (List.mem_range.1 hj)
    cases hb : bits with
    | nil =>
      rw [hb] at hlength
      exact absurd hlength (Nat.ne_of_gt hpos)
    | cons id rest => rw [targets, hbus, hb]

/-! ## Simulations -/

/-- The name stands for the signals, and they are read and written by it if they fit in a word. -/
structure Simulation.Addresses (sim : Simulation) (name : String) (bits : Bits) : Prop where
  resolveBus_eq : sim.resolveBus name = .ok bits
  peek_eq : bits.length ≤ 64 → sim.peek name = (sim.act (Store.readBits bits)).map Prod.fst
  poke_eq : bits.length ≤ 64 → ∀ value : UInt64, value.toNat < 2 ^ bits.length →
    sim.poke name value = (sim.act (Store.writeBits bits value)).map Prod.snd

theorem Simulation.Addresses.of_resolveBus {sim : Simulation} {name : String} {bits : Bits}
    (h : sim.resolveBus name = .ok bits) : sim.Addresses name bits := by
  have hword : bits.length ≤ 64 → sim.wordBus name = .ok bits := fun hfits => by
    rw [wordBus, h, Except.ok_bind, if_neg (Nat.not_lt.2 hfits)]
    rfl
  refine ⟨h, fun hfits => ?_, fun hfits value hvalue => ?_⟩
  · rw [peek, hword hfits, Except.ok_bind]
    cases sim.act (Store.readBits bits) with
    | error e => rfl
    | ok r => rfl
  · rw [poke, hword hfits, Except.ok_bind, Nat.one_shiftLeft, if_neg (Nat.not_le.2 hvalue)]
    cases sim.act (Store.writeBits bits value) with
    | error e => rfl
    | ok r => rfl

/-- A simulation of a netlist resolves names to what they stand for in it. -/
theorem Netlist.resolveBus_eq {l : LevelizedNetlist} {sim : Simulation} (hn : n.Numbered)
    (hl : levelize n = .ok l) (hsim : sim.levelized = l) (hne : n.targets x ≠ []) :
    sim.resolveBus x = .ok (n.targets x) := by
  obtain ⟨-, level, hs⟩ := levelize_sorted hn hl
  rw [targets] at hne ⊢
  rw [Simulation.resolveBus, Simulation.resolve, hsim, hs.bus_eq, hs.signalId?_eq]
  cases hbus : n.bus x with
  | cons id rest => rfl
  | nil =>
    rw [hbus] at hne
    cases hname : n.signalId? x with
    | none => exact absurd (congrArg Option.toList hname) hne
    | some id => rfl

/-! ## The scope of the body -/

/-- When the body of `m` is elaborated from `start` on, names are looked up in the scope of the draft:
widths are inferred there, an expression is asked for, an instance takes the target of its call, or the
target of a statement is wired. -/
inductive ModuleDecl.Consults (program : Program) (limit depth : Nat) (m : ModuleDecl)
    (start : Draft) : Draft → Prop
  | widths : Consults program limit depth m start start
  | asked {before after : List Statement} {s : Statement} {d : Draft} {q : Query}
      (hsplit : m.statements = before ++ s :: after)
      (harrives : m.Arrives (contextAt program limit depth) start before d)
      (hleads : Query.Leads (contextAt program limit depth) ⟨s.expr, none, d⟩ q) :
      Consults program limit depth m start q.draft
  | called {before after : List Statement} {s : Statement} {d e : Draft} {callee : String}
      {args : List Expr} {t : Option String} {k : Nat} (hdepth : depth = k + 1)
      (hsplit : m.statements = before ++ s :: after)
      (harrives : m.Arrives (contextAt program limit (k + 1)) start before d)
      (hcalls : Query.Calls (contextAt program limit (k + 1)) (some s.target) ⟨s.expr, none, d⟩
        callee args t e) (x : Inlining program limit k callee args t e) :
      Consults program limit depth m start x.valued
  | target {before after : List Statement} {s : Statement} {d d' : Draft} {bits : Bits}
      (hsplit : m.statements = before ++ s :: after)
      (harrives : m.Arrives (contextAt program limit depth) start before d)
      (hvalue : (s.bits (contextAt program limit depth)).run d = .ok (bits, d')) :
      Consults program limit depth m start d'

section

variable {limit depth : Nat} {start finish d : Draft}

/-- Between the start of the body and its end names are given and bound as the body may do it. -/
theorem ModuleDecl.Consults.within (h : m.Consults program limit depth start d)
    (hbody : (elaborateBody (contextAt program limit depth) m.statements).run start =
      .ok ((), finish)) : start.Within program m d ∧ d.netlist.Grows finish.netlist := by
  cases h with
  | widths => exact ⟨refl _, elaborateBody_grows _ _ _ _ _ _ _ hbody⟩
  | @asked before after s e q hsplit harrives hleads =>
    obtain ⟨_, _, hvalue, hrest⟩ := harrives.value hsplit hbody
    have htarget : (contextAt program limit depth).RespectsFor (some s.target) Draft.Grows :=
      fun expand hsome _ m _ args =>
        respectsAll_grows.contextAt program limit depth expand hsome m args (some s.target)
    obtain ⟨-, hgrows⟩ := hleads.answered (contextAt_grows program limit depth) htarget
      (Query.answered_of_statement hvalue)
    exact ⟨IsTrans.trans _ _ _ (harrives.within hsplit)
      (hleads.related (contextAt_within program limit depth m)),
      Relation.ReflTransGen.trans hgrows hrest⟩
  | called hdepth hsplit harrives hcalls x =>
    subst hdepth
    obtain ⟨_, _, hvalue, hrest⟩ := harrives.value hsplit hbody
    have hopened := respectsAll_grows.openInstance _ _ _ _ _ _ x.open_run
    have hnested := elaborateBody_grows _ _ _ _ _ _ _ x.body_run
    have hcall := x.grows hcalls (Query.answered_of_statement hvalue)
    exact ⟨NestedRun.valued_within hsplit hcalls x harrives,
      ((hopened.trans hnested).trans hcall).trans hrest⟩
  | target hsplit harrives hvalue =>
    obtain ⟨_, _, hvalue', hrest⟩ := harrives.value hsplit hbody
    cases hvalue.symm.trans hvalue'
    refine ⟨IsTrans.trans _ _ _ (harrives.within hsplit)
      (bits_within program limit depth ?_ _ _ _ hvalue), hrest⟩
    exact List.mem_map_of_mem (hsplit ▸ List.mem_append_right _ List.mem_cons_self)

/-- The body of the top module leaves a name that belongs to a port alone. -/
theorem ModuleDecl.Consults.bits?_eq (h : m.Consults program limit depth start d)
    (hbody : (elaborateBody (contextAt program limit depth) m.statements).run start =
      .ok ((), finish)) (hstart : start.Inside program m) (htop : start.scope.owner = 0)
    (hx : finish.netlist.Exclusive program m x) : d.scope.bits? x = start.scope.bits? x := by
  obtain ⟨hwithin, hgrows⟩ := h.within hbody
  refine (hwithin hstart).scope.bits?_eq_of_apart fun y hy => ?_
  rcases hy with ⟨htarget, hfree⟩ | hpublished
  · refine hx.declared y (List.mem_append_right _ htarget) ?_
    rintro rfl
    rw [hstart.isPort htop y hx.mem] at hfree
    cases hfree
  · rw [htop] at hpublished
    exact hx.published y (hpublished.mono hgrows)

end

/-! ## Elaborated programs -/

/-- A sign that the one name has and the other one does not have keeps them apart. -/
theorem namesApart_of_sign {y : String} {c : Char} (hx : Unindexed x) (hmem : c ∈ y.toList)
    (hnot : c ∉ x.toList) (hdigit : c.isDigit = false) (hopen : c ≠ '[') (hclose : c ≠ ']') :
    Scope.NamesApart y x where
  ne := by
    rintro rfl
    exact hnot hmem
  bit_ne i := bitName_ne hx y i
  ne_bit i h := not_mem_bitName hdigit hopen hclose hnot i (h ▸ hmem)

/-- Nothing else takes the name of a port if it is a word without an underscore, and if the other ports
and targets of the top module have other names without brackets. -/
theorem exclusive_of_plain (he : elaborate program top config = .ok n) (hx : PlainName x)
    (hword : '_' ∉ x.toList) (hnames : ∀ y ∈ m.portNames ++ m.targets, Unindexed y)
    (honce : m.portNames.count x = 1) : n.Exclusive program m x := by
  have hmade : ∀ {y : String}, '_' ∈ y.toList → Scope.NamesApart y x := fun hy =>
    namesApart_of_sign hx.1 hy hword (by decide) (by decide) (by decide)
  have hmember : ∀ t f, Scope.NamesApart (memberName t f) x := fun t f =>
    namesApart_of_sign hx.1 (c := '.') (by simp [toList_memberName]) hx.2 (by decide) (by decide)
      (by decide)
  refine ⟨⟨?_, ?_⟩, honce, fun y hy hne => ?_, fun y hy => ?_,
    fun {i inst callee y} hpos hplaces _ => ?_⟩
  · rintro rfl
    exact hword (by decide)
  · rintro rfl
    exact hword (by decide)
  · exact Scope.namesApart_of_ne hx.1 (hnames y hy) hne
  · cases hy with
    | own _ _ hy =>
      rcases hy with rfl | ⟨out, -, rfl⟩
      · exact hmade (by simp [ModuleDecl.temporary])
      · exact hmember _ _
    | member => exact hmember _ _
  · -- The prefix of an instance ends with an underscore.
    obtain ⟨_, _, _, -, -, -, -, hqual⟩ := (instanceTree_of_elaborate he).below hplaces.inst_eq hpos
    refine hmade ?_
    rw [hqual, String.toList_append, String.toList_append]
    exact List.mem_append_left _ (List.mem_append_right _ (by decide))

/-- The signals `bits` are those of the port. They were made under its name, its name addresses them in
simulations, and whenever the body of the top module `m`, elaborated from `start` on, looks up names,
they are what its name is bound to. -/
structure Netlist.KnowsPort (n : Netlist) (program : Program) (limit : Nat) (m : ModuleDecl)
    (start : Draft) (q : Port) (bits : Bits) : Prop where
  length_eq : bits.length = max 1 q.width
  labels : n.Labels bits (bitNames q.name (max 1 q.width))
  addresses : ∀ {l : LevelizedNetlist} {sim : Simulation}, levelize n = .ok l → sim.levelized = l →
    sim.Addresses q.name bits
  bits?_eq : ∀ {d : Draft}, m.Consults program limit limit start d →
    d.scope.bits? q.name = some bits

/-- In an elaborated netlist the ports of the top module have blocks of consecutive signals, which make
up the primary lists. A port whose name nothing else takes is known by its block in the netlist and in
the body. -/
theorem elaborate_ports (he : elaborate program top config = .ok n) :
    ∃ m start, program.find? top = some m ∧ (openTop m).run (.empty top) = .ok ((), start) ∧
      n.primaryInputs.toList = (portBlocks 2 m.params).flatten ∧
      n.primaryOutputs.toList = (portBlocks (2 + portSignals m.params) m.outputs).flatten ∧
      ∀ {i : Nat} {q : Port} {bits : Bits}, (m.params ++ m.outputs)[i]? = some q →
        (portBlocks 2 (m.params ++ m.outputs))[i]? = some bits → n.Exclusive program m q.name →
          n.KnowsPort program config.maxInlineDepth m start q bits := by
  obtain ⟨m, start, finish, hfind, hopen, hbody, rfl⟩ := elaborate_eq_ok he
  obtain ⟨hopens, hinputs, houtputs⟩ := openTop_opens hopen
  obtain ⟨hins, houts⟩ := respectsAll_samePorts.body (respectsAll_samePorts.contextAt _ _ _) _ _ _ _
    hbody
  refine ⟨m, start, hfind, hopen, hins ▸ hinputs, houts ▸ houtputs, fun {i q bits} hq hblock hx => ?_⟩
  obtain ⟨before, after, hsplit, rfl⟩ : ∃ before after,
      m.params ++ m.outputs = before ++ q :: after ∧ before.length = i := by
    obtain ⟨hi, rfl⟩ := List.getElem?_eq_some_iff.1 hq
    refine ⟨(m.params ++ m.outputs).take i, (m.params ++ m.outputs).drop (i + 1), ?_,
      List.length_take_of_le (Nat.le_of_lt hi)⟩
    rw [← List.drop_eq_getElem_cons hi, List.take_append_drop]
  rw [hsplit, portBlocks_getElem?, Option.some_inj] at hblock
  obtain ⟨hbits, hlabels, hfinds⟩ := OpensPorts.port (hsplit ▸ hopens) (atTop_constants top)
    (hx.apart hsplit) (fun z hz => hx.free hz) hblock.symm
  have hgrows := elaborateBody_grows _ _ _ _ _ _ _ hbody
  have hlength : bits.length = max 1 q.width := hblock ▸ List.length_range'
  have htargets := (hfinds.mono hgrows).targets_eq (Nat.le_max_left 1 q.width)
    fun k hk => hx.absent hsplit he hfind hk
  have hinside := openTop_inside hfind hopen
  have howner : start.scope.owner = 0 := (hopens.accrues (atTop_constants top)).2.owner_eq
  have hne : finish.netlist.targets q.name ≠ [] := by
    rw [htargets]
    exact ne_nil_of_length hlength
  refine ⟨hlength, hlabels.mono hgrows, fun hl hsim => .of_resolveBus ?_, fun hd => ?_⟩
  · rw [Netlist.resolveBus_eq (elaborate_numbered he).1 hl hsim hne, htargets]
  · rw [hd.bits?_eq hbody hinside howner hx, hbits]

theorem elaborate_ports_heldPair :
    ∃ n m start, elaborate heldPair "top" {} = .ok n ∧ heldPair.find? "top" = some m ∧
      n.primaryInputs.toList = [2, 3] ∧ n.primaryOutputs.toList = [4, 5] ∧
        n.KnowsPort heldPair 64 m start { name := "y", width := 2 } [4, 5] := by
  have hruns : (elaborate heldPair "top" {}).toBool = true := by decide +kernel
  cases he : elaborate heldPair "top" {} with
  | error e =>
    rw [he] at hruns
    exact absurd hruns Bool.false_ne_true
  | ok n =>
    obtain ⟨m, start, hfind, -, hinputs, houtputs, hports⟩ := elaborate_ports he
    cases hfind
    exact ⟨n, _, start, rfl, rfl, hinputs, houtputs, hports (i := 2) rfl rfl
      (exclusive_of_plain he (by decide) (by decide) (by decide) (by decide))⟩

/-- A parameter that is named as a constant. -/
def constantPort : Program where
  modules := [
    { name := "top"
      params := [{ name := zeroName }]
      outputs := [{ name := "o" }]
      statements := [{ target := "o", expr := .ident zeroName }] }]

/-- The name of that parameter stands for the constant, not for the input. -/
theorem port_named_constant :
    ∃ n l, elaborate constantPort "top" {} = .ok n ∧ levelize n = .ok l ∧
      n.primaryInputs = #[2] ∧
        ∀ sim : Simulation, sim.levelized = l → sim.resolveBus zeroName = .ok [0] := by
  have hruns : (match elaborate constantPort "top" {} with
      | .error _ => false
      | .ok n => match levelize n with
        | .error _ => false
        | .ok l => decide (n.primaryInputs = #[2] ∧ l.netlist.bus zeroName = [] ∧
            l.netlist.signalId? zeroName = some 0)) = true := by decide +kernel
  split at hruns
  · exact absurd hruns Bool.false_ne_true
  · next n he =>
    split at hruns
    · exact absurd hruns Bool.false_ne_true
    · next l hl =>
      obtain ⟨hinputs, hbus, hname⟩ := of_decide_eq_true hruns
      refine ⟨n, l, he, hl, hinputs, fun sim hsim => ?_⟩
      rw [Simulation.resolveBus, Simulation.resolve, hsim, hbus, hname]
      rfl

end NandHdl
