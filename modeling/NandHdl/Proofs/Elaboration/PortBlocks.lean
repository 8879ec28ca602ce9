-- SUMMARY: The ports of a top module take blocks of signals, one after the other (`openTop_opens`), and the names of an elaborated netlist are those of ports or come from bodies (`elaborate_accrues`).
import NandHdl.Proofs.Elaboration.Within

/-!
# Blocks of signals for ports

The constants are signals 0 and 1, and the ports of the top module follow in the order in which they are
declared. Each of them has a block of consecutive signals, lowest bit first, and the list of the
primary inputs and that of the primary outputs put these blocks in a row. Then the body of the top module
starts, in the scope of instance 0.
-/

namespace NandHdl

open Elab Draft Netlist

/-- How many signals the ports have. -/
def portSignals (ports : List Port) : Nat := (ports.map fun q => max 1 q.width).sum

/-- The signals of ports that are declared from signal `start` on, one block for each port. -/
def portBlocks (start : SignalId) : List Port → List Bits
  | [] => []
  | q :: rest => List.range' start (max 1 q.width) :: portBlocks (start + max 1 q.width) rest

theorem portSignals_cons (q : Port) (rest : List Port) :
    portSignals (q :: rest) = max 1 q.width + portSignals rest := rfl

theorem portBlocks_append (start : SignalId) (before after : List Port) :
    portBlocks start (before ++ after) =
      portBlocks start before ++ portBlocks (start + portSignals before) after := by
  induction before generalizing start with
  | nil => rfl
  | cons q rest ih =>
    simp only [List.cons_append, portBlocks, ih, portSignals_cons, Nat.add_assoc]

theorem length_portBlocks (start : SignalId) (ports : List Port) :
    (portBlocks start ports).length = ports.length := by
  induction ports generalizing start with
  | nil => rfl
  | cons q rest ih => simp only [portBlocks, List.length_cons, ih]

theorem portBlocks_getElem? (start : SignalId) (before after : List Port) (q : Port) :
    (portBlocks start (before ++ q :: after))[before.length]? =
      some (List.range' (start + portSignals before) (max 1 q.width)) := by
  rw [portBlocks_append, List.getElem?_append_right (Nat.le_of_eq (length_portBlocks _ _)),
    length_portBlocks, Nat.sub_self]
  rfl

/-! ## The scope of the top -/

/-- The name is that of a signal of one of the ports. -/
def NamesPortBit (ports : List Port) (z : String) : Prop :=
  ∃ q ∈ ports, z ∈ bitNames q.name (max 1 q.width)

/-- The scope is that of the top, and there is such an instance. -/
structure Draft.AtTop (d : Draft) : Prop where
  namePrefix_eq : d.scope.namePrefix = ""
  owner_eq : d.scope.owner = 0
  pos : 0 < d.netlist.instances.size

variable {d d' d₁ : Draft} {u : Unit} {bits : Bits} {ports : List Port}

theorem Draft.AtTop.accrues {given bound : String → Prop} (htop : d.AtTop)
    (h : d.Accrues given bound d') : d'.AtTop where
  namePrefix_eq := h.scope.namePrefix_eq.trans htop.namePrefix_eq
  owner_eq := h.scope.owner_eq.trans htop.owner_eq
  pos := htop.pos.trans_le h.netlist.grows.instances_le

theorem atTop_constants (top : String) : (Draft.constants top).AtTop :=
  ⟨rfl, rfl, Nat.one_pos⟩

/-- A port of the top is declared, and its signals are marked. -/
theorem Draft.AtTop.port (htop : d.AtTop) {q : Port}
    (hdeclare : (declare q.name q.width).run d = .ok (bits, d₁))
    (hmark : d₁.Enriches (fun _ => False) d') :
    d.netlist.Accrues (NamesPortBit [q]) d'.netlist ∧
      AtTop { d' with scope := d'.scope.addPort q.name } := by
  have hglobal : d.scope.globalName q.name = q.name := by
    rw [Scope.globalName, htop.namePrefix_eq, String.empty_append]
  have hnames : ∀ z ∈ bitNames (d.scope.globalName q.name) (max 1 q.width), NamesPortBit [q] z := by
    rw [hglobal]
    exact fun z hz => ⟨q, List.mem_singleton_self q, hz⟩
  have hpos : d.scope.owner < d.netlist.instances.size := htop.owner_eq ▸ htop.pos
  have hdeclared : d.Accrues (NamesPortBit [q]) (· = q.name) d₁ :=
    declare_accrues rfl hnames hpos hdeclare
  have hport := hdeclared.trans (hmark.mono (fun _ => False.elim) fun _ => False.elim)
  obtain ⟨hqual, howner, hpos⟩ := htop.accrues hport
  exact ⟨hport.netlist, hqual, howner, hpos⟩

/-! ## Ports in a row -/

/-- New signals follow those that are there. -/
theorem newSignals_block {owner : InstanceId} {names : List String}
    (h : (newSignals owner names).run d = .ok (bits, d')) :
    bits = List.range' d.netlist.signals.size names.length ∧
      d'.netlist.signals.size = d.netlist.signals.size + names.length := by
  induction names generalizing d bits with
  | nil =>
    obtain ⟨rfl, rfl⟩ := pure_eq_ok.1 h
    exact ⟨rfl, rfl⟩
  | cons name rest ih =>
    obtain ⟨id, d₁, hid, h⟩ := bind_eq_ok.1 h
    obtain ⟨ids, d₂, hids, h⟩ := bind_eq_ok.1 h
    obtain ⟨rfl, rfl⟩ := pure_eq_ok.1 h
    cases hid
    obtain ⟨rfl, hsize⟩ := ih hids
    have hpushed : (d.netlist.addSignal name owner).signals.size = d.netlist.signals.size + 1 :=
      Array.size_push ..
    refine ⟨?_, ?_⟩
    · rw [hpushed]
      rfl
    · rw [hsize, hpushed, List.length_cons, Nat.add_assoc, Nat.add_comm 1]

/-- Ports are declared one after the other. Their signals are marked, and nothing else happens to the
names. -/
inductive Draft.OpensPorts : List Port → Draft → Draft → Prop
  | nil (d : Draft) : OpensPorts [] d d
  | cons {q : Port} {rest : List Port} {bits : Bits} {d d₁ d₂ d' : Draft}
      (hdeclare : (declare q.name q.width).run d = .ok (bits, d₁))
      (hmark : d₁.Enriches (fun _ => False) d₂)
      (hsize : d₂.netlist.signals.size = d₁.netlist.signals.size)
      (hrest : OpensPorts rest { d₂ with scope := d₂.scope.addPort q.name } d') :
      OpensPorts (q :: rest) d d'

namespace Draft.OpensPorts

variable {before after : List Port} {q : Port}

theorem append (h : OpensPorts before d d₁) (h' : OpensPorts after d₁ d') :
    OpensPorts (before ++ after) d d' := by
  induction h with
  | nil => exact h'
  | cons hdeclare hmark hsize _ ih => exact .cons hdeclare hmark hsize (ih h')

theorem split (h : OpensPorts (before ++ after) d d') :
    ∃ d₁, OpensPorts before d d₁ ∧ OpensPorts after d₁ d' := by
  induction before generalizing d with
  | nil => exact ⟨d, .nil d, h⟩
  | cons q rest ih =>
    cases h with
    | cons hdeclare hmark hsize hrest =>
      obtain ⟨d₁, hbefore, hafter⟩ := ih hrest
      exact ⟨d₁, .cons hdeclare hmark hsize hbefore, hafter⟩

theorem declare_size (h : (declare q.name q.width).run d = .ok (bits, d₁)) :
    bits = List.range' d.netlist.signals.size (max 1 q.width) ∧
      d₁.netlist.signals.size = d.netlist.signals.size + max 1 q.width := by
  obtain ⟨e, hnew, rfl⟩ := declare_steps h
  obtain ⟨rfl, hsize⟩ := newSignals_block hnew
  rw [List.length_map, length_bitNames] at hsize ⊢
  exact ⟨rfl, hsize⟩

theorem size_eq (h : OpensPorts ports d d') :
    d'.netlist.signals.size = d.netlist.signals.size + portSignals ports := by
  induction h with
  | nil => rfl
  | cons hdeclare _ hsize _ ih =>
    rw [ih, hsize, (declare_size hdeclare).2, portSignals_cons, Nat.add_assoc]

/-- All new names are those of the ports. -/
theorem accrues (h : OpensPorts ports d d') (htop : d.AtTop) :
    d.netlist.Accrues (NamesPortBit ports) d'.netlist ∧ d'.AtTop := by
  induction h with
  | nil d => exact ⟨.refl _, htop⟩
  | @cons q rest _ d d₁ d₂ _ hdeclare hmark _ _ ih =>
    obtain ⟨hport, hnext⟩ := htop.port hdeclare hmark
    obtain ⟨hrest, hend⟩ := ih hnext
    refine ⟨(hport.mono fun z hz => ?_).trans (hrest.mono fun z hz => ?_), hend⟩
    · obtain ⟨r, hr, hz⟩ := hz
      exact ⟨r, List.mem_singleton.1 hr ▸ List.mem_cons_self, hz⟩
    · obtain ⟨r, hr, hz⟩ := hz
      exact ⟨r, List.mem_cons_of_mem q hr, hz⟩

end Draft.OpensPorts

/-! ## Primary inputs and outputs -/

/-- The circuit has the same inputs and outputs. -/
def Draft.SamePorts (d d' : Draft) : Prop :=
  d'.netlist.primaryInputs = d.netlist.primaryInputs ∧
    d'.netlist.primaryOutputs = d.netlist.primaryOutputs

instance : IsPreorder Draft Draft.SamePorts where
  refl _ := ⟨rfl, rfl⟩
  trans _ _ _ h h' := ⟨h'.1.trans h.1, h'.2.trans h.2⟩

/-- Bodies do not mark signals. -/
theorem respectsAll_samePorts : RespectsAll Draft.SamePorts where
  signal _ _ := by
    rintro d d' id ⟨⟩
    exact ⟨rfl, rfl⟩
  driver id := by
    intro d d' u h
    obtain ⟨-, rfl⟩ := claimDriver_eq_ok h
    exact ⟨rfl, rfl⟩
  gate _ _ _ := respects_modifyNetlist fun _ => ⟨rfl, rfl⟩
  named _ _ := respects_modifyNetlist fun _ => ⟨rfl, rfl⟩
  dff a clk := by
    intro d d' q h
    obtain ⟨name, d₁, d₂, n, hq, hclaim, hn, rfl⟩ := emitDff_eq_ok h
    cases hq
    obtain ⟨-, rfl⟩ := claimDriver_eq_ok hclaim
    obtain ⟨signals, -, hn⟩ := Except.bind_eq_ok.1 hn
    cases hn
    exact ⟨rfl, rfl⟩
  scope _ := respects_modifyScope fun _ => ⟨rfl, rfl⟩
  inst _ _ _ := respects_modifyNetlist fun _ => ⟨rfl, rfl⟩

theorem markInputs_marks (h : (markInputs bits).run d = .ok (u, d')) :
    d.Enriches (fun _ => False) d' ∧ d'.netlist.signals.size = d.netlist.signals.size ∧
      d'.netlist.primaryInputs.toList = d.netlist.primaryInputs.toList ++ bits ∧
        d'.netlist.primaryOutputs = d.netlist.primaryOutputs := by
  induction bits generalizing d with
  | nil =>
    obtain ⟨-, rfl⟩ := pure_eq_ok.1 h
    exact ⟨refl _, rfl, (List.append_nil _).symm, rfl⟩
  | cons id rest ih =>
    obtain ⟨n, d₁, hn, hclaim, hrest⟩ := markInputs_cons_eq_ok h
    have hmarked : d.Enriches (fun _ => False) d₁ :=
      (enriches_of_netlist (.addPrimaryInput hn)).trans (claimDriver_enriches hclaim)
    obtain ⟨-, rfl⟩ := claimDriver_eq_ok hclaim
    obtain ⟨signals, hsignals, hn⟩ := Except.bind_eq_ok.1 hn
    obtain ⟨-, rfl⟩ := Checked.modify_eq_ok.1 hsignals
    cases hn
    obtain ⟨henriches, hsize, hinputs, houtputs⟩ := ih hrest
    exact ⟨hmarked.trans henriches, hsize.trans Array.size_modify, hinputs.trans (by simp), houtputs⟩

theorem markOutputs_marks (h : (markOutputs bits).run d = .ok (u, d')) :
    d.Enriches (fun _ => False) d' ∧ d'.netlist.signals.size = d.netlist.signals.size ∧
      d'.netlist.primaryInputs = d.netlist.primaryInputs ∧
        d'.netlist.primaryOutputs.toList = d.netlist.primaryOutputs.toList ++ bits := by
  induction bits generalizing d with
  | nil =>
    obtain ⟨-, rfl⟩ := pure_eq_ok.1 h
    exact ⟨refl _, rfl, rfl, (List.append_nil _).symm⟩
  | cons id rest ih =>
    obtain ⟨n, hn, hrest⟩ := markOutputs_cons_eq_ok h
    have hmarked : d.Enriches (fun _ => False) { d with netlist := n } :=
      enriches_of_netlist (.addPrimaryOutput hn)
    obtain ⟨signals, hsignals, hn⟩ := Except.bind_eq_ok.1 hn
    obtain ⟨-, rfl⟩ := Checked.modify_eq_ok.1 hsignals
    cases hn
    obtain ⟨henriches, hsize, hinputs, houtputs⟩ := ih hrest
    exact ⟨hmarked.trans henriches, hsize.trans Array.size_modify, hinputs, houtputs.trans (by simp)⟩

theorem declareInputs_opens (h : (declareInputs ports).run d = .ok (u, d')) :
    OpensPorts ports d d' ∧ d'.netlist.primaryInputs.toList = d.netlist.primaryInputs.toList ++
        (portBlocks d.netlist.signals.size ports).flatten ∧
      d'.netlist.primaryOutputs = d.netlist.primaryOutputs := by
  induction ports generalizing d with
  | nil =>
    obtain ⟨-, rfl⟩ := pure_eq_ok.1 h
    exact ⟨.nil d', (List.append_nil _).symm, rfl⟩
  | cons q rest ih =>
    obtain ⟨bits, d₁, d₂, clock, hdeclare, hmark, hrest⟩ := declareInputs_cons_eq_ok h
    obtain ⟨henriches, hmarked, hins, houts⟩ := markInputs_marks hmark
    obtain ⟨hopens, hinputs, houtputs⟩ := ih hrest
    obtain ⟨hblock, hsize⟩ := OpensPorts.declare_size hdeclare
    obtain ⟨hinsame, houtsame⟩ := respectsAll_samePorts.declare _ _ _ _ _ hdeclare
    have hclock : d₁.Enriches (fun _ => False) { d₂ with netlist := { d₂.netlist with clock } } :=
      henriches.trans (enriches_of_netlist (.setClock _ clock))
    refine ⟨.cons hdeclare hclock hmarked hopens, ?_, (houtputs.trans houts).trans houtsame⟩
    have hfirst : d₂.netlist.primaryInputs.toList = d.netlist.primaryInputs.toList ++
        List.range' d.netlist.signals.size (max 1 q.width) := by rw [hins, hinsame, hblock]
    rw [hinputs, portBlocks, List.flatten_cons, ← List.append_assoc, ← hfirst, ← hsize, ← hmarked]

theorem declareOutputs_opens (h : (declareOutputs ports).run d = .ok (u, d')) :
    OpensPorts ports d d' ∧ d'.netlist.primaryInputs = d.netlist.primaryInputs ∧
      d'.netlist.primaryOutputs.toList = d.netlist.primaryOutputs.toList ++
        (portBlocks d.netlist.signals.size ports).flatten := by
  induction ports generalizing d with
  | nil =>
    obtain ⟨-, rfl⟩ := pure_eq_ok.1 h
    exact ⟨.nil d', rfl, (List.append_nil _).symm⟩
  | cons q rest ih =>
    obtain ⟨bits, d₁, d₂, hdeclare, hmark, hrest⟩ := declareOutputs_cons_eq_ok h
    obtain ⟨henriches, hmarked, hins, houts⟩ := markOutputs_marks hmark
    obtain ⟨hopens, hinputs, houtputs⟩ := ih hrest
    obtain ⟨hblock, hsize⟩ := OpensPorts.declare_size hdeclare
    obtain ⟨hinsame, houtsame⟩ := respectsAll_samePorts.declare _ _ _ _ _ hdeclare
    refine ⟨.cons hdeclare henriches hmarked hopens,
      (hinputs.trans hins).trans hinsame, ?_⟩
    have hfirst : d₂.netlist.primaryOutputs.toList = d.netlist.primaryOutputs.toList ++
        List.range' d.netlist.signals.size (max 1 q.width) := by rw [houts, houtsame, hblock]
    rw [houtputs, portBlocks, List.flatten_cons, ← List.append_assoc, ← hfirst, ← hsize, ← hmarked]

/-- The ports of the top module follow the constants, and the primary lists put their blocks in a
row. -/
theorem openTop_opens {m : ModuleDecl} {top : String}
    (h : (openTop m).run (.empty top) = .ok (u, d)) :
    OpensPorts (m.params ++ m.outputs) (constants top) d ∧
      d.netlist.primaryInputs.toList = (portBlocks 2 m.params).flatten ∧
      d.netlist.primaryOutputs.toList =
        (portBlocks (2 + portSignals m.params) m.outputs).flatten := by
  obtain ⟨d₁, hins, houts⟩ := openTop_eq_ok h
  obtain ⟨hopens, hinputs, hnone⟩ := declareInputs_opens hins
  obtain ⟨hopens', hsame, houtputs⟩ := declareOutputs_opens houts
  refine ⟨hopens.append hopens', ?_, ?_⟩
  · rw [hsame, hinputs]
    rfl
  · rw [houtputs, hnone, hopens.size_eq]
    rfl

/-! ## Elaborated programs -/

variable {p : Program} {m : ModuleDecl} {top : String}

theorem openTop_inside (hfind : p.find? top = some m)
    (h : (openTop m).run (.empty top) = .ok (u, d)) : d.Inside p m := by
  obtain ⟨l, hnames, -, hopened⟩ := openTop_scope h
  obtain ⟨haccrues, hqual, howner, -⟩ := (openTop_opens h).1.accrues (atTop_constants top)
  let root : Instance := { id := 0, moduleName := top, parent := none, namePrefix := "" }
  have hroot : d.netlist.instances[0]? = some root := haccrues.grows.inst_kept rfl
  refine ⟨⟨root, ⟨?_, hfind⟩, hqual.symm⟩, fun _ x hx => ?_⟩
  · rw [howner, hroot]
  · rw [hopened.scope_eq, Scope.isPort_bindPorts, hnames]
    exact .inl hx

/-- A name of an elaborated netlist is that of a constant, that of a signal of a port, or one that bodies
give. -/
theorem elaborate_accrues {config : ElabConfig} {n : Netlist}
    (h : elaborate p top config = .ok n) : ∃ m, p.find? top = some m ∧
      (Draft.constants top).netlist.Accrues
        (fun z => NamesPortBit (m.params ++ m.outputs) z ∨ n.Given p z) n := by
  obtain ⟨m, d, d', hfind, hopen, hbody, rfl⟩ := elaborate_eq_ok h
  have hports := ((openTop_opens hopen).1.accrues (atTop_constants top)).1
  have hbody := elaborateBody_within p _ _ m _ _ _ hbody (openTop_inside hfind hopen)
  exact ⟨m, hfind, (hports.mono fun _ => .inl).trans (hbody.netlist.mono fun _ => .inr)⟩

/-- Every signal of an elaborated netlist belongs to one of its instances. -/
theorem elaborate_owned {config : ElabConfig} {n : Netlist}
    (h : elaborate p top config = .ok n) : n.Owned := by
  obtain ⟨m, -, haccrues⟩ := elaborate_accrues h
  refine haccrues.owned fun {j s} hs => ?_
  have hmem := Array.mem_of_getElem? hs
  simp only [constants, Netlist.addSignal, Netlist.empty, List.push_toArray, List.nil_append,
    List.cons_append, List.mem_toArray, List.mem_cons, List.not_mem_nil, or_false] at hmem
  rcases hmem with rfl | rfl <;> exact Nat.one_pos

end NandHdl
