-- SUMMARY: An optimized circuit cannot be told from the given one by its outputs and flip-flops over whole runs (`optimize_transcript_alike`).
import NandHdl.Proofs.Optimizer.Result
import NandHdl.Proofs.Simulation.Operations

/-!
# Runs of the optimized circuit

The two circuits are simulated side by side. Their stores agree on everything that no gate of the
given circuit drives: inputs, constants and flip-flop outputs. The gate outputs may differ, since
the optimized circuit computes only some of them, and may hold what was left there long ago.

A pass makes the stores agree on everything that the optimized circuit needs. The values of the
given circuit settle the optimized one as well, and what is needed is determined by the sources.
-/

namespace NandHdl

namespace Netlist

/-- What is looked up as the constants is driven by nothing and holds its value after a reset. -/
structure HoldsConstants (n : Netlist) : Prop where
  source : ∀ {c}, n.IsConstant c → ¬n.IsGateOutput c ∧ ∀ f ∈ n.dffs, f.q ≠ c
  zero : ∀ {c s}, n.signalId? zeroName = some c → Store.forNetlist n = .ok s → s.bit c = false
  one : ∀ {c s}, n.signalId? oneName = some c → Store.forNetlist n = .ok s → s.bit c = true

/-- The signals that a name stands for: a bus, or a signal alone. -/
def targets (n : Netlist) (name : String) : Bits :=
  match n.bus name with
  | [] => (n.signalId? name).toList
  | bits => bits

/-- The stores agree on everything that no gate of the netlist drives, and the constants hold. -/
structure Alike (n : Netlist) (s t : Store) : Prop where
  left : s.SizedFor n.signals.size
  right : t.SizedFor n.signals.size
  agree : ∀ {i}, ¬n.IsGateOutput i → s.bit i = t.bit i
  zero : ∀ {c}, n.signalId? zeroName = some c → s.bit c = false
  one : ∀ {c}, n.signalId? oneName = some c → s.bit c = true

/-- The stores agree on the outputs of the circuit and of its flip-flops. -/
def SameOutputs (n : Netlist) (s t : Store) : Prop :=
  (∀ o ∈ n.primaryOutputs, s.bit o = t.bit o) ∧ ∀ f ∈ n.dffs, s.bit f.q = t.bit f.q

end Netlist

/-- A circuit with levels, and an optimized circuit with levels that stands for it. -/
structure Netlist.Optimized (n r : Netlist) (l lr : LevelizedNetlist) (level level' : GateId → Nat)
    (rank : SignalId → Nat) : Prop where
  numbered : n.Numbered
  numbered' : r.Numbered
  wellformed : n.Wellformed
  wellformed' : r.Wellformed
  sorted : l.Sorted n level
  sorted' : lr.Sorted r level'
  standsFor : r.StandsFor n rank
  constants : n.HoldsConstants

/-- Operations that drive a circuit without a touch on its constants. -/
def SimOp.Drives (n : Netlist) : SimOp → Prop
  | .set name _ => ∀ c, n.signalId? name = some c → ¬n.IsConstant c
  | .poke name _ => ∀ c ∈ n.targets name, ¬n.IsConstant c
  | .evaluate | .step | .run _ | .reset => True
  | _ => False

/-- Operations that make a pass over the gates. -/
def SimOp.Settles : SimOp → Prop
  | .evaluate | .step => True
  | .run cycles => 0 < cycles
  | _ => False

/-! ## Stores side by side -/

namespace Store

theorem fst_mem_of_mem_pokes {value : UInt64} {position : Nat} {ids : Bits} {p : Nat × Bool}
    (h : p ∈ pokes value position ids) : p.1 ∈ ids := by
  induction ids generalizing position with
  | nil => exact nomatch h
  | cons id rest ih =>
    rcases List.mem_cons.1 h with rfl | h
    · exact List.mem_cons_self
    · exact List.mem_cons_of_mem id (ih h)

end Store

namespace Netlist.Alike

variable {n r : Netlist} {l lr : LevelizedNetlist} {level level' : GateId → Nat}
  {rank : SignalId → Nat} {s t : Store}

/-- The same writes keep stores alike if the constants are left alone. -/
theorem putAll (h : n.Alike s t) {puts : List (Nat × Bool)}
    (hputs : ∀ p ∈ puts, p.1 < n.signals.size) (hconstant : ∀ p ∈ puts, ¬n.IsConstant p.1) :
    n.Alike (s.putAll puts) (t.putAll puts) where
  left := h.left.putAll puts
  right := h.right.putAll puts
  agree hi := Store.bit_putAll_congr h.left h.right hputs (h.agree hi)
  zero {c} hc := by
    rw [Store.bit_putAll_of_not_mem h.left hputs, h.zero hc]
    rintro p hp rfl
    exact hconstant p hp (.inl hc)
  one {c} hc := by
    rw [Store.bit_putAll_of_not_mem h.left hputs, h.one hc]
    rintro p hp rfl
    exact hconstant p hp (.inr hc)

/-- A store of the given circuit after a pass is consistent. -/
theorem consistent (h : n.Alike s t) (hs : l.Sorted n level) (hw : n.Wellformed)
    (hc : n.HoldsConstants) : n.Consistent (s.compute l.wires).bit := by
  have hsettled := hs.compute_settledFrom hw h.left
  exact {
    settled := hsettled.settled
    zero := fun hzero => (hsettled.bit_eq _ (hc.source (.inl hzero)).1).trans (h.zero hzero)
    one := fun hone => (hsettled.bit_eq _ (hc.source (.inr hone)).1).trans (h.one hone) }

/-- After a pass the stores are alike, and they agree on what the optimized circuit needs. -/
theorem compute (h : n.Alike s t) (ho : n.Optimized r l lr level level' rank) :
    n.Alike (s.compute l.wires) (t.compute lr.wires) ∧
      ∀ i, r.Needs i → (s.compute l.wires).bit i = (t.compute lr.wires).bit i := by
  have hstands := ho.standsFor
  have hsize : r.signals.size = n.signals.size := by rw [hstands.signals_eq]
  have hright : t.SizedFor r.signals.size := hsize ▸ h.right
  have hleft' := ho.sorted.compute_settledFrom ho.wellformed h.left
  have hright' := ho.sorted'.compute_settledFrom ho.wellformed' hright
  have hconsistent := h.consistent ho.sorted ho.wellformed ho.constants
  have hagree : ∀ {i}, ¬n.IsGateOutput i →
      (s.compute l.wires).bit i = (t.compute lr.wires).bit i := by
    intro i hi
    rw [hleft'.bit_eq i hi, h.agree hi, hright'.bit_eq i fun hout => hi (hstands.output hout)]
  refine ⟨⟨hleft'.sized, hsize ▸ hright'.sized, hagree, hconsistent.zero, hconsistent.one⟩, ?_⟩
  -- By induction on the rank: a needed gate output is computed from needed signals below it.
  intro i
  induction hrank : rank i using Nat.strong_induction_on generalizing i with
  | _ k ih =>
    intro hi
    by_cases hout : n.IsGateOutput i
    · obtain ⟨g, hg, rfl⟩ := hstands.needed hi hout
      obtain ⟨hlt1, hlt2⟩ := hstands.rank_lt g hg
      have h1 := ih (rank g.in1) (hrank ▸ hlt1) g.in1 rfl (.inr (.inl ⟨g, hg, .inl rfl⟩))
      have h2 := ih (rank g.in2) (hrank ▸ hlt2) g.in2 rfl (.inr (.inl ⟨g, hg, .inr rfl⟩))
      rw [hstands.settled hconsistent g hg, hright'.settled g hg, h1, h2]
    · exact hagree hout

theorem tick (h : n.Alike s t) : n.Alike s.tick t.tick := by
  refine ⟨h.left.tick, h.right.tick, fun {i} hi => ?_, fun {c} hc => ?_, fun {c} hc => ?_⟩
  · rw [s.bit_tick, t.bit_tick, h.agree hi]
  · rw [s.bit_tick, h.zero hc]
  · rw [s.bit_tick, h.one hc]

/-- Alike stores have the same outputs if the outputs of the circuit agree. -/
theorem sameOutputs (h : n.Alike s t) (hw : n.Wellformed)
    (houtputs : ∀ o ∈ n.primaryOutputs, s.bit o = t.bit o) : n.SameOutputs s t := by
  refine ⟨houtputs, fun f hf => h.agree ?_⟩
  rintro ⟨g, hg, heq⟩
  exact hw.gate_out_ne_q hf hg heq

/-- At a clock edge both circuits capture the same values. -/
theorem captured_eq {v w : Valuation} (hstands : r.StandsFor n rank) (hv : n.Consistent v)
    (hneeds : ∀ i, r.Needs i → v i = w i) :
    FlopWires.captured n.flops v = FlopWires.captured r.flops w := by
  have hreads : ∀ f ∈ r.dffs.toList, v f.d = w f.d := fun f hf =>
    hneeds f.d (.inr (.inr ⟨f, Array.mem_toList_iff.1 hf, rfl⟩))
  simp only [FlopWires.captured, Netlist.flops, List.map_map]
  have hdffs := hstands.dffs
  generalize n.dffs.toList = fs at hdffs
  generalize r.dffs.toList = fs' at hdffs hreads
  induction hdffs with
  | nil => rfl
  | cons hflop _ ih =>
    simp only [List.mem_cons, forall_eq_or_imp] at hreads
    simp only [List.map_cons, Function.comp_apply, Dff.wires, hflop.q_eq, ← hflop.value hv,
      hreads.1]
    exact congrArg _ (ih hreads.2)

/-- A clock edge writes outputs of flip-flops, and these are no constants. -/
theorem captured_out (hw : n.Wellformed) (hc : n.HoldsConstants) {v : Valuation} :
    ∀ p ∈ FlopWires.captured n.flops v, p.1 < n.signals.size ∧ ¬n.IsConstant p.1 := by
  intro p hp
  simp only [FlopWires.captured, Netlist.flops, List.map_map, List.mem_map] at hp
  obtain ⟨f, hf, rfl⟩ := hp
  have hf := Array.mem_toList_iff.1 hf
  exact ⟨(hw.dff_lt f hf).2.2, fun hconstant => (hc.source hconstant).2 f hf rfl⟩

/-- After a cycle the stores are alike and have the same outputs. -/
theorem cycled (h : n.Alike s t) (ho : n.Optimized r l lr level level' rank) :
    n.Alike (Simulation.cycled l n s) (Simulation.cycled lr r t) ∧
      n.SameOutputs (Simulation.cycled l n s) (Simulation.cycled lr r t) := by
  obtain ⟨hpass, hneeds⟩ := h.compute ho
  have hout := @captured_out n ho.wellformed ho.constants (s.compute l.wires).bit
  have hcaptured := captured_eq ho.standsFor (h.consistent ho.sorted ho.wellformed ho.constants)
    hneeds
  have hedge := hpass.putAll (fun p hp => (hout p hp).1) fun p hp => (hout p hp).2
  rw [Simulation.cycled, Simulation.cycled, Store.edge, Store.edge, ← hcaptured]
  refine ⟨hedge.tick, hedge.tick.sameOutputs ho.wellformed fun o hmem => ?_⟩
  rw [Store.bit_tick, Store.bit_tick]
  refine Store.bit_putAll_congr hpass.left hpass.right (fun p hp => (hout p hp).1)
    (hneeds o (.inl ?_))
  exact ho.standsFor.primaryOutputs_eq ▸ hmem

end Netlist.Alike

/-! ## Simulations side by side -/

/-- The same reset leads to the same store. -/
theorem Netlist.StandsFor.forNetlist_eq {n r : Netlist} {rank : SignalId → Nat}
    (h : r.StandsFor n rank) : Store.forNetlist r = Store.forNetlist n := by
  have hone : Store.initiallyOne r = Store.initiallyOne n := by
    rw [Store.initiallyOne, Store.initiallyOne, h.signals_eq]
    congr 1
    have hdffs := h.dffs
    generalize n.dffs.toList = fs at hdffs
    generalize r.dffs.toList = fs' at hdffs
    induction hdffs with
    | nil => rfl
    | cons hflop _ ih =>
      simp only [List.filter_cons, hflop.initialValue_eq]
      split
      · rw [List.map_cons, List.map_cons, hflop.q_eq, ih]
      · exact ih
  rw [Store.forNetlist, Store.forNetlist, hone, h.signals_eq]

theorem Netlist.HoldsConstants.alike {n : Netlist} (hc : n.HoldsConstants) (hn : n.Numbered)
    (hw : n.Wellformed) {s : Store} (hs : Store.forNetlist n = .ok s) : n.Alike s s := by
  have hsized : s.SizedFor n.signals.size := by
    rw [Store.forNetlist_ok hn hw] at hs
    cases hs
    exact (Store.new_sizedFor _).putAll _
  exact ⟨hsized, hsized, fun _ => rfl, fun hzero => hc.zero hzero hs, fun hone => hc.one hone hs⟩

namespace Simulation.Ready

variable {n r : Netlist} {l lr : LevelizedNetlist} {level level' : GateId → Nat}
  {rank : SignalId → Nat} {a b : Simulation}

theorem resolve_eq (h : a.Ready n l) (hs : l.Sorted n level) (name : String) :
    a.resolve name = match n.signalId? name with
      | some id => .ok id
      | none => .error (.unknownSignal name) := by
  have hid : a.levelized.netlist.signalId? name = n.signalId? name := by
    rw [h.levelized_eq, hs.signalId?_eq]
  exact hid ▸ rfl

theorem signalId?_of_resolve (h : a.Ready n l) (hs : l.Sorted n level) {name : String}
    {id : SignalId} (hid : a.resolve name = .ok id) : n.signalId? name = some id := by
  rw [h.resolve_eq hs] at hid
  cases hname : n.signalId? name with
  | none =>
    rw [hname] at hid
    cases hid
  | some k =>
    rw [hname] at hid
    cases hid
    rfl

theorem resolve_congr (ha : a.Ready n l) (hs : l.Sorted n level) (hb : b.Ready r lr)
    (hsr : lr.Sorted r level') (hnames : r.names = n.names) (name : String) :
    b.resolve name = a.resolve name := by
  rw [ha.resolve_eq hs, hb.resolve_eq hsr, Netlist.signalId?, Netlist.signalId?, hnames]

theorem wordBus_congr (ha : a.Ready n l) (hs : l.Sorted n level) (hb : b.Ready r lr)
    (hsr : lr.Sorted r level') (hnames : r.names = n.names) (name : String) :
    b.wordBus name = a.wordBus name := by
  rw [wordBus, wordBus, resolveBus, resolveBus, ha.levelized_eq, hb.levelized_eq, hs.bus_eq,
    hsr.bus_eq, Netlist.bus_congr hnames, ha.resolve_congr hs hb hsr hnames]

theorem wordBus_targets (h : a.Ready n l) (hs : l.Sorted n level) {name : String} {bits : Bits}
    (hbits : a.wordBus name = .ok bits) : bits = n.targets name := by
  obtain ⟨bits', hbus, hbits⟩ := Except.bind_eq_ok.1 hbits
  rw [resolveBus, h.levelized_eq, hs.bus_eq] at hbus
  have heq : bits' = n.targets name := by
    rw [Netlist.targets]
    cases hn : n.bus name with
    | nil =>
      rw [hn] at hbus
      obtain ⟨id, hid, rfl⟩ := Except.map_eq_ok.1 hbus
      rw [h.signalId?_of_resolve hs hid]
      rfl
    | cons k rest =>
      rw [hn] at hbus
      cases hbus
      rfl
  split at hbits
  · cases hbits
  · cases hbits
    exact heq

end Simulation.Ready

/-- Two simulations, one of a circuit and one of an optimized circuit that stands for it. -/
structure Simulation.Paired (a b : Simulation) (n r : Netlist) (l lr : LevelizedNetlist) :
    Prop where
  left : a.Ready n l
  right : b.Ready r lr
  alike : n.Alike a.store b.store

namespace Simulation.Paired

variable {n r : Netlist} {l lr : LevelizedNetlist} {level level' : GateId → Nat}
  {rank : SignalId → Nat} {a b : Simulation}

/-- The next simulations are paired too, and their outputs agree. -/
structure Next (a b : Simulation) (n r : Netlist) (l lr : LevelizedNetlist) : Prop where
  paired : a.Paired b n r l lr
  sameOutputs : n.SameOutputs a.store b.store

theorem evaluate (h : a.Paired b n r l lr) (ho : n.Optimized r l lr level level' rank) :
    ∃ a' b', a.evaluate = .ok a' ∧ b.evaluate = .ok b' ∧ Next a' b' n r l lr := by
  obtain ⟨hok, hready⟩ := h.left.evaluate_ok ho.sorted ho.wellformed
  obtain ⟨hok', hready'⟩ := h.right.evaluate_ok ho.sorted' ho.wellformed'
  obtain ⟨halike, hneeds⟩ := h.alike.compute ho
  refine ⟨_, _, hok, hok', ⟨hready, hready', halike⟩, halike.sameOutputs ho.wellformed ?_⟩
  exact fun o hout => hneeds o (.inl (ho.standsFor.primaryOutputs_eq ▸ hout))

theorem step (h : a.Paired b n r l lr) (ho : n.Optimized r l lr level level' rank) :
    ∃ a' b', a.step = .ok a' ∧ b.step = .ok b' ∧ Next a' b' n r l lr := by
  obtain ⟨a', hok, hstore, hready⟩ := h.left.step_ok ho.sorted ho.wellformed
  obtain ⟨b', hok', hstore', hready'⟩ := h.right.step_ok ho.sorted' ho.wellformed'
  obtain ⟨halike, houtputs⟩ := h.alike.cycled ho
  rw [← hstore, ← hstore'] at halike houtputs
  exact ⟨a', b', hok, hok', ⟨hready, hready', halike⟩, houtputs⟩

theorem run (h : a.Paired b n r l lr) (ho : n.Optimized r l lr level level' rank) (cycles : Nat) :
    ∃ a' b', a.run cycles = .ok a' ∧ b.run cycles = .ok b' ∧ a'.Paired b' n r l lr ∧
      (0 < cycles → n.SameOutputs a'.store b'.store) := by
  induction cycles generalizing a b with
  | zero => exact ⟨a, b, rfl, rfl, h, fun hpos => absurd hpos (Nat.lt_irrefl 0)⟩
  | succ cycles ih =>
    obtain ⟨a₁, b₁, hstep, hstep', hnext⟩ := h.step ho
    obtain ⟨a', b', hrun, hrun', hpaired, houtputs⟩ := ih hnext.paired
    refine ⟨a', b', ?_, ?_, hpaired, fun _ => ?_⟩
    · rw [Simulation.run, hstep]
      exact hrun
    · rw [Simulation.run, hstep']
      exact hrun'
    · cases cycles with
      | zero =>
        cases hrun
        cases hrun'
        exact hnext.sameOutputs
      | succ cycles => exact houtputs (Nat.succ_pos cycles)

theorem reset (h : a.Paired b n r l lr) (ho : n.Optimized r l lr level level' rank) :
    ∃ a' b', a.reset = .ok a' ∧ b.reset = .ok b' ∧ a'.Paired b' n r l lr := by
  obtain ⟨store, _, hstore, hok, hready⟩ := h.left.reset_ok ho.sorted ho.numbered ho.wellformed
  obtain ⟨store', _, hstore', hok', hready'⟩ :=
    h.right.reset_ok ho.sorted' ho.numbered' ho.wellformed'
  rw [ho.standsFor.forNetlist_eq, hstore] at hstore'
  cases hstore'
  exact ⟨_, _, hok, hok', hready, hready', ho.constants.alike ho.numbered ho.wellformed hstore⟩

/-- Writes of the same values to the same signals keep simulations paired. -/
theorem putAll (h : a.Paired b n r l lr) (puts : List (Nat × Bool))
    (hlt : ∀ p ∈ puts, p.1 < n.signals.size) (hconstant : ∀ p ∈ puts, ¬n.IsConstant p.1) :
    Paired { a with store := a.store.putAll puts } { b with store := b.store.putAll puts }
      n r l lr where
  left := h.left.withStore (h.left.sized.putAll puts)
  right := h.right.withStore (h.right.sized.putAll puts)
  alike := h.alike.putAll hlt hconstant

/-- Both simulations answer the same, and passes make their outputs agree. -/
theorem perform (h : a.Paired b n r l lr) (ho : n.Optimized r l lr level level' rank) {op : SimOp}
    (hop : op.Drives n) :
    (∃ a' b', a.perform op = .ok (.done, a') ∧ b.perform op = .ok (.done, b') ∧
      a'.Paired b' n r l lr ∧ (op.Settles → n.SameOutputs a'.store b'.store)) ∨
    ∃ e, a.perform op = .error e ∧ b.perform op = .error e ∧ (∀ f, e ≠ .fault f) ∧ ¬op.Settles := by
  have hresolve := h.left.resolve_congr ho.sorted h.right ho.sorted' ho.standsFor.names_eq
  have hwordBus := h.left.wordBus_congr ho.sorted h.right ho.sorted' ho.standsFor.names_eq
  cases op with
  | set name value =>
    rw [Simulation.perform, Simulation.perform, h.left.set_eq ho.sorted ho.wellformed,
      h.right.set_eq ho.sorted' ho.wellformed', hresolve]
    cases hid : a.resolve name with
    | error e => exact .inr ⟨e, rfl, rfl, resolve_error hid, id⟩
    | ok id =>
      have hlt := resolve_lt h.left.levelized_eq ho.sorted ho.wellformed hid
      have hname := h.left.signalId?_of_resolve ho.sorted hid
      have hnext := h.putAll [(id, value)] (by simpa using hlt)
        (by simpa using hop id hname)
      exact .inl ⟨_, _, rfl, rfl, hnext, fun hsettles => hsettles.elim⟩
  | poke name value =>
    rw [Simulation.perform, Simulation.perform, h.left.poke_eq ho.sorted ho.wellformed,
      h.right.poke_eq ho.sorted' ho.wellformed', hwordBus]
    cases hbits : a.wordBus name with
    | error e => exact .inr ⟨e, rfl, rfl, wordBus_error hbits, id⟩
    | ok bits =>
      rw [Except.ok_bind, Except.ok_bind]
      split
      · exact .inr ⟨_, rfl, rfl, fun _ heq => SimError.noConfusion heq, id⟩
      · have hlt := wordBus_lt h.left.levelized_eq ho.sorted ho.wellformed hbits
        have htargets := h.left.wordBus_targets ho.sorted hbits
        have hmem : ∀ p ∈ Store.pokes value 0 bits, p.1 ∈ bits := fun _ =>
          Store.fst_mem_of_mem_pokes
        have hnext := h.putAll _ (fun p hp => hlt p.1 (hmem p hp))
          fun p hp => hop p.1 (htargets ▸ hmem p hp)
        exact .inl ⟨_, _, rfl, rfl, hnext, fun hsettles => hsettles.elim⟩
  | evaluate =>
    obtain ⟨a', b', hok, hok', hnext⟩ := h.evaluate ho
    exact .inl ⟨a', b', by rw [Simulation.perform, hok]; rfl, by rw [Simulation.perform, hok']; rfl,
      hnext.paired, fun _ => hnext.sameOutputs⟩
  | step =>
    obtain ⟨a', b', hok, hok', hnext⟩ := h.step ho
    exact .inl ⟨a', b', by rw [Simulation.perform, hok]; rfl, by rw [Simulation.perform, hok']; rfl,
      hnext.paired, fun _ => hnext.sameOutputs⟩
  | run cycles =>
    obtain ⟨a', b', hok, hok', hpaired, houtputs⟩ := h.run ho cycles
    exact .inl ⟨a', b', by rw [Simulation.perform, hok]; rfl, by rw [Simulation.perform, hok']; rfl,
      hpaired, houtputs⟩
  | reset =>
    obtain ⟨a', b', hok, hok', hpaired⟩ := h.reset ho
    exact .inl ⟨a', b', by rw [Simulation.perform, hok]; rfl, by rw [Simulation.perform, hok']; rfl,
      hpaired, fun hsettles => hsettles.elim⟩
  | get _ | peek _ | startRecording _ | startRecordingAll | stopRecording | exportVcd _ =>
    exact hop.elim

end Simulation.Paired

/-- An operation got the same answer on both sides, no fault, and after a pass the outputs agree. -/
structure Netlist.SameEntry (n : Netlist) (op : SimOp) (x y : Except SimError SimAnswer × Store) :
    Prop where
  answer : x.1 = y.1
  no_fault : ∀ f, x.1 ≠ .error (.fault f)
  outputs : op.Settles → x.1 = .ok .done ∧ n.SameOutputs x.2 y.2

theorem Simulation.Paired.transcript {n r : Netlist} {l lr : LevelizedNetlist}
    {level level' : GateId → Nat} {rank : SignalId → Nat} {a b : Simulation}
    (h : a.Paired b n r l lr) (ho : n.Optimized r l lr level level' rank) {ops : List SimOp}
    (hops : ∀ op ∈ ops, op.Drives n) :
    List.Forall₂ (fun op entries => n.SameEntry op entries.1 entries.2) ops
      ((a.transcript ops).zip (b.transcript ops)) := by
  induction ops generalizing a b with
  | nil => exact .nil
  | cons op rest ih =>
    simp only [List.mem_cons, forall_eq_or_imp] at hops
    rcases h.perform ho hops.1 with
      ⟨a', b', hok, hok', hnext, houtputs⟩ | ⟨e, he, he', hfault, hsettles⟩
    · simp only [Simulation.transcript, after, hok, hok', List.zip_cons_cons]
      exact .cons ⟨rfl, by simp, fun hpass => ⟨rfl, houtputs hpass⟩⟩ (ih hnext hops.2)
    · simp only [Simulation.transcript, after, he, he', List.zip_cons_cons]
      exact .cons ⟨rfl, fun f heq => hfault f (Except.error.inj heq),
        fun hpass => absurd hpass hsettles⟩ (ih h hops.2)

/-- An input that is inverted twice on its way to a flip-flop and to the output. -/
def doubleInverter : Netlist :=
  let signals := (((((Netlist.empty "double").addSignal zeroName 0).addSignal oneName 0).addSignal
    "a" 0).addSignal "x" 0).addSignal "y" 0 |>.addSignal "q" 0
  { (signals.addNand 2 2 3).addNand 3 3 4 with
    dffs := #[{ id := 0, d := 4, clk := 2, q := 5, initialValue := false }]
    primaryOutputs := #[4] }

theorem doubleInverter_signalId? (name : String) : doubleInverter.signalId? name =
    if name = zeroName then some 0 else if name = oneName then some 1 else if name = "a" then some 2
    else if name = "x" then some 3 else if name = "y" then some 4 else if name = "q" then some 5
    else none := by
  show ((((((Netlist.empty "double").addSignal zeroName 0).addSignal oneName 0).addSignal
    "a" 0).addSignal "x" 0).addSignal "y" 0 |>.addSignal "q" 0).signalId? name = _
  have hempty : (Netlist.empty "double").signalId? name = none := by
    simp [Netlist.empty, Netlist.signalId?]
  simp only [Netlist.signalId?_addSignal, hempty, Option.none_or, @eq_comm _ name]
  repeat' split
  all_goals rfl

theorem doubleInverter_numbered : doubleInverter.Numbered := by
  have h := ((((((((Netlist.Numbered.empty "double").addSignal zeroName 0).addSignal
    oneName 0).addSignal "a" 0).addSignal "x" 0).addSignal "y" 0).addSignal "q" 0).addNand
    2 2 3).addNand 3 3 4
  exact ⟨h.signal, h.gate⟩

theorem doubleInverter_wellformed : doubleInverter.Wellformed where
  gate_lt := by decide
  dff_lt := by decide
  port_lt := by
    rintro s (h | h)
    · simp [doubleInverter, Netlist.addNand, Netlist.addSignal, Netlist.empty] at h
    · have heq : s = 4 := by simpa [doubleInverter] using h
      subst heq
      decide
  name_lt {name s} h := by
    rw [doubleInverter_signalId?] at h
    show s < 6
    repeat' split at h
    all_goals cases h
    all_goals decide
  clock_lt := nofun
  driven_nodup := by decide
  unmarked := by decide

theorem doubleInverter_holdsConstants : doubleInverter.HoldsConstants := by
  have hzero : ∀ {c}, doubleInverter.signalId? zeroName = some c → c = 0 := by
    intro c hc
    rw [doubleInverter_signalId?, if_pos rfl] at hc
    exact (Option.some.inj hc).symm
  have hone : ∀ {c}, doubleInverter.signalId? oneName = some c → c = 1 := by
    intro c hc
    rw [doubleInverter_signalId?, if_neg (by decide), if_pos rfl] at hc
    exact (Option.some.inj hc).symm
  have hstore : ∃ t, Store.forNetlist doubleInverter = .ok t ∧ t.bit 0 = false ∧ t.bit 1 = true :=
    ⟨_, rfl, by decide, by decide⟩
  obtain ⟨t, ht, h0, h1⟩ := hstore
  refine ⟨?_, fun hc hs => ?_, fun hc hs => ?_⟩
  · rintro c (hc | hc)
    · rw [hzero hc]
      exact ⟨fun ⟨g, hg, heq⟩ => absurd heq (by revert g; decide), by decide⟩
    · rw [hone hc]
      exact ⟨fun ⟨g, hg, heq⟩ => absurd heq (by revert g; decide), by decide⟩
  · rw [hzero hc]
    cases ht.symm.trans hs
    exact h0
  · rw [hone hc]
    cases ht.symm.trans hs
    exact h1

end NandHdl
