-- SUMMARY: Sequences of operations on a simulation (`SimOp`) and what each operation does to a simulation that is ready (`Simulation.Ready`).
import NandHdl.Simulation.Basic
import NandHdl.Proofs.Kernel.Engine
import Mathlib.Logic.Function.Iterate

/-!
# Operations

A simulation is used by a sequence of operations. An operation that is refused leaves the
simulation as it was.

A simulation is ready if its store has a bit for every signal and its engine runs the circuit it
was built for. Every simulation of a levelized netlist starts ready and stays so.
-/

namespace NandHdl

/-! ## Sequences of operations -/

/-- What one can ask a simulation for. -/
inductive SimOp where
  | set (name : String) (value : Bool)
  | get (name : String)
  | poke (name : String) (value : UInt64)
  | peek (name : String)
  | evaluate
  | step
  | run (cycles : Nat)
  | reset
  | startRecording (names : List String)
  | startRecordingAll
  | stopRecording
  | exportVcd (names : Option (List String))
  deriving Repr, DecidableEq

/-- What an operation answers. -/
inductive SimAnswer where
  | done
  | bit (value : Bool)
  | word (value : UInt64)
  | text (value : String)
  deriving Repr, DecidableEq

namespace Simulation

/-- Carries out an operation. -/
def perform (sim : Simulation) : SimOp → Except SimError (SimAnswer × Simulation)
  | .set name value => (sim.set name value).map (SimAnswer.done, ·)
  | .get name => (sim.get name).map fun value => (.bit value, sim)
  | .poke name value => (sim.poke name value).map (SimAnswer.done, ·)
  | .peek name => (sim.peek name).map fun value => (.word value, sim)
  | .evaluate => sim.evaluate.map (SimAnswer.done, ·)
  | .step => sim.step.map (SimAnswer.done, ·)
  | .run cycles => (sim.run cycles).map (SimAnswer.done, ·)
  | .reset => sim.reset.map (SimAnswer.done, ·)
  | .startRecording names => (sim.startRecording names).map (SimAnswer.done, ·)
  | .startRecordingAll => sim.startRecordingAll.map (SimAnswer.done, ·)
  | .stopRecording => .ok (.done, sim.stopRecording)
  | .exportVcd names => (sim.exportVcd names).map fun text => (.text text, sim)

/-- The answer to an operation and the simulation after it. -/
def after (sim : Simulation) (op : SimOp) : Except SimError SimAnswer × Simulation :=
  match sim.perform op with
  | .ok (answer, next) => (.ok answer, next)
  | .error e => (.error e, sim)

/-- The answers to a sequence of operations, each with the store after it. -/
def transcript (sim : Simulation) : List SimOp → List (Except SimError SimAnswer × Store)
  | [] => []
  | op :: rest =>
    let (answer, next) := sim.after op
    (answer, next.store) :: next.transcript rest

end Simulation

/-! ## Several signals at once -/

namespace Store

variable {s : Store} {signals : Nat}

theorem setAll_run {ids : List SignalId} (hs : s.SizedFor signals) (hids : ∀ i ∈ ids, i < signals) :
    setAll ids s = .ok () (s.putAll (ids.map (·, true))) := by
  induction ids generalizing s with
  | nil => rfl
  | cons i rest ih =>
    simp only [List.mem_cons, forall_eq_or_imp] at hids
    simp [setAll, bind, EStateM.bind, write_run hs hids.1, ih (hs.put i true) hids.2, putAll]

/-- The bits of a word from bit `position` on, each with its signal. -/
def pokes (value : UInt64) (position : Nat) : Bits → List (SignalId × Bool)
  | [] => []
  | id :: rest => (id, value.toNat.testBit position) :: pokes value (position + 1) rest

theorem writeFrom_run {value : UInt64} {position : Nat} {ids : Bits} (hs : s.SizedFor signals)
    (hids : ∀ i ∈ ids, i < signals) :
    writeFrom value position ids s = .ok () (s.putAll (pokes value position ids)) := by
  induction ids generalizing s position with
  | nil => rfl
  | cons i rest ih =>
    simp only [List.mem_cons, forall_eq_or_imp] at hids
    simp [writeFrom, bind, EStateM.bind, write_run hs hids.1, ih (hs.put i _) hids.2, putAll, pokes]

theorem new_sizedFor (signals : Nat) : (new signals).SizedFor signals := by
  simp only [SizedFor, new, wordsFor, headerWords, Array.size_append, Array.size_replicate,
    List.size_toArray, List.length_cons, List.length_nil]
  omega

/-- The store of a well-formed netlist after a reset. -/
theorem forNetlist_ok {n : Netlist} (hn : n.Numbered) (hw : n.Wellformed) :
    forNetlist n = .ok ((new n.signals.size).putAll ((initiallyOne n).map (·, true))) := by
  have hids : ∀ i ∈ initiallyOne n, i < n.signals.size := by
    intro i hi
    simp only [initiallyOne, List.mem_append, List.mem_map, List.mem_filter,
      Array.mem_toList_iff] at hi
    rcases hi with ⟨signal, ⟨hsignal, -⟩, rfl⟩ | ⟨f, ⟨hf, -⟩, rfl⟩
    · obtain ⟨j, hj⟩ := Array.getElem?_of_mem hsignal
      rw [hn.signal hj]
      exact (Array.getElem?_eq_some_iff.1 hj).1
    · exact (hw.dff_lt f hf).2.2
  rw [forNetlist, EStateM.run, setAll_run (new_sizedFor _) hids]

end Store

/-! ## Ready simulations -/

/-- The simulation of the levelized netlist `l` of `n` has a bit for every signal, its engine runs
the circuit, and what it records is there. -/
structure Simulation.Ready (sim : Simulation) (n : Netlist) (l : LevelizedNetlist) : Prop where
  levelized_eq : sim.levelized = l
  sized : sim.store.SizedFor n.signals.size
  runs : sim.kernel.Runs l.wires n.flops
  kind_eq : sim.kernel.kind = sim.config.kernel
  fits : sim.config.kernel = .batch → n.signals.size < 2 ^ 32
  watched_lt : ∀ {watched}, sim.watched = some watched → ∀ w ∈ watched, w.2 < n.signals.size

/-- Buses are a matter of names. -/
theorem Netlist.bus_congr {n r : Netlist} (h : r.names = n.names) (name : String) :
    r.bus name = n.bus name := by
  have hfrom : ∀ left start, r.busFrom name left start = n.busFrom name left start := by
    intro left
    induction left with
    | zero => exact fun _ => rfl
    | succ left ih =>
      intro start
      simp only [busFrom, signalId?, h, ih]
  rw [bus, bus, hfrom, h]

namespace LevelizedNetlist.Sorted

variable {l : LevelizedNetlist} {n : Netlist} {level : GateId → Nat}

theorem signalId?_eq (h : l.Sorted n level) (name : String) :
    l.netlist.signalId? name = n.signalId? name := by
  rw [h.netlist_eq]
  rfl

theorem bus_eq (h : l.Sorted n level) (name : String) : l.netlist.bus name = n.bus name := by
  apply Netlist.bus_congr
  rw [h.netlist_eq]
  rfl

theorem forNetlist_eq (h : l.Sorted n level) :
    Store.forNetlist l.netlist = Store.forNetlist n := by
  rw [h.netlist_eq]
  rfl

end LevelizedNetlist.Sorted

theorem Netlist.mem_busFrom_lt {n : Netlist} (hw : n.Wellformed) {name : String}
    {left start : Nat} {i : SignalId} (hi : i ∈ n.busFrom name left start) : i < n.signals.size := by
  induction left generalizing start with
  | zero => exact nomatch hi
  | succ left ih =>
    rw [Netlist.busFrom] at hi
    split at hi
    · next id hid =>
      rcases List.mem_cons.1 hi with rfl | hi
      · exact hw.name_lt hid
      · exact ih hi
    · exact nomatch hi

namespace Simulation

/-- The store after a cycle. -/
def cycled (l : LevelizedNetlist) (n : Netlist) (s : Store) : Store :=
  ((s.compute l.wires).edge n.flops).tick

variable {sim : Simulation} {n : Netlist} {l : LevelizedNetlist} {level : GateId → Nat}

theorem start_ok (h : l.Sorted n level) (hn : n.Numbered) (hw : n.Wellformed) (config : SimConfig)
    (hfits : config.kernel = .batch → n.signals.size < 2 ^ 32) :
    ∃ store kernel, Store.forNetlist n = .ok store ∧
      start l config = .ok { levelized := l, config, store, kernel } ∧
      ({ levelized := l, config, store, kernel } : Simulation).Ready n l := by
  have hstore := Store.forNetlist_ok hn hw
  obtain ⟨kernel, hkernel, hruns⟩ := h.kernel_ok config.kernel
  refine ⟨_, kernel, hstore, by rw [start, h.forNetlist_eq, hstore, hkernel]; rfl, ?_⟩
  exact ⟨rfl, (Store.new_sizedFor _).putAll _, hruns, Kernel.kind_ofLevelized hkernel, hfits, nofun⟩

theorem act_ok {α : Type} {action : StoreM α} {x : α} {store : Store}
    (h : action sim.store = .ok x store) : sim.act action = .ok (x, { sim with store }) := by
  simp only [act, EStateM.run, h]

theorem resolve_lt (heq : sim.levelized = l) (hs : l.Sorted n level) (hw : n.Wellformed)
    {name : String} {id : SignalId} (hid : sim.resolve name = .ok id) : id < n.signals.size := by
  rw [resolve, heq, hs.signalId?_eq] at hid
  cases hname : n.signalId? name with
  | none =>
    rw [hname] at hid
    cases hid
  | some k =>
    rw [hname] at hid
    cases hid
    exact hw.name_lt hname

theorem resolveBus_lt (heq : sim.levelized = l) (hs : l.Sorted n level) (hw : n.Wellformed)
    {name : String} {bits : Bits} (hbits : sim.resolveBus name = .ok bits) :
    ∀ i ∈ bits, i < n.signals.size := by
  rw [resolveBus, heq, hs.bus_eq] at hbits
  split at hbits
  · obtain ⟨id, hid, rfl⟩ := Except.map_eq_ok.1 hbits
    simpa using resolve_lt heq hs hw hid
  · cases hbits
    exact fun i hi => n.mem_busFrom_lt hw hi

theorem wordBus_lt (heq : sim.levelized = l) (hs : l.Sorted n level) (hw : n.Wellformed)
    {name : String} {bits : Bits} (hbits : sim.wordBus name = .ok bits) :
    ∀ i ∈ bits, i < n.signals.size := by
  obtain ⟨bits', hbus, hbits⟩ := Except.bind_eq_ok.1 hbits
  split at hbits
  · cases hbits
  · cases hbits
    exact resolveBus_lt heq hs hw hbus

theorem resolve_error {name : String} {e : SimError} (h : sim.resolve name = .error e) (f : Fault) :
    e ≠ .fault f := by
  rw [resolve] at h
  split at h
  · cases h
  · cases h
    nofun

theorem wordBus_error {name : String} {e : SimError} (h : sim.wordBus name = .error e) (f : Fault) :
    e ≠ .fault f := by
  rw [wordBus, resolveBus] at h
  split at h
  · cases hid : sim.resolve name with
    | error e' =>
      rw [hid] at h
      cases h
      exact resolve_error hid f
    | ok id =>
      rw [hid] at h
      cases h
  · rw [Except.ok_bind] at h
    split at h
    · cases h
      nofun
    · cases h

theorem exported_error {names : Option (List String)} {e : SimError}
    (h : sim.exported names = .error e) (f : Fault) : e ≠ .fault f := by
  cases names with
  | none => cases h
  | some names =>
    rw [exported] at h
    split at h
    · cases h
      nofun
    · cases h

/-! ## Buses of a store with all signals -/

theorem poke_eq_of_sized (heq : sim.levelized = l) (hsized : sim.store.SizedFor n.signals.size)
    (hs : l.Sorted n level) (hw : n.Wellformed) (name : String) (value : UInt64) :
    sim.poke name value = do
      let bits ← sim.wordBus name
      if value.toNat ≥ 1 <<< bits.length then throw (.valueOutOfRange name bits.length value)
      return { sim with store := sim.store.putAll (Store.pokes value 0 bits) } := by
  rw [poke]
  cases hbits : sim.wordBus name with
  | error e => rfl
  | ok bits =>
    rw [Except.ok_bind, Except.ok_bind, Store.writeBits,
      act_ok (Store.writeFrom_run hsized (wordBus_lt heq hs hw hbits))]
    rfl

theorem peek_eq_of_sized (heq : sim.levelized = l) (hsized : sim.store.SizedFor n.signals.size)
    (hs : l.Sorted n level) (hw : n.Wellformed) (name : String) :
    sim.peek name = (sim.wordBus name).map fun bits =>
      Store.wordOfBits ((bits.take 64).map sim.store.bit) := by
  rw [peek]
  cases hbits : sim.wordBus name with
  | error e => rfl
  | ok bits =>
    have hlt := wordBus_lt heq hs hw hbits
    have hread : Store.readAll (bits.take 64) sim.store =
        .ok ((bits.take 64).map sim.store.bit) sim.store :=
      Store.readAll_run hsized fun i hi => hlt i (List.mem_of_mem_take hi)
    have hrun : Store.readBits bits sim.store =
        .ok (Store.wordOfBits ((bits.take 64).map sim.store.bit)) sim.store := by
      simp only [Store.readBits, bind, EStateM.bind, hread]
      rfl
    rw [Except.ok_bind, act_ok hrun]
    rfl

namespace Ready

/-! ## Names and values -/

/-- The store changes, and nothing else. -/
theorem withStore (h : sim.Ready n l) {store : Store} (hs : store.SizedFor n.signals.size) :
    ({ sim with store } : Simulation).Ready n l :=
  ⟨h.levelized_eq, hs, h.runs, h.kind_eq, h.fits, h.watched_lt⟩

theorem set_eq (h : sim.Ready n l) (hs : l.Sorted n level) (hw : n.Wellformed) (name : String)
    (value : Bool) :
    sim.set name value =
      (sim.resolve name).map fun id => { sim with store := sim.store.put id value } := by
  rw [set]
  cases hid : sim.resolve name with
  | error e => rfl
  | ok id =>
    have hlt := resolve_lt h.levelized_eq hs hw hid
    rw [Except.ok_bind, act_ok (Store.write_run h.sized hlt value)]
    rfl

theorem get_eq (h : sim.Ready n l) (hs : l.Sorted n level) (hw : n.Wellformed) (name : String) :
    sim.get name = (sim.resolve name).map sim.store.bit := by
  rw [get]
  cases hid : sim.resolve name with
  | error e => rfl
  | ok id =>
    rw [Except.ok_bind, act_ok (Store.read_run h.sized (resolve_lt h.levelized_eq hs hw hid))]
    rfl

theorem poke_eq (h : sim.Ready n l) (hs : l.Sorted n level) (hw : n.Wellformed) (name : String)
    (value : UInt64) :
    sim.poke name value = do
      let bits ← sim.wordBus name
      if value.toNat ≥ 1 <<< bits.length then throw (.valueOutOfRange name bits.length value)
      return { sim with store := sim.store.putAll (Store.pokes value 0 bits) } :=
  poke_eq_of_sized h.levelized_eq h.sized hs hw name value

theorem peek_eq (h : sim.Ready n l) (hs : l.Sorted n level) (hw : n.Wellformed) (name : String) :
    sim.peek name = (sim.wordBus name).map fun bits =>
      Store.wordOfBits ((bits.take 64).map sim.store.bit) :=
  peek_eq_of_sized h.levelized_eq h.sized hs hw name

/-! ## Recording -/

theorem sampleValues_ok (h : sim.Ready n l) {watched : List (String × SignalId)}
    (hwatched : ∀ w ∈ watched, w.2 < n.signals.size) (values : NameMap Bool) :
    ∃ values', sim.sampleValues values watched = .ok values' := by
  induction watched generalizing values with
  | nil => exact ⟨values, rfl⟩
  | cons w rest ih =>
    simp only [List.mem_cons, forall_eq_or_imp] at hwatched
    obtain ⟨values', hrest⟩ := ih hwatched.2 (values.insert w.1 (sim.store.bit w.2))
    refine ⟨values', ?_⟩
    rw [sampleValues, act_ok (Store.read_run h.sized hwatched.1), Except.ok_bind]
    exact hrest

/-- A sample touches nothing but the samples. -/
theorem snapshot_ok (h : sim.Ready n l) :
    ∃ samples, sim.snapshot = .ok { sim with samples } ∧
      ({ sim with samples } : Simulation).Ready n l := by
  suffices hok : ∃ samples, sim.snapshot = .ok { sim with samples } by
    obtain ⟨samples, hok⟩ := hok
    exact ⟨samples, hok, h.levelized_eq, h.sized, h.runs, h.kind_eq, h.fits, h.watched_lt⟩
  rw [snapshot]
  split
  · exact ⟨sim.samples, rfl⟩
  · next watched hwatched =>
    obtain ⟨values, hvalues⟩ := h.sampleValues_ok (h.watched_lt hwatched) {}
    exact ⟨_, by rw [hvalues]; rfl⟩

theorem resolveAll_ok (h : sim.Ready n l) (hs : l.Sorted n level) (hw : n.Wellformed)
    (names : List String) :
    (∃ watched : List (String × SignalId),
      (names.mapM fun name => do return (name, ← sim.resolve name)) = .ok watched ∧
        ∀ w ∈ watched, w.2 < n.signals.size) ∨
      ∃ e, (names.mapM fun name => do return (name, ← sim.resolve name)) = .error e ∧
        ∀ f, e ≠ .fault f := by
  induction names with
  | nil => exact .inl ⟨[], rfl, by simp⟩
  | cons name rest ih =>
    rw [List.mapM_cons]
    cases hid : sim.resolve name with
    | error e => exact .inr ⟨e, rfl, resolve_error hid⟩
    | ok id =>
      obtain ⟨watched, hrest, hlt⟩ | ⟨e, hrest, he⟩ := ih
      · refine .inl ⟨(name, id) :: watched, by rw [hrest]; rfl, ?_⟩
        simpa using ⟨resolve_lt h.levelized_eq hs hw hid, by simpa using hlt⟩
      · exact .inr ⟨e, by rw [hrest]; rfl, he⟩

theorem record_ok (h : sim.Ready n l) {watched : List (String × SignalId)}
    (hwatched : ∀ w ∈ watched, w.2 < n.signals.size) :
    ∃ next, sim.record watched = .ok next ∧ next.Ready n l := by
  have hempty : ({ sim with samples := #[], watched := some watched } : Simulation).Ready n l :=
    ⟨h.levelized_eq, h.sized, h.runs, h.kind_eq, h.fits, fun heq => Option.some.inj heq ▸ hwatched⟩
  obtain ⟨samples, hok, hready⟩ := hempty.snapshot_ok
  exact ⟨_, hok, hready⟩

/-! ## Clocking and reset -/

theorem evaluate_ok (h : sim.Ready n l) (hs : l.Sorted n level) (hw : n.Wellformed) :
    sim.evaluate = .ok { sim with store := sim.store.compute l.wires } ∧
      ({ sim with store := sim.store.compute l.wires } : Simulation).Ready n l := by
  have hrun := Kernel.evaluate_run h.runs (fun hk => h.fits (h.kind_eq ▸ hk)) h.sized
    (Nat.le_refl _) fun _ => hs.wires_below hw
  refine ⟨?_, h.withStore (Store.compute_spec h.sized fun _ => hs.wires_below hw).1⟩
  rw [evaluate, act_ok hrun]
  rfl

/-- A cycle computes the gates, captures the flip-flops, counts and takes a sample. -/
theorem step_eq (h : sim.Ready n l) (hs : l.Sorted n level) (hw : n.Wellformed) :
    ∃ kernel, sim.step = ({ sim with store := cycled l n sim.store, kernel }).snapshot ∧
      ({ sim with store := cycled l n sim.store, kernel } : Simulation).Ready n l := by
  obtain ⟨kernel, hrun, hruns, hkind⟩ := Kernel.cycle_run h.runs
    (fun hk => h.fits (h.kind_eq ▸ hk)) h.sized (Nat.le_refl _) (fun _ => hs.wires_below hw)
    hw.flop_lt
  have hsized : (cycled l n sim.store).SizedFor n.signals.size :=
    ((Store.compute_spec h.sized fun _ => hs.wires_below hw).1.edge n.flops).tick
  exact ⟨kernel, by rw [step, act_ok hrun]; rfl,
    h.levelized_eq, hsized, hruns, hkind.trans h.kind_eq, h.fits, h.watched_lt⟩

theorem step_ok (h : sim.Ready n l) (hs : l.Sorted n level) (hw : n.Wellformed) :
    ∃ next, sim.step = .ok next ∧ next.store = cycled l n sim.store ∧ next.Ready n l := by
  obtain ⟨kernel, hstep, hready⟩ := h.step_eq hs hw
  obtain ⟨samples, hsnapshot, hready'⟩ := hready.snapshot_ok
  exact ⟨_, hstep.trans hsnapshot, rfl, hready'⟩

theorem run_ok (h : sim.Ready n l) (hs : l.Sorted n level) (hw : n.Wellformed) (cycles : Nat) :
    ∃ next, sim.run cycles = .ok next ∧ next.store = (cycled l n)^[cycles] sim.store ∧
      next.Ready n l := by
  induction cycles generalizing sim with
  | zero => exact ⟨sim, rfl, rfl, h⟩
  | succ cycles ih =>
    obtain ⟨first, hfirst, hstore, hready⟩ := h.step_ok hs hw
    obtain ⟨next, hrest, hnext, hready'⟩ := ih hready
    refine ⟨next, ?_, ?_, hready'⟩
    · rw [run, hfirst]
      exact hrest
    · rw [hnext, hstore, Function.iterate_succ_apply]

theorem reset_ok (h : sim.Ready n l) (hs : l.Sorted n level) (hn : n.Numbered)
    (hw : n.Wellformed) :
    ∃ store kernel, Store.forNetlist n = .ok store ∧
      sim.reset = .ok { sim with store, kernel } ∧
      ({ sim with store, kernel } : Simulation).Ready n l := by
  have hstore := Store.forNetlist_ok hn hw
  obtain ⟨k, hk, hruns⟩ := hs.kernel_ok sim.config.kernel
  refine ⟨_, k, hstore, ?_, h.levelized_eq, (Store.new_sizedFor _).putAll _, hruns,
    Kernel.kind_ofLevelized hk, h.fits, h.watched_lt⟩
  rw [reset, h.levelized_eq, hs.forNetlist_eq, hstore, hk]
  rfl

/-! ## Any operation -/

/-- An operation on a ready simulation leaves it ready or is refused, and never for a fault. -/
theorem perform_ok (h : sim.Ready n l) (hs : l.Sorted n level) (hn : n.Numbered)
    (hw : n.Wellformed) (op : SimOp) :
    (∃ answer next, sim.perform op = .ok (answer, next) ∧ next.Ready n l) ∨
      ∃ e, sim.perform op = .error e ∧ ∀ f, e ≠ .fault f := by
  cases op with
  | set name value =>
    rw [Simulation.perform, h.set_eq hs hw]
    cases hid : sim.resolve name with
    | error e => exact .inr ⟨e, rfl, resolve_error hid⟩
    | ok id => exact .inl ⟨_, _, rfl, h.withStore (h.sized.put id value)⟩
  | get name =>
    rw [Simulation.perform, h.get_eq hs hw]
    cases hid : sim.resolve name with
    | error e => exact .inr ⟨e, rfl, resolve_error hid⟩
    | ok id => exact .inl ⟨_, _, rfl, h⟩
  | poke name value =>
    rw [Simulation.perform, h.poke_eq hs hw]
    cases hbits : sim.wordBus name with
    | error e => exact .inr ⟨e, rfl, wordBus_error hbits⟩
    | ok bits =>
      rw [Except.ok_bind]
      split
      · exact .inr ⟨_, rfl, nofun⟩
      · exact .inl ⟨_, _, rfl, h.withStore (h.sized.putAll _)⟩
  | peek name =>
    rw [Simulation.perform, h.peek_eq hs hw]
    cases hbits : sim.wordBus name with
    | error e => exact .inr ⟨e, rfl, wordBus_error hbits⟩
    | ok bits => exact .inl ⟨_, _, rfl, h⟩
  | evaluate =>
    obtain ⟨hok, hready⟩ := h.evaluate_ok hs hw
    exact .inl ⟨_, _, by rw [Simulation.perform, hok]; rfl, hready⟩
  | step =>
    obtain ⟨next, hok, -, hready⟩ := h.step_ok hs hw
    exact .inl ⟨_, _, by rw [Simulation.perform, hok]; rfl, hready⟩
  | run cycles =>
    obtain ⟨next, hok, -, hready⟩ := h.run_ok hs hw cycles
    exact .inl ⟨_, _, by rw [Simulation.perform, hok]; rfl, hready⟩
  | reset =>
    obtain ⟨store, kernel, -, hok, hready⟩ := h.reset_ok hs hn hw
    exact .inl ⟨_, _, by rw [Simulation.perform, hok]; rfl, hready⟩
  | startRecording names =>
    rw [Simulation.perform, startRecording]
    obtain ⟨watched, hwatched, hlt⟩ | ⟨e, hrefused, he⟩ := h.resolveAll_ok hs hw names
    · obtain ⟨next, hok, hready⟩ := h.record_ok hlt
      exact .inl ⟨_, next, by rw [hwatched, Except.ok_bind, hok]; rfl, hready⟩
    · exact .inr ⟨e, by rw [hrefused]; rfl, he⟩
  | startRecordingAll =>
    have hlt : ∀ w ∈ sim.levelized.netlist.names.toList, w.2 < n.signals.size := by
      intro w hmem
      rw [h.levelized_eq, hs.netlist_eq] at hmem
      exact hw.name_lt (Std.TreeMap.mem_toList_iff_getElem?_eq_some.1 hmem)
    obtain ⟨next, hok, hready⟩ := h.record_ok hlt
    exact .inl ⟨_, next, by rw [Simulation.perform, startRecordingAll, hok]; rfl, hready⟩
  | stopRecording =>
    exact .inl ⟨_, _, rfl, h.levelized_eq, h.sized, h.runs, h.kind_eq, h.fits, nofun⟩
  | exportVcd names =>
    rw [Simulation.perform, exportVcd]
    cases hnames : sim.exported names with
    | error e => exact .inr ⟨e, rfl, exported_error hnames⟩
    | ok names => exact .inl ⟨_, _, rfl, h⟩

theorem transcript_ne_fault (h : sim.Ready n l) (hs : l.Sorted n level) (hn : n.Numbered)
    (hw : n.Wellformed) (ops : List SimOp) :
    ∀ entry ∈ sim.transcript ops, ∀ f, entry.1 ≠ .error (.fault f) := by
  induction ops generalizing sim with
  | nil => simp [transcript]
  | cons op rest ih =>
    rcases h.perform_ok hs hn hw op with ⟨answer, next, hop, hready⟩ | ⟨e, hop, he⟩
    · simpa [transcript, after, hop] using ih hready
    · have hrest := ih h
      simp only [transcript, after, hop, List.mem_cons, forall_eq_or_imp]
      exact ⟨fun f heq => he f (Except.error.inj heq), hrest⟩

end Ready

end Simulation

end NandHdl
