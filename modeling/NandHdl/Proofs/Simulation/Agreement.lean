-- SUMMARY: The engine of a simulation cannot be told from outside (`start_transcript_eq`): both engines give the same answers and the same stores.
import NandHdl.Proofs.Simulation.Operations
import NandHdl.Proofs.Settling

/-!
# Agreement of the engines

Two simulations that differ in their engine only are followed side by side. What does not use the
engine is the same on both by definition; a pass and a cycle are the same because both engines run
the same circuit.
-/

namespace NandHdl

namespace Simulation

variable {sim next : Simulation} {n : Netlist} {l : LevelizedNetlist} {level : GateId → Nat}

/-- The simulation with another engine. -/
def withKernel (sim : Simulation) (k : Kernel) : Simulation :=
  { sim with kernel := k, config := { sim.config with kernel := k.kind } }

/-! ## Operations that do not use the engine -/

theorem act_withKernel (k : Kernel) {α : Type} (action : StoreM α) :
    (sim.withKernel k).act action = (sim.act action).map fun (x, next) => (x, next.withKernel k) := by
  simp only [act, withKernel]
  cases action.run sim.store with
  | ok x store => rfl
  | error f store => rfl

theorem set_withKernel (k : Kernel) (name : String) (value : Bool) :
    (sim.withKernel k).set name value = (sim.set name value).map (·.withKernel k) := by
  show (sim.resolve name >>= _) = _
  rw [set]
  cases sim.resolve name with
  | error e => rfl
  | ok id =>
    rw [Except.ok_bind, Except.ok_bind, act_withKernel]
    cases sim.act (Store.write id value) with
    | error e => rfl
    | ok p => rfl

theorem get_withKernel (k : Kernel) (name : String) :
    (sim.withKernel k).get name = sim.get name := by
  show (sim.resolve name >>= _) = _
  rw [get]
  cases sim.resolve name with
  | error e => rfl
  | ok id =>
    rw [Except.ok_bind, Except.ok_bind, act_withKernel]
    cases sim.act (Store.read id) with
    | error e => rfl
    | ok p => rfl

theorem poke_withKernel (k : Kernel) (name : String) (value : UInt64) :
    (sim.withKernel k).poke name value = (sim.poke name value).map (·.withKernel k) := by
  show (sim.wordBus name >>= _) = _
  rw [poke]
  cases sim.wordBus name with
  | error e => rfl
  | ok bits =>
    rw [Except.ok_bind, Except.ok_bind]
    split
    · rfl
    · rw [act_withKernel]
      cases sim.act (Store.writeBits bits value) with
      | error e => rfl
      | ok p => rfl

theorem peek_withKernel (k : Kernel) (name : String) :
    (sim.withKernel k).peek name = sim.peek name := by
  show (sim.wordBus name >>= _) = _
  rw [peek]
  cases sim.wordBus name with
  | error e => rfl
  | ok bits =>
    rw [Except.ok_bind, Except.ok_bind, act_withKernel]
    cases sim.act (Store.readBits bits) with
    | error e => rfl
    | ok p => rfl

theorem sampleValues_withKernel (k : Kernel) (values : NameMap Bool)
    (watched : List (String × SignalId)) :
    (sim.withKernel k).sampleValues values watched = sim.sampleValues values watched := by
  induction watched generalizing values with
  | nil => rfl
  | cons w rest ih =>
    rw [sampleValues, sampleValues, act_withKernel]
    cases sim.act (Store.read w.2) with
    | error e => rfl
    | ok p => exact ih _

theorem snapshot_withKernel (k : Kernel) :
    (sim.withKernel k).snapshot = sim.snapshot.map (·.withKernel k) := by
  have hwatched : (sim.withKernel k).watched = sim.watched := rfl
  rw [snapshot, snapshot, hwatched]
  cases sim.watched with
  | none => rfl
  | some watched =>
    simp only [sampleValues_withKernel]
    cases sim.sampleValues {} watched with
    | error e => rfl
    | ok values => rfl

theorem record_withKernel (k : Kernel) (watched : List (String × SignalId)) :
    (sim.withKernel k).record watched = (sim.record watched).map (·.withKernel k) :=
  @snapshot_withKernel { sim with samples := #[], watched := some watched } k

theorem startRecording_withKernel (k : Kernel) (names : List String) :
    (sim.withKernel k).startRecording names =
      (sim.startRecording names).map (·.withKernel k) := by
  show ((names.mapM fun name => do return (name, ← sim.resolve name)) >>= _) = _
  rw [startRecording]
  cases names.mapM fun name => do return (name, ← sim.resolve name) with
  | error e => rfl
  | ok watched => exact record_withKernel k watched

/-! ## Operations that use the engine -/

variable {k : Kernel}

namespace Ready

theorem evaluate_withKernel (h : sim.Ready n l) (h' : (sim.withKernel k).Ready n l)
    (hs : l.Sorted n level) (hw : n.Wellformed) :
    (sim.withKernel k).evaluate = sim.evaluate.map (·.withKernel k) := by
  rw [(h.evaluate_ok hs hw).1, (h'.evaluate_ok hs hw).1]
  rfl

theorem step_withKernel (h : sim.Ready n l) (h' : (sim.withKernel k).Ready n l)
    (hs : l.Sorted n level) (hw : n.Wellformed) :
    ∃ k', (sim.withKernel k).step = sim.step.map (·.withKernel k') := by
  obtain ⟨next, hstep, -⟩ := h.step_eq hs hw
  obtain ⟨k', hstep', hready'⟩ := h'.step_eq hs hw
  have hkind : k'.kind = k.kind := hready'.kind_eq
  refine ⟨k', ?_⟩
  have hswap : ({ sim.withKernel k with store := cycled l n sim.store, kernel := k' } : Simulation) =
      ({ sim with store := cycled l n sim.store, kernel := next } : Simulation).withKernel k' := by
    simp only [withKernel, hkind]
  rw [hstep, hstep', ← snapshot_withKernel, ← hswap]
  rfl

theorem run_withKernel (h : sim.Ready n l) (h' : (sim.withKernel k).Ready n l)
    (hs : l.Sorted n level) (hw : n.Wellformed) (cycles : Nat) :
    ∃ k', (sim.withKernel k).run cycles = (sim.run cycles).map (·.withKernel k') := by
  induction cycles generalizing sim k with
  | zero => exact ⟨k, rfl⟩
  | succ cycles ih =>
    obtain ⟨k', hstep⟩ := h.step_withKernel h' hs hw
    obtain ⟨first, hfirst, -, hready⟩ := h.step_ok hs hw
    obtain ⟨first', hfirst', -, hready'⟩ := h'.step_ok hs hw
    have heq : first' = first.withKernel k' := by
      rw [hfirst, hfirst'] at hstep
      exact Except.ok.inj hstep
    simp only [Simulation.run, hfirst, hfirst', Except.ok_bind, heq]
    exact ih hready (heq ▸ hready')

theorem reset_withKernel (h : sim.Ready n l) (h' : (sim.withKernel k).Ready n l)
    (hs : l.Sorted n level) (hn : n.Numbered) (hw : n.Wellformed) :
    ∃ k', (sim.withKernel k).reset = sim.reset.map (·.withKernel k') := by
  obtain ⟨store, _, hstore, hreset, -⟩ := h.reset_ok hs hn hw
  obtain ⟨store', k', hstore', hreset', hready'⟩ := h'.reset_ok hs hn hw
  have hkind : k'.kind = k.kind := hready'.kind_eq
  cases hstore.symm.trans hstore'
  refine ⟨k', ?_⟩
  rw [hreset, hreset']
  simp only [Except.map, withKernel, hkind]

/-- An operation answers the same with another engine, and leaves simulations that differ in
their engine only. -/
theorem perform_withKernel (h : sim.Ready n l) (h' : (sim.withKernel k).Ready n l)
    (hs : l.Sorted n level) (hn : n.Numbered) (hw : n.Wellformed) (op : SimOp) :
    ∃ k', (sim.withKernel k).perform op =
      (sim.perform op).map fun (answer, next) => (answer, next.withKernel k') := by
  cases op with
  | set name value =>
    exact ⟨k, by simp only [Simulation.perform, set_withKernel, Except.map_map]; rfl⟩
  | get name => exact ⟨k, by simp only [Simulation.perform, get_withKernel, Except.map_map]; rfl⟩
  | poke name value =>
    exact ⟨k, by simp only [Simulation.perform, poke_withKernel, Except.map_map]; rfl⟩
  | peek name => exact ⟨k, by simp only [Simulation.perform, peek_withKernel, Except.map_map]; rfl⟩
  | evaluate =>
    exact ⟨k, by simp only [Simulation.perform, h.evaluate_withKernel h' hs hw, Except.map_map]; rfl⟩
  | step =>
    obtain ⟨k', hstep⟩ := h.step_withKernel h' hs hw
    exact ⟨k', by simp only [Simulation.perform, hstep, Except.map_map]; rfl⟩
  | run cycles =>
    obtain ⟨k', hrun⟩ := h.run_withKernel h' hs hw cycles
    exact ⟨k', by simp only [Simulation.perform, hrun, Except.map_map]; rfl⟩
  | reset =>
    obtain ⟨k', hreset⟩ := h.reset_withKernel h' hs hn hw
    exact ⟨k', by simp only [Simulation.perform, hreset, Except.map_map]; rfl⟩
  | startRecording names =>
    exact ⟨k, by simp only [Simulation.perform, startRecording_withKernel, Except.map_map]; rfl⟩
  | startRecordingAll =>
    refine ⟨k, ?_⟩
    simp only [Simulation.perform, startRecordingAll, record_withKernel, Except.map_map]
    rfl
  | stopRecording => exact ⟨k, rfl⟩
  | exportVcd names => exact ⟨k, by simp only [Simulation.perform, Except.map_map]; rfl⟩

/-- A sequence of operations gives the same answers and stores with another engine. -/
theorem transcript_withKernel (h : sim.Ready n l) (h' : (sim.withKernel k).Ready n l)
    (hs : l.Sorted n level) (hn : n.Numbered) (hw : n.Wellformed) (ops : List SimOp) :
    (sim.withKernel k).transcript ops = sim.transcript ops := by
  induction ops generalizing sim k with
  | nil => rfl
  | cons op rest ih =>
    obtain ⟨k', hperform⟩ := h.perform_withKernel h' hs hn hw op
    rcases h.perform_ok hs hn hw op with ⟨answer, next, hop, hready⟩ | ⟨e, hop, -⟩
    · rw [hop] at hperform
      have hready' : (next.withKernel k').Ready n l := by
        rcases h'.perform_ok hs hn hw op with ⟨_, _, hop', hready'⟩ | ⟨_, hop', -⟩
        · cases hop'.symm.trans hperform
          exact hready'
        · cases hop'.symm.trans hperform
      have hafter : sim.after op = (.ok answer, next) := by rw [after, hop]
      have hafter' : (sim.withKernel k).after op = (.ok answer, next.withKernel k') := by
        rw [after, hperform]
        rfl
      simp only [transcript, hafter, hafter', ih hready hready']
      rfl
    · rw [hop] at hperform
      have hafter : sim.after op = (.error e, sim) := by rw [after, hop]
      have hafter' : (sim.withKernel k).after op = (.error e, sim.withKernel k) := by
        rw [after, hperform]
        rfl
      simp only [transcript, hafter, hafter', ih h h']
      rfl

end Ready

end Simulation

/-- A flip-flop that holds the opposite of what it held before. -/
def toggle : Checked Netlist :=
  ((((Netlist.empty "toggle").addSignal "clk" 0).addSignal "q" 0).addSignal "nq" 0).addNand 1 1 2
    |>.addDff 2 0 1 false

theorem toggle_numbered {n : Netlist} (h : toggle = .ok n) : n.Numbered :=
  (((((Netlist.Numbered.empty "toggle").addSignal "clk" 0).addSignal "q" 0).addSignal
    "nq" 0).addNand 1 1 2).addDff h

end NandHdl
