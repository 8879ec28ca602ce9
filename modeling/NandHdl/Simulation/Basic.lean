-- SUMMARY: Simulations (`Simulation`): access to signals by name, clocking, recording and reset.
import NandHdl.Kernel.Basic
import NandHdl.Waveform.Vcd

/-!
# Simulations

A simulation holds a netlist with levels, its store and its engine. Signals are reached by name. A
name stands for a bus if the netlist knows `name[0]`; otherwise it stands for one signal.

A recording takes a sample when it starts and one after every clock cycle. Resetting a simulation
leaves the samples and an active recording as they are.
-/

namespace NandHdl

/-- Why a simulation refuses a request. -/
inductive SimError where
  /-- No signal has the name. -/
  | unknownSignal (name : String)
  /-- The samples do not hold the signal. -/
  | notRecorded (name : String)
  /-- A bus does not fit in a word. -/
  | widthOverflow (name : String) (width : Nat)
  /-- A value does not fit in a bus. -/
  | valueOutOfRange (name : String) (width : Nat) (value : UInt64)
  /-- A table of the simulation does not fit. -/
  | fault (f : Fault)
  deriving Repr, DecidableEq, Inhabited

/-- The sentence for a refusal. -/
def SimError.message : SimError → String
  | .unknownSignal name => "unknown signal '" ++ name ++ "'"
  | .notRecorded name => "signal '" ++ name ++ "' is not being recorded"
  | .widthOverflow name width =>
    "'" ++ name ++ "' is " ++ toString width ++ " bits wide, at most 64 fit in a u64"
  | .valueOutOfRange name width value =>
    "value " ++ toString value.toNat ++ " does not fit in the " ++ toString width ++
      "-bit signal '" ++ name ++ "'"
  | .fault f => f.message

/-- A simulation. -/
structure Simulation where
  levelized : LevelizedNetlist
  config : SimConfig
  store : Store
  kernel : Kernel
  /-- The signals that are being recorded, if a recording is active. -/
  watched : Option (List (String × SignalId)) := none
  samples : Array WaveSample := #[]
  /-- Whether somebody asked a run in batches to stop. -/
  stopRequested : Bool := false

/-- The bits of a bus in a netlist from position `start` on, at most the given number. -/
def Netlist.busFrom (n : Netlist) (name : String) : Nat → Nat → Bits
  | 0, _ => []
  | left + 1, start =>
    match n.signalId? (bitName name start) with
    | some id => id :: n.busFrom name left (start + 1)
    | none => []

/-- The bits of a bus in a netlist; none if the name stands for no bus. Each bit has a name of its
own, so there are no more bits than names. -/
def Netlist.bus (n : Netlist) (name : String) : Bits := n.busFrom name n.names.size 0

namespace Simulation

/-- Takes over a checked result. -/
def ofChecked {α : Type} (r : Checked α) : Except SimError α :=
  r.mapError .fault

/-- A simulation of a netlist after a reset. -/
def start (l : LevelizedNetlist) (config : SimConfig) : Except SimError Simulation := do
  let store ← ofChecked (Store.forNetlist l.netlist)
  let kernel ← ofChecked (Kernel.ofLevelized l config.kernel)
  return { levelized := l, config, store, kernel }

/-- Runs an action on the store. -/
def act {α : Type} (sim : Simulation) (action : StoreM α) : Except SimError (α × Simulation) :=
  match action.run sim.store with
  | .ok a store => .ok (a, { sim with store })
  | .error f _ => .error (.fault f)

/-! ## Names -/

/-- The signal of a name. -/
def resolve (sim : Simulation) (name : String) : Except SimError SignalId :=
  match sim.levelized.netlist.signalId? name with
  | some id => .ok id
  | none => .error (.unknownSignal name)

/-- The bits of a name: of the bus if there is one, otherwise the signal alone. -/
def resolveBus (sim : Simulation) (name : String) : Except SimError Bits :=
  match sim.levelized.netlist.bus name with
  | [] => (sim.resolve name).map fun id => [id]
  | bits => .ok bits

/-- The bits of a name that fits in a word. -/
def wordBus (sim : Simulation) (name : String) : Except SimError Bits := do
  let bits ← sim.resolveBus name
  if bits.length > 64 then throw (.widthOverflow name bits.length)
  return bits

/-! ## Values -/

/-- Gives one signal a value. -/
def set (sim : Simulation) (name : String) (value : Bool) : Except SimError Simulation := do
  let id ← sim.resolve name
  return (← sim.act (Store.write id value)).2

/-- The value of one signal. -/
def get (sim : Simulation) (name : String) : Except SimError Bool := do
  let id ← sim.resolve name
  return (← sim.act (Store.read id)).1

/-- Gives a bus a value. -/
def poke (sim : Simulation) (name : String) (value : UInt64) : Except SimError Simulation := do
  let bits ← sim.wordBus name
  if value.toNat ≥ 1 <<< bits.length then throw (.valueOutOfRange name bits.length value)
  return (← sim.act (Store.writeBits bits value)).2

/-- The value of a bus. -/
def peek (sim : Simulation) (name : String) : Except SimError UInt64 := do
  let bits ← sim.wordBus name
  return (← sim.act (Store.readBits bits)).1

/-! ## Recording -/

/-- The values of the named signals. -/
def sampleValues (sim : Simulation) (values : NameMap Bool) :
    List (String × SignalId) → Except SimError (NameMap Bool)
  | [] => .ok values
  | (name, id) :: rest => do
    let (value, _) ← sim.act (Store.read id)
    sim.sampleValues (values.insert name value) rest

/-- Takes a sample if a recording is active. -/
def snapshot (sim : Simulation) : Except SimError Simulation :=
  match sim.watched with
  | none => .ok sim
  | some watched => do
    let values ← sim.sampleValues {} watched
    return { sim with samples := sim.samples.push { cycle := sim.store.cycle, values } }

/-- Starts a recording. Earlier samples are dropped, and the values of now are the first. -/
def record (sim : Simulation) (watched : List (String × SignalId)) : Except SimError Simulation :=
  ({ sim with samples := #[], watched := some watched }).snapshot

/-- Starts a recording of the named signals. -/
def startRecording (sim : Simulation) (names : List String) : Except SimError Simulation := do
  sim.record (← names.mapM fun name => do return (name, ← sim.resolve name))

/-- Starts a recording of everything that has a name. -/
def startRecordingAll (sim : Simulation) : Except SimError Simulation :=
  sim.record sim.levelized.netlist.names.toList

/-- Ends a recording. The samples stay. -/
def stopRecording (sim : Simulation) : Simulation := { sim with watched := none }

/-- The names of the signals that the samples hold. -/
def recorded (sim : Simulation) : List String :=
  (sim.samples[0]?.map fun s => s.values.keys).getD []

/-- The signals of a waveform: the given ones, or all that were recorded. Internal signals come
along only if the settings say so. -/
def exported (sim : Simulation) : Option (List String) → Except SimError (List String)
  | some names =>
    match names.find? fun name => !sim.recorded.contains name with
    | some missing => .error (.notRecorded missing)
    | none => .ok names
  | none => .ok (sim.recorded.filter fun name => sim.config.includeInternal || !isInternal name)

/-- The recording as a value change dump. -/
def exportVcd (sim : Simulation) (names : Option (List String)) : Except SimError String := do
  let names ← sim.exported names
  return Vcd.render sim.levelized.netlist.top sim.config.timescale names sim.samples.toList

/-! ## Clocking -/

/-- One combinational pass. -/
def evaluate (sim : Simulation) : Except SimError Simulation := do
  return (← sim.act sim.kernel.evaluate).2

/-- One clock cycle. -/
def step (sim : Simulation) : Except SimError Simulation := do
  let (kernel, sim) ← sim.act sim.kernel.cycle
  ({ sim with kernel }).snapshot

/-- The given number of clock cycles. -/
def run (sim : Simulation) : Nat → Except SimError Simulation
  | 0 => .ok sim
  | cycles + 1 => do (← sim.step).run cycles

/-- Puts everything back to the state after a reset, except recording and samples. -/
def reset (sim : Simulation) : Except SimError Simulation := do
  let store ← ofChecked (Store.forNetlist sim.levelized.netlist)
  let kernel ← ofChecked (Kernel.ofLevelized sim.levelized sim.config.kernel)
  return { sim with store, kernel }

/-- The current cycle. -/
def cycle (sim : Simulation) : UInt32 := sim.store.cycle

end Simulation

end NandHdl
