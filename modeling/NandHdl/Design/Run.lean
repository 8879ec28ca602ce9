-- SUMMARY: Running designs (`run`): apply inputs, settle, and take a row of values before the first cycle and after each one.
import NandHdl.Design.Build
import NandHdl.Simulation.Batches

/-!
# Running designs

A run applies its inputs to a simulation after a reset and lets the gates settle. It then takes a
row of values, and after every clock cycle and a further settling another one.
-/

namespace NandHdl

/-- What to run. -/
structure RunRequest where
  top : String
  cycles : Nat := 0
  /-- Values for inputs, applied in this order. -/
  inputs : List (String × UInt64) := []
  /-- The names whose values make a row; none stands for all outputs of the top module. -/
  watch : List String := []
  recordVcd : Bool := false
  deriving Inhabited

/-- The values of the watched names at one moment. -/
structure TraceRow where
  cycle : UInt32
  values : NameMap UInt64

/-- The results of a run. -/
structure RunOutput where
  top : String
  design : BuiltDesign
  /-- The first row was taken before the first cycle. -/
  trace : Array TraceRow
  /-- The waveform, if one was asked for. -/
  vcd : Option String

/-- The values of the last row. -/
def RunOutput.finalValues (o : RunOutput) : Option (NameMap UInt64) :=
  o.trace.back?.map TraceRow.values

/-- The names to watch. -/
def watchList (program : Program) (request : RunRequest) : List String :=
  if request.watch.isEmpty then
    ((program.find? request.top).map fun m => m.outputs.map Port.name).getD []
  else request.watch

namespace Simulation

/-- Applies inputs in their order. -/
def pokeAll (sim : Simulation) : List (String × UInt64) → Except SimError Simulation
  | [] => .ok sim
  | (name, value) :: rest => do (← sim.poke name value).pokeAll rest

/-- The values of the given names. -/
def peekAll (sim : Simulation) (values : NameMap UInt64) :
    List String → Except SimError (NameMap UInt64)
  | [] => .ok values
  | name :: rest => do sim.peekAll (values.insert name (← sim.peek name)) rest

/-- The row of the present moment. -/
def row (sim : Simulation) (watch : List String) : Except SimError TraceRow := do
  return { cycle := sim.cycle, values := ← sim.peekAll {} watch }

/-- Takes the given number of cycles and adds a row for each. -/
def trace (watch : List String) (rows : Array TraceRow) (sim : Simulation) :
    Nat → Except SimError (Array TraceRow × Simulation)
  | 0 => .ok (rows, sim)
  | cycles + 1 => do
    let sim ← (← sim.step).evaluate
    trace watch (rows.push (← sim.row watch)) sim cycles

end Simulation

/-- Runs a design that has been built. -/
def simulateDesign (program : Program) (design : BuiltDesign) (request : RunRequest)
    (config : SimConfig) : Except SimError RunOutput := do
  let sim ← Simulation.start design.levelized config
  let sim ← (← sim.pokeAll request.inputs).evaluate
  let sim ← if request.recordVcd then sim.startRecordingAll else pure sim
  let watch := watchList program request
  let (trace, sim) ← Simulation.trace watch #[← sim.row watch] sim request.cycles
  let vcd ← if request.recordVcd then some <$> sim.exportVcd none else pure none
  return { top := request.top, design, trace, vcd }

/-- Runs a design that has been built. -/
def simulate (program : Program) (design : BuiltDesign) (request : RunRequest)
    (config : RunConfig) : Except Failure RunOutput :=
  (simulateDesign program design request config.sim).mapError .simulation

/-- Builds and runs a module of a program. -/
def run (program : Program) (request : RunRequest) (config : RunConfig) :
    Except Failure RunOutput := do
  simulate program (← build program request.top config) request config

/-- Reads a program, then builds and runs it. -/
def runJson (text : String) (request : RunRequest) (config : RunConfig) :
    Except Failure RunOutput := do
  run (← loadProgram text) request config

/-- Reads a program, then builds and runs it with the default settings. -/
def quickRun (text : String) (request : RunRequest) : Except Failure RunOutput :=
  runJson text request {}

end NandHdl
