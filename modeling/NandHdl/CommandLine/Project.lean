-- SUMMARY: Project files (`ProjectFile`) and the settings of a run made of a project file and options (`Settings`).
import NandHdl.CommandLine.Options
import NandHdl.Config.Codec
import NandHdl.Files.Path
import NandHdl.Design.Run

/-!
# Projects

A project file names the program and says how to run it. Options of the command line win over it.
An input that is assigned by both gets the value of the command line.
-/

namespace NandHdl

/-- The contents of a project file. -/
structure ProjectFile where
  /-- The path of the program, as seen from the directory of the project file. -/
  entry : String := ""
  top : Option String := none
  cycles : Option Nat := none
  inputs : NameMap UInt64 := {}
  watch : List String := []
  vcd : Option String := none
  simulation : SimConfig := {}
  optimizer : OptimizerConfig := {}
  logLevel : Option String := none

namespace ProjectFile

/-- Reads a project file. -/
def ofJson? (j : Json) : Option ProjectFile := do
  let (inside, values) ←
    Json.record?
      ["entry", "top", "cycles", "inputs", "watch", "vcd", "simulation", "optimizer", "log_level"]
      Json.maxOpen j
  match values with
  | [entry, top, cycles, inputs, watch, vcd, simulation, optimizer, logLevel] =>
    let inputs ← Json.optional [] (Json.entries? (fun _ => Json.word?) inside) inputs
    return { entry := ← Json.optional "" Json.text? entry
             top := ← Json.optional none (Json.nullable? Json.text?) top
             cycles := ← Json.optional none (Json.nullable? Json.count?) cycles
             inputs := inputs.foldl (fun m (name, value) => m.insert name value) {}
             watch := ← Json.optional [] (Json.list? (fun _ => Json.text?) inside) watch
             vcd := ← Json.optional none (Json.nullable? Json.text?) vcd
             simulation := ← Json.optional {} (SimConfig.ofJson? inside) simulation
             optimizer := ← Json.optional {} (OptimizerConfig.ofJson? inside) optimizer
             logLevel := ← Json.optional none (Json.nullable? Json.text?) logLevel }
  | _ => none

end ProjectFile

/-- The path of a program that a project file names. -/
def resolveEntry (project entry : String) : String :=
  Path.join ((Path.parent? project).getD ".") entry

/-- Why there is nothing to run. -/
inductive SettingsError where
  /-- The project file names no program. -/
  | noEntry (project : String)
  | unknownLevel (text : String)
  deriving Repr, DecidableEq, Inhabited

/-- The sentence for missing or wrong settings. -/
def SettingsError.message : SettingsError → String
  | .noEntry project => "'" ++ project ++ "' 中的 'entry' 字段不能为空"
  | .unknownLevel text => "unknown log level '" ++ text ++ "'"

/-- What to run, and how. -/
structure Settings where
  entry : String
  top : Option String
  request : RunRequest
  vcd : Option String
  config : RunConfig
  log : LogConfig

namespace Settings

/-- The path of the program. -/
def entryPath (o : Options) (p : ProjectFile) : Except SettingsError String :=
  match o.entry with
  | some path => .ok path
  | none =>
    if p.entry.isEmpty then .error (.noEntry o.project) else .ok (resolveEntry o.project p.entry)

/-- The settings of the parts of the tool. -/
def runConfig (o : Options) (p : ProjectFile) : RunConfig where
  sim := { p.simulation with kernel := o.kernel.getD p.simulation.kernel }
  optimizer := { p.optimizer with enabled := p.optimizer.enabled || o.optimize }

/-- The level of the log. -/
def logLevel (o : Options) (p : ProjectFile) : Except SettingsError LogLevel :=
  match o.logLevel.or p.logLevel with
  | none => .ok ({} : LogConfig).level
  | some text =>
    match LogLevel.parse? text with
    | some level => .ok level
    | none => .error (.unknownLevel text)

/-- The inputs in the order of their names. Of several assignments to a name the last counts, and
those of the command line come after those of the project file. -/
def inputs (o : Options) (p : ProjectFile) : List (String × UInt64) :=
  (o.inputs.foldl (fun m (name, value) => m.insert name value) p.inputs).toList

/-- The settings from the options and the project file. -/
def ofProject (o : Options) (p : ProjectFile) : Except SettingsError Settings := do
  let entry ← entryPath o p
  let level ← logLevel o p
  let vcd := o.vcd.or p.vcd
  return { entry
           top := o.top.or p.top
           request :=
             { top := ""
               cycles := (o.cycles.or p.cycles).getD 0
               inputs := inputs o p
               watch := if o.watch.isEmpty then p.watch else o.watch
               recordVcd := vcd.isSome }
           vcd
           config := runConfig o p
           log := { level, phases := o.logPhases } }

end Settings

end NandHdl
