-- SUMMARY: The command (`Command.run`): read the project and the program, build, simulate and print, on any `System`.
import NandHdl.CommandLine.Log
import NandHdl.Design.Codec
import NandHdl.Design.Table
import NandHdl.Files.System

/-!
# The command

The command works over the operations of a `System` and answers its exit code: 0 if all went well,
1 after an error and 2 if the arguments were wrong. What was printed before an error stays printed,
and files that were written stay written.
-/

namespace NandHdl.Command

/-- The line that tells the version. -/
def versionText : String := "wire 0.1.0\n"

/-- The summary of the arguments. -/
def usageText : String :=
  "usage: wire [CONFIG] [--entry F] [--top M] [--cycles N] [--set NAME=VALUE]... " ++
    "[--watch SIGNAL]...\n            [--vcd F] [--dump-netlist F] [--stats] [--optimize] " ++
    "[--kernel object|batch] [--json]\n            [--log-level L] [--log-phase PHASE=LEVEL]... " ++
    "[--log-format pretty|compact|json] [--log-file F]\n"

/-- The actions of the command. An error carries the text for standard error. -/
abbrev Action (m : Type → Type) := ExceptT String m

variable {m : Type → Type} [Monad m]

/-- Ends with an error before anything is built. -/
def refuse {α : Type} (text : String) : Action m α := throw ("Error: " ++ text ++ "\n")

/-! ## Failures -/

/-- The line for the details of a report. A cycle ends where it began. -/
def detailsLine : ReportDetails → String
  | .cycle signals =>
    "   cycle: " ++ " -> ".intercalate signals ++
      (match signals.head? with
        | some first => " -> " ++ first
        | none => "") ++ "\n"
  | .arity expected found =>
    "   expected " ++ toString expected ++ " argument(s), found " ++ toString found ++ "\n"

/-- The text for a failure. -/
def failureText (json : Bool) (f : Failure) : String :=
  let report := f.report
  if json then report.toJson.compress ++ "\n"
  else "❌ " ++ report.display ++ "\n" ++ ((report.details.map detailsLine).getD "")

/-- Takes over a result, or ends with the text for its failure. -/
def orFail {α : Type} (json : Bool) : Except Failure α → Action m α
  | .ok a => pure a
  | .error f => throw (failureText json f)

/-! ## Steps -/

/-- Reads the project file. -/
def readProject (system : System m) (path : String) : Action m ProjectFile := do
  if !(← system.exists? path) then
    refuse ("未找到 '" ++ path ++ "'\n\n当前目录不是一个 Wire 项目。\n提示: 创建 '" ++ path ++
      "' 文件并指定 'entry' 字段，或使用 --entry")
  match ← system.readText path with
  | .error e => refuse ("无法读取 '" ++ path ++ "': " ++ e.message)
  | .ok text =>
    match Json.load ProjectFile.ofJson? text with
    | .error e => refuse ("解析 '" ++ path ++ "' 失败: " ++ e.message)
    | .ok project => return project

/-- The project: none is needed if the program is given and the project file is not there. -/
def findProject (system : System m) (o : Options) : Action m ProjectFile := do
  if o.entry.isSome then
    if !(← system.exists? o.project) then return {}
  readProject system o.project

/-- Makes sure that the log can be written. -/
def openLog (system : System m) (o : Options) : Action m Unit := do
  if let some path := o.logFile then
    if let .error e ← system.appendText path "" then
      refuse ("cannot initialize logging: " ++ e.message)

/-- Puts events into the log, if there is one. A log that takes no more is no error. -/
def note (system : System m) (o : Options) (s : Settings) (events : List LogEvent) :
    Action m Unit := do
  if let some path := o.logFile then
    discard (system.appendText path (LogEvent.shownLines s.log events))

/-- Reads the program. -/
def readProgram (system : System m) (json : Bool) (path : String) : Action m Program := do
  match ← system.readText path with
  | .error e => orFail json (.error (.io ("cannot read '" ++ path ++ "': " ++ e.message)))
  | .ok text => orFail json (loadProgram text)

/-- Writes a text to a file, or prints it as a line. -/
def writeOutput (system : System m) (json : Bool) (path text : String) : Action m Unit := do
  if Path.isStdout path then system.print (text ++ "\n")
  else if let .error e ← system.writeText path text then
    orFail json (.error (.io ("cannot write '" ++ path ++ "': " ++ e.message)))

/-- Prints the results of a run. -/
def report (system : System m) (o : Options) (output : RunOutput) : Action m Unit := do
  if o.json then system.print (output.toJson.pretty ++ "\n")
  else
    if o.stats then
      system.print (statsText output.design.stats output.design.depth output.design.optimization)
    system.print (Trace.table output.trace.toList)

/-- The top module: as set, otherwise the last of the program. -/
def topModule (program : Program) (top : Option String) : String :=
  top.getD ((program.modules.getLast?.map ModuleDecl.name).getD "")

/-- Builds and runs what the settings say. -/
def perform (system : System m) (o : Options) (s : Settings) : Action m Unit := do
  let program ← readProgram system o.json s.entry
  let request := { s.request with top := topModule program s.top }
  let built := build program request.top s.config
  note system o s (.loaded request.top :: LogEvent.ofBuild program request.top s.config built)
  let design ← orFail o.json built
  if let some path := o.dumpNetlist then
    writeOutput system o.json path design.levelized.netlist.toJson.pretty
  note system o s [.simulatorReady]
  let output ← orFail o.json (simulate program design request s.config)
  if let (some path, some text) := (s.vcd, output.vcd) then
    writeOutput system o.json path text
  report system o output

/-- All steps of the command. -/
def execute (system : System m) (o : Options) : Action m Unit := do
  let project ← findProject system o
  match Settings.ofProject o project with
  | .error e => refuse e.message
  | .ok settings =>
    openLog system o
    perform system o settings

/-- The command on its arguments. Answers the exit code. -/
def run (system : System m) (args : List String) : m Nat := do
  match Request.ofArguments args with
  | .version =>
    system.print versionText
    return 0
  | .help =>
    system.print usageText
    return 0
  | .usage =>
    system.printError usageText
    return 2
  | .execute o =>
    match ← (execute system o).run with
    | .ok () => return 0
    | .error text =>
      system.printError text
      return 1

end NandHdl.Command
