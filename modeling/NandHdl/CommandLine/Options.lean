-- SUMMARY: The options of the command (`Options`) and how they are read from the arguments.
import NandHdl.CommandLine.Argument

/-!
# Options

An option with a value takes it from the same argument after `=`, or from the next argument. That
must not begin with `-`, unless it is `-` alone. Most options stand at most once. After `--` no
argument is an option. The only argument that is no option is the path of the project file.

What is wrong is noticed at the latest when the next option is met. `--version` and `--help` end
the reading at once, so they win over whatever comes after them, and lose against what is wrong
before them.
-/

namespace NandHdl

/-- The forms of log lines. -/
inductive LogFormat where
  | pretty | compact | json
  deriving Repr, DecidableEq, Inhabited

/-- The name of a form. -/
def LogFormat.name : LogFormat → String
  | .pretty => "pretty"
  | .compact => "compact"
  | .json => "json"

/-- The options of the command. -/
structure Options where
  project : String := "wire.json"
  entry : Option String := none
  top : Option String := none
  cycles : Option Nat := none
  inputs : List (String × UInt64) := []
  watch : List String := []
  vcd : Option String := none
  dumpNetlist : Option String := none
  stats : Bool := false
  optimize : Bool := false
  kernel : Option KernelKind := none
  json : Bool := false
  logLevel : Option String := none
  logPhases : List (Phase × LogLevel) := []
  logFormat : LogFormat := .compact
  logFile : Option String := none
  deriving Repr, DecidableEq, Inhabited

/-- The options with a value. -/
inductive ValueOption where
  | entry | top | cycles | set | watch | vcd | dumpNetlist | kernel | logLevel | logPhase
  | logFormat | logFile
  deriving Repr, DecidableEq, Inhabited

namespace ValueOption

/-- All options with a value. -/
def all : List ValueOption :=
  [.entry, .top, .cycles, .set, .watch, .vcd, .dumpNetlist, .kernel, .logLevel, .logPhase,
   .logFormat, .logFile]

/-- The name of an option, without the dashes. -/
def name : ValueOption → String
  | .entry => "entry"
  | .top => "top"
  | .cycles => "cycles"
  | .set => "set"
  | .watch => "watch"
  | .vcd => "vcd"
  | .dumpNetlist => "dump-netlist"
  | .kernel => "kernel"
  | .logLevel => "log-level"
  | .logPhase => "log-phase"
  | .logFormat => "log-format"
  | .logFile => "log-file"

/-- Whether an option may stand more than once. -/
def repeats : ValueOption → Bool
  | .set => true
  | .watch => true
  | .logPhase => true
  | _ => false

end ValueOption

/-- The options without a value. -/
inductive Switch where
  | stats | optimize | json
  deriving Repr, DecidableEq, Inhabited

namespace Switch

/-- All options without a value. -/
def all : List Switch := [.stats, .optimize, .json]

/-- The name of an option, without the dashes. -/
def name : Switch → String
  | .stats => "stats"
  | .optimize => "optimize"
  | .json => "json"

end Switch

namespace Options

/-- A path, which is not empty. -/
def path? (text : String) : Option String := if text.isEmpty then none else some text

/-- The options with one more value. None if the value is wrong. -/
def withValue? (o : Options) (option : ValueOption) (text : String) : Option Options :=
  match option with
  | .entry => do return { o with entry := some (← path? text) }
  | .top => some { o with top := some text }
  | .cycles => do return { o with cycles := some (← Text.word? 10 text.toList).toNat }
  | .set =>
    match parseAssignment text with
    | .ok assignment => some { o with inputs := o.inputs ++ [assignment] }
    | .error _ => none
  | .watch => some { o with watch := o.watch ++ [text] }
  | .vcd => do return { o with vcd := some (← path? text) }
  | .dumpNetlist => do return { o with dumpNetlist := some (← path? text) }
  | .kernel => do return { o with kernel := some (← KernelKind.all.find? (·.name == text)) }
  | .logLevel => some { o with logLevel := some text }
  | .logPhase =>
    match parsePhaseLevel text with
    | .ok phase => some { o with logPhases := o.logPhases ++ [phase] }
    | .error _ => none
  | .logFormat => do
    return { o with logFormat := ← [.pretty, .compact, .json].find? (·.name == text) }
  | .logFile => do return { o with logFile := some (← path? text) }

/-- The options with one more switch. -/
def withSwitch (o : Options) : Switch → Options
  | .stats => { o with stats := true }
  | .optimize => { o with optimize := true }
  | .json => { o with json := true }

end Options

/-! ## Reading arguments -/

/-- What the arguments ask for. -/
inductive Request where
  | execute (o : Options)
  | version
  | help
  /-- The arguments are wrong. -/
  | usage
  deriving Repr, DecidableEq, Inhabited

/-- What has been read of the arguments. -/
structure ArgumentState where
  options : Options := {}
  /-- The option whose value is to come. -/
  pending : Option ValueOption := none
  /-- The names of the options that stood already. -/
  seen : List String := []
  /-- Whether the path of the project file has been given. -/
  positional : Bool := false
  /-- Whether `--` has been met. -/
  onlyPositional : Bool := false

/-- What comes of one argument: a new state, or the end of the reading. -/
abbrev ArgumentStep := Except Request ArgumentState

namespace ArgumentState

/-- Goes on only if no value is missing. -/
def settled (s : ArgumentState) (next : ArgumentStep) : ArgumentStep :=
  if s.pending.isSome then .error .usage else next

/-- The path of the project file. -/
def positionalArgument (s : ArgumentState) (text : String) : ArgumentStep :=
  s.settled <|
    if s.positional || text.isEmpty then .error .usage
    else .ok { s with options := { s.options with project := text }, positional := true }

/-- The value of an option. -/
def value (s : ArgumentState) (option : ValueOption) (text : String) : ArgumentStep :=
  if s.seen.contains option.name && !option.repeats then .error .usage
  else match s.options.withValue? option text with
    | some options =>
      .ok { s with options, pending := none, seen := option.name :: s.seen }
    | none => .error .usage

/-- An option without a value. -/
def switch (s : ArgumentState) (option : Switch) : ArgumentStep :=
  if s.seen.contains option.name then .error .usage
  else .ok { s with options := s.options.withSwitch option, seen := option.name :: s.seen }

/-- An option given by its long name, with the value in the same argument if there is one. -/
def longOption (s : ArgumentState) (name : String) (attached : Option String) : ArgumentStep :=
  match ValueOption.all.find? (·.name == name), Switch.all.find? (·.name == name), attached with
  | some option, _, some text => s.settled (s.value option text)
  | some option, _, none => s.settled (.ok { s with pending := some option })
  | none, some option, none => s.settled (s.switch option)
  | none, none, none =>
    if name == "version" then s.settled (.error .version)
    else if name == "help" then s.settled (.error .help)
    else .error .usage
  | none, _, some _ => .error .usage

/-- Options given by letters. The first letter decides. -/
def shortOptions (s : ArgumentState) : List Char → ArgumentStep
  | 'V' :: _ => s.settled (.error .version)
  | 'h' :: _ => s.settled (.error .help)
  | _ => .error .usage

/-- One argument. -/
def argument (s : ArgumentState) (text : String) : ArgumentStep :=
  if s.onlyPositional then s.positionalArgument text
  else match text.toList with
    | ['-', '-'] => .ok { s with onlyPositional := true }
    | '-' :: '-' :: name =>
      match Text.cutChars? '=' name with
      | some (name, value) => s.longOption (String.ofList name) (some (String.ofList value))
      | none => s.longOption (String.ofList name) none
    | '-' :: c :: letters => s.shortOptions (c :: letters)
    | _ =>
      match s.pending with
      | some option => s.value option text
      | none => s.positionalArgument text

/-- All arguments that are left. -/
def finish (s : ArgumentState) : List String → Request
  | [] => if s.pending.isSome then .usage else .execute s.options
  | text :: rest =>
    match s.argument text with
    | .ok s => s.finish rest
    | .error request => request

end ArgumentState

/-- What the arguments of the command ask for. -/
def Request.ofArguments (args : List String) : Request := ({} : ArgumentState).finish args

end NandHdl
