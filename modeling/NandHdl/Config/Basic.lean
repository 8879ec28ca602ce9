-- SUMMARY: Settings: inlining depth, simulation engine, optimizer, and the levels and phases of the log.

/-!
# Settings

Each structure holds the settings of one part with their defaults.
-/

namespace NandHdl

/-- Settings of elaboration. -/
structure ElabConfig where
  /-- How deep modules may be nested below the top. -/
  maxInlineDepth : Nat := 64
  deriving Repr, DecidableEq, Inhabited

/-- The two simulation engines. -/
inductive KernelKind where
  | object
  | batch
  deriving Repr, DecidableEq, Inhabited

/-- The name of an engine. -/
def KernelKind.name : KernelKind → String
  | .object => "object"
  | .batch => "batch"

/-- All engines. -/
def KernelKind.all : List KernelKind := [.object, .batch]

/-- Settings of a simulation. -/
structure SimConfig where
  /-- Cycles per batch of a run in batches. -/
  batchSize : Nat := 1000
  kernel : KernelKind := .object
  /-- The time unit that a waveform declares. -/
  timescale : String := "1ns"
  /-- Whether a waveform shows the signals that only elaboration made. -/
  includeInternal : Bool := false
  deriving Repr, DecidableEq, Inhabited

/-- Settings of the optimizer. -/
structure OptimizerConfig where
  enabled : Bool := false
  /-- An optimized netlist is used if it saves at least this share of the gates. -/
  minSavingsPercent : Float := 5.0
  maxPasses : Nat := 8
  deriving Inhabited

/-- Settings of a build and a simulation. -/
structure RunConfig where
  elaboration : ElabConfig := {}
  sim : SimConfig := {}
  optimizer : OptimizerConfig := {}
  deriving Inhabited

/-- The settings with the optimizer switched on or off. -/
def RunConfig.withOptimizer (c : RunConfig) (enabled : Bool) : RunConfig :=
  { c with optimizer := { c.optimizer with enabled } }

/-! ## Log -/

/-- How much the log tells. -/
inductive LogLevel where
  | error | warn | info | debug | trace
  deriving Repr, DecidableEq, Inhabited

namespace LogLevel

/-- The name of a level, in small letters. -/
def name : LogLevel → String
  | .error => "error"
  | .warn => "warn"
  | .info => "info"
  | .debug => "debug"
  | .trace => "trace"

/-- The name of a level, in capital letters. -/
def tag (l : LogLevel) : String := l.name.toUpper

/-- The level of a name. Letter case does not matter, and `silent` means `error`. Only letters of
ASCII have a lower-case form in any of the names. -/
def parse? (text : String) : Option LogLevel :=
  match text.toLower with
  | "silent" => some .error
  | lower => [error, warn, info, debug, trace].find? (·.name == lower)

end LogLevel

/-- A part of the tool whose log has a level of its own. -/
inductive Phase where
  | elaborator | levelizer | optimizer | kernel | simulator
  deriving Repr, DecidableEq, Inhabited

namespace Phase

/-- All phases, in the order of their work. -/
def all : List Phase := [.elaborator, .levelizer, .optimizer, .kernel, .simulator]

/-- The name of a phase. -/
def name : Phase → String
  | .elaborator => "elaborator"
  | .levelizer => "levelizer"
  | .optimizer => "optimizer"
  | .kernel => "kernel"
  | .simulator => "simulator"

/-- The name under which a phase writes to the log. -/
def target (p : Phase) : String := "wire::" ++ p.name

end Phase

/-- The level of the whole log and of single phases. The last entry for a phase counts. -/
structure LogConfig where
  level : LogLevel := .warn
  phases : List (Phase × LogLevel) := []
  deriving Repr, DecidableEq, Inhabited

/-- The level of a phase. -/
def LogConfig.levelFor (c : LogConfig) (p : Phase) : LogLevel :=
  ((c.phases.reverse.find? (·.1 == p)).map (·.2)).getD c.level

end NandHdl
