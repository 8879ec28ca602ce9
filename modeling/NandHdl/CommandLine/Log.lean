-- SUMMARY: The log of the command (`LogEvent`): what is worth a line, and which lines a log shows.
import NandHdl.CommandLine.Project

/-!
# Log

An event belongs to a phase, or to the tool as a whole. The log shows it if the level for the
phase, or for everything else, is at least as talkative as the event.
-/

namespace NandHdl

/-- How talkative a level is. -/
def LogLevel.rank : LogLevel → Nat
  | .error => 0
  | .warn => 1
  | .info => 2
  | .debug => 3
  | .trace => 4

/-- Something that the log may tell. -/
structure LogEvent where
  /-- The phase it belongs to; none for the tool as a whole. -/
  phase : Option Phase
  level : LogLevel
  text : String
  deriving Repr, DecidableEq, Inhabited

namespace LogEvent

/-- The line for an event. -/
def line (e : LogEvent) : String :=
  e.level.tag ++ " " ++ ((e.phase.map fun p => p.target ++ ": ").getD "") ++ e.text ++ "\n"

/-- Whether a log shows an event. -/
def isShown (c : LogConfig) (e : LogEvent) : Bool :=
  e.level.rank ≤ ((e.phase.map c.levelFor).getD c.level).rank

/-- The lines that a log shows of some events. -/
def shownLines (c : LogConfig) (events : List LogEvent) : String :=
  String.join ((events.filter (isShown c)).map line)

/-- The event of a program that was read. -/
def loaded (top : String) : LogEvent := { phase := none, level := .info, text := "loaded " ++ top }

/-- The end of a phase. -/
def completed (p : Phase) : LogEvent := { phase := some p, level := .info, text := "completed" }

/-- The events of a build with the given result. Elaboration begins only if there is a top module;
of an elaboration that fails the log has the start. -/
def ofBuild (program : Program) (top : String) (config : RunConfig) :
    Except Failure BuiltDesign → List LogEvent
  | .error (.levels _) =>
    [completed .elaborator,
      { phase := some .levelizer, level := .debug, text := "combinational cycle" }]
  | .error _ =>
    if (program.find? top).isSome then
      [{ phase := some .elaborator, level := .info, text := "started" }]
    else []
  | .ok _ =>
    [completed .elaborator, completed .levelizer] ++
      if config.optimizer.enabled then [completed .optimizer] else []

/-- The event of a simulation that is about to start. -/
def simulatorReady : LogEvent := { phase := some .simulator, level := .debug, text := "ready" }

end LogEvent

end NandHdl
