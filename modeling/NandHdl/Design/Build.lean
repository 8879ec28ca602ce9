-- SUMMARY: Building designs (`build`): elaborate, order by levels and, if asked for, shrink.
import NandHdl.Elaboration.Body
import NandHdl.Netlist.Optimizer
import NandHdl.Program.Codec
import NandHdl.Failure

/-!
# Building designs

A design is built in up to four steps. The netlist is ordered before it is shrunk, so a
combinational cycle is found even if the optimizer would have removed it. A netlist that was
shrunk is ordered again.
-/

namespace NandHdl

/-- What the optimizer did, without the netlist. -/
structure OptimizeSummary where
  gatesBefore : Nat
  gatesAfter : Nat
  passes : Nat
  applied : Bool
  savings : Float
  deriving Inhabited

/-- The summary of a report. -/
def OptimizeReport.summary (r : OptimizeReport) : OptimizeSummary where
  gatesBefore := r.gatesBefore
  gatesAfter := r.gatesAfter
  passes := r.passes
  applied := r.applied
  savings := r.savings

/-- A design that can be simulated. -/
structure BuiltDesign where
  levelized : LevelizedNetlist
  /-- What the optimizer did, if it ran. -/
  optimization : Option OptimizeSummary

/-- The sizes of a design. -/
def BuiltDesign.stats (d : BuiltDesign) : NetlistStats := d.levelized.netlist.stats

/-- The number of levels of a design. -/
def BuiltDesign.depth (d : BuiltDesign) : Nat := d.levelized.depth

/-- Reads a program from its JSON text. -/
def loadProgram (text : String) : Except Failure Program :=
  (Json.load Program.ofJson? text).mapError fun e => .json e.message

/-- Orders a netlist by levels. -/
def orderLevels (n : Netlist) : Except Failure LevelizedNetlist :=
  (levelize n).mapError .levels

/-- Shrinks a design. -/
def shrink (l : LevelizedNetlist) (config : OptimizerConfig) : Except Failure BuiltDesign := do
  let report ← (optimize l.netlist config).mapError .fault
  let levelized ← if report.applied then orderLevels report.netlist else pure l
  return { levelized, optimization := some report.summary }

/-- Builds the module `top` of a program. -/
def build (program : Program) (top : String) (config : RunConfig) :
    Except Failure BuiltDesign := do
  let netlist ← (elaborate program top config.elaboration).mapError .elaboration
  let levelized ← orderLevels netlist
  if config.optimizer.enabled then shrink levelized config.optimizer
  else return { levelized, optimization := none }

end NandHdl
