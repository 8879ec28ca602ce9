-- SUMMARY: Simulation engines (`Kernel`): the choice between the two engines, and one clock cycle.
import NandHdl.Kernel.Object
import NandHdl.Kernel.Packed
import NandHdl.Config.Basic

/-!
# Engines

One clock cycle is a combinational pass, then a clock edge, then one more on the cycle count. All
gates have settled before any flip-flop captures.
-/

namespace NandHdl

/-- A simulation engine of a netlist. -/
inductive Kernel where
  | object (k : ObjectKernel)
  | packed (k : PackedKernel)
  deriving Repr, DecidableEq, Inhabited

namespace Kernel

/-- The engine of the given kind. -/
def ofLevelized (l : LevelizedNetlist) : KernelKind → Checked Kernel
  | .object => return .object (← ObjectKernel.ofLevelized l)
  | .batch => return .packed (← PackedKernel.ofLevelized l)

/-- The kind of an engine. -/
def kind : Kernel → KernelKind
  | .object _ => .object
  | .packed _ => .batch

/-- One combinational pass. -/
def evaluate : Kernel → StoreM Unit
  | .object k => k.evaluate
  | .packed k => Packed.evaluate k.gates

/-- One clock edge. Answers the engine for the next one. -/
def capture : Kernel → StoreM Kernel
  | .object k => do
    k.capture
    return .object k
  | .packed k => do return .packed { k with scratch := ← Packed.capture k.flops k.scratch }

/-- One clock cycle. -/
def cycle (k : Kernel) : StoreM Kernel := do
  k.evaluate
  let next ← k.capture
  Store.incrementCycle
  return next

end Kernel

end NandHdl
