-- SUMMARY: The engine over gate objects (`ObjectKernel`): reads and writes one signal at a time, level by level.
import NandHdl.Netlist.Levels
import NandHdl.Store.Basic

/-!
# The engine over objects

A combinational pass visits the gates in the order of their levels. A clock edge reads the `d` of
every flip-flop before it writes any `q`.
-/

namespace NandHdl

/-- The signals of a gate. -/
structure GateWires where
  in1 : SignalId
  in2 : SignalId
  out : SignalId
  deriving Repr, DecidableEq, Inhabited

/-- The signals of a flip-flop. -/
structure FlopWires where
  d : SignalId
  q : SignalId
  deriving Repr, DecidableEq, Inhabited

/-- A netlist as gates by level and flip-flops. -/
structure ObjectKernel where
  levels : List (List GateWires)
  flops : List FlopWires
  deriving Repr, DecidableEq, Inhabited

namespace ObjectKernel

/-- The signals of the gates of one level. -/
def wiresOf (n : Netlist) (level : List GateId) : Checked (List GateWires) :=
  level.mapM fun g => do
    let gate ← Checked.get n.gates g
    return { in1 := gate.in1, in2 := gate.in2, out := gate.out }

/-- The engine of a netlist. -/
def ofLevelized (l : LevelizedNetlist) : Checked ObjectKernel := do
  return { levels := ← l.levels.toList.mapM fun level => wiresOf l.netlist level.toList
           flops := l.netlist.dffs.toList.map fun f => { d := f.d, q := f.q } }

/-- Computes one gate. -/
def evalGate (g : GateWires) : StoreM Unit := do
  let a ← Store.read g.in1
  let b ← Store.read g.in2
  Store.write g.out !(a && b)

/-- Computes gates in their order. -/
def evalGates : List GateWires → StoreM Unit
  | [] => return
  | g :: rest => do
    evalGate g
    evalGates rest

/-- Computes levels in their order. -/
def evalLevels : List (List GateWires) → StoreM Unit
  | [] => return
  | level :: rest => do
    evalGates level
    evalLevels rest

/-- One combinational pass. -/
def evaluate (k : ObjectKernel) : StoreM Unit := evalLevels k.levels

/-- Writes values to the outputs of flip-flops. -/
def writeFlops : List FlopWires → List Bool → StoreM Unit
  | f :: flops, value :: values => do
    Store.write f.q value
    writeFlops flops values
  | _, _ => return

/-- One clock edge. -/
def capture (k : ObjectKernel) : StoreM Unit := do
  writeFlops k.flops (← Store.readAll (k.flops.map FlopWires.d))

end ObjectKernel

end NandHdl
