-- SUMMARY: Flat netlists (`Netlist`): signals, NAND gates, flip-flops, names, ports and the instances they come from.
import NandHdl.Names
import NandHdl.Fault

/-!
# Netlists

A netlist is a circuit without hierarchy. A signal is one bit of state. A gate computes
`out = not (in1 and in2)`, and a flip-flop takes the value of `d` into `q` at each clock edge.

Signals, gates, flip-flops and instances are numbered by their positions and are never renumbered.
A name belongs to the first signal that takes it.
-/

namespace NandHdl

/-- The name of the signal that is always 0. -/
def zeroName : String := "const_0"

/-- The name of the signal that is always 1. -/
def oneName : String := "const_1"

/-- One bit of state. -/
structure Signal where
  id : SignalId
  name : String
  isPrimaryInput : Bool := false
  isPrimaryOutput : Bool := false
  isDffOutput : Bool := false
  /-- The instance that made this signal. -/
  owner : InstanceId
  deriving Repr, DecidableEq, Inhabited

/-- A two-input gate: `out = not (in1 and in2)`. -/
structure NandGate where
  id : GateId
  in1 : SignalId
  in2 : SignalId
  out : SignalId
  /-- The length of the longest chain of gates that ends here, once it is known. -/
  level : Option Nat := none
  deriving Repr, DecidableEq, Inhabited

/-- A flip-flop. -/
structure Dff where
  id : Nat
  d : SignalId
  clk : SignalId
  q : SignalId
  initialValue : Bool
  deriving Repr, DecidableEq, Inhabited

/-- A module instance. -/
structure Instance where
  id : InstanceId
  moduleName : String
  /-- The instance whose body holds this one; none for the top. -/
  parent : Option InstanceId
  /-- What the names of its signals start with. -/
  namePrefix : String
  deriving Repr, DecidableEq, Inhabited

/-- A flat circuit. -/
structure Netlist where
  top : String
  signals : Array Signal := #[]
  gates : Array NandGate := #[]
  dffs : Array Dff := #[]
  names : NameMap SignalId := {}
  primaryInputs : Array SignalId := #[]
  primaryOutputs : Array SignalId := #[]
  clock : Option SignalId := none
  instances : Array Instance

/-- How many of each a netlist has. -/
structure NetlistStats where
  signals : Nat
  gates : Nat
  dffs : Nat
  primaryInputs : Nat
  primaryOutputs : Nat
  instances : Nat
  deriving Repr, DecidableEq, Inhabited

namespace Netlist

/-- The empty netlist of a top module. -/
def empty (top : String) : Netlist :=
  { top, instances := #[{ id := 0, moduleName := top, parent := none, namePrefix := "" }] }

/-- The signal of a name. -/
def signalId? (n : Netlist) (name : String) : Option SignalId := n.names[name]?

/-- Adds a name for a signal. A name that is taken keeps its signal. -/
def addAlias (n : Netlist) (name : String) (id : SignalId) : Netlist :=
  { n with names := n.names.insertIfNew name id }

/-- Adds a signal. Its number is the number of signals before it. -/
def addSignal (n : Netlist) (name : String) (owner : InstanceId) : Netlist :=
  let id := n.signals.size
  { n with signals := n.signals.push { id, name, owner }, names := n.names.insertIfNew name id }

/-- Adds a gate. -/
def addNand (n : Netlist) (in1 in2 out : SignalId) : Netlist :=
  { n with gates := n.gates.push { id := n.gates.size, in1, in2, out } }

/-- Adds a flip-flop. Its output has to be a signal. -/
def addDff (n : Netlist) (d clk q : SignalId) (initialValue : Bool) : Checked Netlist := do
  let signals ← Checked.modify n.signals q fun s => { s with isDffOutput := true }
  return { n with signals, dffs := n.dffs.push { id := n.dffs.size, d, clk, q, initialValue } }

/-- Adds an instance. -/
def addInstance (n : Netlist) (moduleName : String) (parent : InstanceId) (namePrefix : String) :
    Netlist :=
  let id := n.instances.size
  { n with instances := n.instances.push { id, moduleName, parent := some parent, namePrefix } }

/-- Marks a signal as an input of the whole circuit. -/
def addPrimaryInput (n : Netlist) (id : SignalId) : Checked Netlist := do
  let signals ← Checked.modify n.signals id fun s => { s with isPrimaryInput := true }
  return { n with signals, primaryInputs := n.primaryInputs.push id }

/-- Marks a signal as an output of the whole circuit. -/
def addPrimaryOutput (n : Netlist) (id : SignalId) : Checked Netlist := do
  let signals ← Checked.modify n.signals id fun s => { s with isPrimaryOutput := true }
  return { n with signals, primaryOutputs := n.primaryOutputs.push id }

/-- The modules from the top down to an instance, in at most the given number of steps. -/
def pathWithin (n : Netlist) : Nat → InstanceId → List String
  | 0, _ => []
  | steps + 1, i =>
    match n.instances[i]? with
    | none => []
    | some inst => (inst.parent.map (n.pathWithin steps)).getD [] ++ [inst.moduleName]

/-- The modules from the top down to an instance. -/
def instancePath (n : Netlist) (i : InstanceId) : List String :=
  n.pathWithin n.instances.size i

/-- The sizes of a netlist. -/
def stats (n : Netlist) : NetlistStats where
  signals := n.signals.size
  gates := n.gates.size
  dffs := n.dffs.size
  primaryInputs := n.primaryInputs.size
  primaryOutputs := n.primaryOutputs.size
  instances := n.instances.size

end Netlist

end NandHdl
