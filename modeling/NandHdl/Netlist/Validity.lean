-- SUMMARY: Well-formed netlists: `Netlist.validate` refuses references to missing signals and signals with two drivers.
import NandHdl.Netlist.Basic

/-!
# Well-formed netlists

Every reference of a netlist has to be the number of one of its signals, and a signal has at most
one driver. A driver is a gate, through its `out`, or a flip-flop, through its `q`.

The references are looked at in a fixed order: gates, flip-flops, ports, names, clock. Drivers are
looked at afterwards, flip-flops first.
-/

namespace NandHdl

/-- What is wrong with a netlist. -/
inductive NetlistError where
  /-- `owner` refers to a signal that does not exist. -/
  | danglingSignal (owner : String) (signal : SignalId) (count : Nat)
  /-- A gate drives the output of a flip-flop. -/
  | dffOutputDriven (name : String) (gate : GateId)
  /-- A signal has two drivers. -/
  | multipleDrivers (name : String)
  deriving Repr, DecidableEq, Inhabited

/-- The sentence for a defect. -/
def NetlistError.message : NetlistError → String
  | .danglingSignal owner signal count =>
    owner ++ " references signal " ++ toString signal ++ ", but the netlist has only " ++
      toString count ++ " signals"
  | .dffOutputDriven name gate =>
    "signal '" ++ name ++ "' is a DFF output but is also driven by gate " ++ toString gate
  | .multipleDrivers name => "signal '" ++ name ++ "' has more than one driver"

namespace Netlist

/-- All references of a netlist in the order in which they are looked at, each with the words for
where it stands. -/
def references (n : Netlist) : List (String × SignalId) :=
  (n.gates.toList.flatMap fun g =>
      [g.in1, g.in2, g.out].map fun s => ("nand gate " ++ toString g.id, s)) ++
    (n.dffs.toList.flatMap fun f =>
      [f.d, f.clk, f.q].map fun s => ("dff " ++ toString f.id, s)) ++
    ((n.primaryInputs.toList ++ n.primaryOutputs.toList).map fun s => ("primary port list", s)) ++
    (n.names.toList.map fun (name, s) => ("signal map entry '" ++ name ++ "'", s)) ++
    (n.clock.toList.map fun s => ("clock signal", s))

/-- The signal that a reference stands for. -/
def signalAt (n : Netlist) (owner : String) (s : SignalId) : Except NetlistError Signal :=
  match n.signals[s]? with
  | some signal => .ok signal
  | none => .error (.danglingSignal owner s n.signals.size)

/-- Looks at references until one dangles. -/
def checkReferences (n : Netlist) : List (String × SignalId) → Except NetlistError Unit
  | [] => .ok ()
  | (owner, s) :: rest => do
    discard (n.signalAt owner s)
    n.checkReferences rest

/-- The signals driven so far. -/
abbrev Driven := Std.TreeSet SignalId

/-- Adds a driver of the signal `s`, which had none so far. -/
def claim (driven : Driven) (s : SignalId) (name : String) : Except NetlistError Driven :=
  if driven.contains s then .error (.multipleDrivers name) else .ok (driven.insert s)

/-- Adds the flip-flops to the drivers. -/
def claimDffs (n : Netlist) (driven : Driven) : List Dff → Except NetlistError Driven
  | [] => .ok driven
  | f :: rest => do
    let signal ← n.signalAt ("dff " ++ toString f.id) f.q
    n.claimDffs (← claim driven f.q signal.name) rest

/-- Adds the gates to the drivers. -/
def claimGates (n : Netlist) (driven : Driven) : List NandGate → Except NetlistError Driven
  | [] => .ok driven
  | g :: rest => do
    let signal ← n.signalAt ("nand gate " ++ toString g.id) g.out
    if signal.isDffOutput then throw (.dffOutputDriven signal.name g.id)
    n.claimGates (← claim driven g.out signal.name) rest

/-- Refuses a netlist that is not well formed, for the first reason that is met. -/
def validate (n : Netlist) : Except NetlistError Unit := do
  n.checkReferences n.references
  let driven ← n.claimDffs {} n.dffs.toList
  discard (n.claimGates driven n.gates.toList)

end Netlist

end NandHdl
