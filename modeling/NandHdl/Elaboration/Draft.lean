-- SUMMARY: The netlist under construction (`Draft`) and the steps that extend it (`Elab`).
import NandHdl.Elaboration.Error
import NandHdl.Scope

/-!
# Drafts

Elaboration extends a draft: the netlist so far, which of its signals are driven, and the scope of
the body at hand. Signals, gates, flip-flops and instances are only ever added.

The first two signals of every netlist are the constants.
-/

namespace NandHdl

/-- A netlist under construction. -/
structure Draft where
  netlist : Netlist
  /-- For each signal, whether something drives it. -/
  driven : Array Bool := #[]
  /-- The scope of the body that is being elaborated. -/
  scope : Scope

/-- The draft of a top module, without any signal. -/
def Draft.empty (top : String) : Draft := { netlist := .empty top, scope := .top top }

/-- A step of elaboration. -/
abbrev Elab := StateT Draft (Except ElabError)

/-- The signal that is always 0. -/
def zeroId : SignalId := 0

/-- The signal that is always 1. -/
def oneId : SignalId := 1

/-- The signal of a constant bit. -/
def constantBit (b : Bool) : SignalId := if b then oneId else zeroId

namespace Elab

/-- Takes over a checked result. -/
def ofChecked {α : Type} : Checked α → Elab α
  | .ok a => pure a
  | .error f => throw (.fault f)

/-- The scope of the body at hand. -/
def scope : Elab Scope := do return (← get).scope

/-- Changes the scope of the body at hand. -/
def modifyScope (f : Scope → Scope) : Elab Unit :=
  modify fun d => { d with scope := f d.scope }

/-- Changes the netlist. -/
def modifyNetlist (f : Netlist → Netlist) : Elab Unit :=
  modify fun d => { d with netlist := f d.netlist }

/-- The error for a name that is not bound. -/
def unknownSignal {α : Type} (name : String) : Elab α := do
  throw (.unknownSignal name (← scope).moduleName)

/-- The bits of a name. -/
def bitsOf (name : String) : Elab Bits := do
  match (← scope).bits? name with
  | some bits => return bits
  | none => unknownSignal name

/-! ## Signals and gates -/

/-- A new signal under its global name. -/
def newSignal (name : String) (owner : InstanceId) : Elab SignalId :=
  modifyGet fun d =>
    (d.netlist.signals.size,
      { d with netlist := d.netlist.addSignal name owner, driven := d.driven.push false })

/-- A new signal for each of the names. -/
def newSignals (owner : InstanceId) : List String → Elab Bits
  | [] => return []
  | name :: rest => do
    let id ← newSignal name owner
    return id :: (← newSignals owner rest)

/-- A new signal that the next gate is to drive. It is named after the gate. -/
def newGateOutput : Elab SignalId := do
  let d ← get
  newSignal ("nand_" ++ toString d.netlist.gates.size) d.scope.owner

/-- Takes the right to drive a signal. It is given once. -/
def claimDriver (id : SignalId) : Elab Unit := do
  let d ← get
  if ← ofChecked (Checked.get d.driven id) then
    throw (.multipleDrivers (← ofChecked (Checked.get d.netlist.signals id)).name)
  modify fun d => { d with driven := d.driven.modify id fun _ => true }

/-- Adds a gate. -/
def addNand (in1 in2 out : SignalId) : Elab Unit := modifyNetlist (·.addNand in1 in2 out)

/-- The gate on two signals, with a new output. -/
def emitNand (a b : SignalId) : Elab SignalId := do
  let out ← newGateOutput
  claimDriver out
  addNand a b out
  return out

/-- The flip-flop on two signals, with a new output. -/
def emitDff (d clk : SignalId) : Elab SignalId := do
  let draft ← get
  let q ← newSignal ("dff_" ++ toString draft.netlist.dffs.size) draft.scope.owner
  claimDriver q
  let netlist ← ofChecked ((← get).netlist.addDff d clk q false)
  modifyNetlist fun _ => netlist
  return q

/-! ## Declaring and wiring -/

/-- The names of a value with the given width: the name itself for one bit, otherwise a name per
bit. -/
def bitNames (name : String) (width : Nat) : List String :=
  if width = 1 then [name] else (List.range width).map (bitName name)

/-- Makes and binds the signals of a local name. There is at least one. -/
def declare (name : String) (width : Nat) : Elab Bits := do
  let s ← scope
  let bits ← newSignals s.owner ((bitNames name (max 1 width)).map s.globalName)
  modifyScope (·.bind name bits)
  return bits

/-- Copies one signal into another through two gates. A signal needs no copy into itself. -/
def wireInto (src dst : SignalId) : Elab Unit := do
  if src = dst then return
  claimDriver dst
  let t ← newGateOutput
  addNand src src t
  addNand t t dst

/-- Copies a value into a target bit by bit. Missing bits are 0, surplus bits are dropped. -/
def wire : Bits → Bits → Elab Unit
  | _, [] => return
  | [], dst :: rest => do
    wireInto zeroId dst
    wire [] rest
  | src :: more, dst :: rest => do
    wireInto src dst
    wire more rest

end Elab

/-- A value with the given number of bits: zeros are added or high bits dropped. -/
def resize (bits : Bits) (width : Nat) : Bits :=
  (List.range width).map fun i => bits.getD i zeroId

end NandHdl
