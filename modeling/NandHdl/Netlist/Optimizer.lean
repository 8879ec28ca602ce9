-- SUMMARY: Shrinking netlists (`optimize`): constants are folded, double inversions bypassed and gates without effect dropped.
import NandHdl.Netlist.Basic
import NandHdl.Config.Basic

/-!
# Optimizer

The optimizer works in passes. A pass decides for gate outputs that their readers should read
another signal instead, lets all readers do so, and drops the gates that no output and no
flip-flop depends on. Signals keep their numbers, and the outputs of the circuit keep their
drivers.

The result is used only if it saves enough gates.
-/

namespace NandHdl

/-- What the optimizer did. -/
structure OptimizeReport where
  /-- The optimized netlist, or the one that was given if the savings are too small. -/
  netlist : Netlist
  gatesBefore : Nat
  gatesAfter : Nat
  passes : Nat
  /-- Whether the optimized netlist is used. -/
  applied : Bool

/-- The share of gates that is saved, in percent. -/
def savingsPercent (before after : Nat) : Float :=
  if before = 0 then 0.0
  else (UInt64.ofNat (before - after)).toFloat * 100.0 / (UInt64.ofNat before).toFloat

/-- The share of gates that the optimizer saved, in percent. -/
def OptimizeReport.savings (r : OptimizeReport) : Float :=
  savingsPercent r.gatesBefore r.gatesAfter

namespace Optimizer

/-- A gate without number and level. -/
structure Wiring where
  in1 : SignalId
  in2 : SignalId
  out : SignalId
  deriving Repr, DecidableEq, Inhabited

/-- For each signal, the signal that its readers should read instead. A signal that is read as
itself stands for itself. -/
abbrev Substitution := Array SignalId

/-- Follows a substitution from `s`, at most the given number of steps. -/
def follow (subst : Substitution) : Nat → SignalId → Checked SignalId
  | 0, s => .ok s
  | steps + 1, s => do
    let next ← Checked.get subst s
    if next = s then return s else follow subst steps next

/-- The signal at the end of a substitution. A chain has at most as many steps as there are
signals. -/
def resolve (subst : Substitution) (s : SignalId) : Checked SignalId :=
  follow subst subst.size s

/-- The state between passes. -/
structure State where
  gates : Array Wiring
  subst : Substitution
  /-- For each signal, the position of the gate that drives it. -/
  driver : Array (Option Nat)
  dffs : Array Dff

/-- The positions of the drivers. -/
def driverTable (signals : Nat) (gates : Array Wiring) : Checked (Array (Option Nat)) :=
  (gates.zipIdx).foldlM (fun table (g, i) => Checked.set table g.out (some i))
    (Array.replicate signals none)

/-- The state before the first pass. -/
def State.start (n : Netlist) : Checked State := do
  let gates := n.gates.map fun g => { in1 := g.in1, in2 := g.in2, out := g.out }
  return { gates
           subst := Array.range n.signals.size
           driver := ← driverTable n.signals.size gates
           dffs := n.dffs }

/-! ## Substitution -/

/-- What a gate on `a` and `b` reads as if one of them is a constant that decides it. -/
def folded (zero one : Option SignalId) (a b : SignalId) : Option SignalId :=
  match zero, one with
  | some c0, some c1 =>
    if a = c0 ∨ b = c0 then some c1 else if a = c1 ∧ b = c1 then some c0 else none
  | _, _ => none

/-- What a gate with both inputs on `a` reads as if `a` is itself inverted from one signal. -/
def bypassed (st : State) (a : SignalId) : Checked (Option SignalId) := do
  match ← Checked.get st.driver a with
  | none => return none
  | some position =>
    let inner ← Checked.get st.gates position
    let x ← resolve st.subst inner.in1
    let y ← resolve st.subst inner.in2
    return if x = y then some x else none

/-- What a gate on `a` and `b` reads as, if it has to be no gate. -/
def replacement (zero one : Option SignalId) (st : State) (a b : SignalId) :
    Checked (Option SignalId) := do
  let bypass ← if a = b then bypassed st a else pure none
  return (folded zero one a b).or bypass

/-- Decides for one gate what its output is read as. Answers whether that is new. -/
def substituteGate (zero one : Option SignalId) (st : State) (g : Wiring) :
    Checked (State × Bool) := do
  let a ← resolve st.subst g.in1
  let b ← resolve st.subst g.in2
  if (← Checked.get st.subst g.out) ≠ g.out then return (st, false)
  match ← replacement zero one st a b with
  | none => return (st, false)
  | some target =>
    if target = g.out then return (st, false)
    return ({ st with subst := ← Checked.set st.subst g.out target }, true)

/-- Decides for all gates in their order. -/
def substituteGates (zero one : Option SignalId) :
    State → List Wiring → Checked (State × Bool)
  | st, [] => .ok (st, false)
  | st, g :: rest => do
    let (st, changed) ← substituteGate zero one st g
    let (st, more) ← substituteGates zero one st rest
    return (st, changed || more)

/-- Lets the gates and the flip-flops read what the substitution says. -/
def rewire (st : State) : Checked State := do
  let gates ← st.gates.mapM fun g => do
    return { g with in1 := ← resolve st.subst g.in1, in2 := ← resolve st.subst g.in2 }
  let dffs ← st.dffs.mapM fun f => do
    return { f with d := ← resolve st.subst f.d, clk := ← resolve st.subst f.clk }
  return { st with gates, dffs }

/-! ## Sweep -/

/-- What the search for needed gates has found. -/
structure Reach where
  /-- The signals that have been looked at. -/
  seen : Array Bool
  /-- The gates that are needed, by position. -/
  live : Array Bool

/-- Looks at the signals on a stack and at all they depend on, in at most the given number of
steps. -/
def reach (st : State) : Nat → List SignalId → Reach → Checked Reach
  | 0, _, r => .ok r
  | _, [], r => .ok r
  | steps + 1, s :: stack, r => do
    if ← Checked.get r.seen s then
      reach st steps stack r
    else
      let r := { r with seen := ← Checked.set r.seen s true }
      match ← Checked.get st.driver s with
      | none => reach st steps stack r
      | some position =>
        let g ← Checked.get st.gates position
        let r := { r with live := ← Checked.set r.live position true }
        reach st steps (g.in2 :: g.in1 :: stack) r

/-- The signals that have to keep their values: the outputs of the circuit and the inputs of the
flip-flops. -/
def roots (n : Netlist) (dffs : Array Dff) : List SignalId :=
  n.primaryOutputs.toList ++ dffs.toList.flatMap fun f => [f.d, f.clk]

/-- Drops the gates that no root depends on. Every signal is looked at once and adds at most two
signals to the stack. -/
def sweep (n : Netlist) (st : State) : Checked State := do
  let signals := n.signals.size
  let stack := (roots n st.dffs).reverse
  let r ← reach st (stack.length + 2 * signals + 1) stack
    { seen := Array.replicate signals false, live := Array.replicate st.gates.size false }
  let gates := ((st.gates.zip r.live).filter (·.2)).map (·.1)
  return { st with gates, driver := ← driverTable signals gates }

/-! ## Passes -/

/-- One pass. Answers whether it changed anything. -/
def pass (n : Netlist) (st : State) : Checked (State × Bool) := do
  let (st, changed) ←
    substituteGates (n.signalId? zeroName) (n.signalId? oneName) st st.gates.toList
  let rewired ← rewire st
  let swept ← sweep n rewired
  return (swept, changed || swept.gates.size < rewired.gates.size)

/-- Passes until one changes nothing, at most the given number. Answers how many there were. -/
def passes (n : Netlist) : Nat → State → Checked (State × Nat)
  | 0, st => .ok (st, 0)
  | left + 1, st => do
    let (st, changed) ← pass n st
    if changed then
      let (st, more) ← passes n left st
      return (st, more + 1)
    return (st, 1)

/-- The netlist with the gates and flip-flops of a state. The gates are numbered anew. -/
def State.netlist (st : State) (n : Netlist) : Netlist :=
  st.gates.foldl (fun n g => n.addNand g.in1 g.in2 g.out) { n with dffs := st.dffs, gates := #[] }

end Optimizer

/-- Shrinks a netlist. -/
def optimize (n : Netlist) (config : OptimizerConfig) : Checked OptimizeReport := do
  let before := n.gates.size
  let (st, passes) ← Optimizer.passes n config.maxPasses (← Optimizer.State.start n)
  let applied :=
    decide (before > 0) && decide (savingsPercent before st.gates.size ≥ config.minSavingsPercent)
  let result := if applied then st.netlist n else n
  return { netlist := result, gatesBefore := before, gatesAfter := result.gates.size, passes,
           applied }

end NandHdl
