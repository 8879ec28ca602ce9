-- SUMMARY: Levels of gates (`levelize`): each gate after the gates it reads, or the cycle that forbids it.
import NandHdl.Netlist.Validity

/-!
# Levels

The level of a gate is the length of the longest chain of gates that ends in it. A gate that reads
no gate output has level 1. Flip-flops, inputs and undriven signals are sources and have no level.

Gates are placed in the order of a queue. A gate enters the queue when the last of the gates it
reads has been placed. A gate that never enters it lies on a combinational cycle or behind one. To
name a cycle, one walks back from such a gate, each time to a gate that was not placed either,
until a gate comes up again.
-/

namespace NandHdl

/-- Why a netlist has no levels. -/
inductive LevelizeError where
  /-- The outputs of gates that feed each other, in the direction of the signal flow. -/
  | combinationalCycle (signals : List String)
  /-- The netlist is not well formed. -/
  | invalidNetlist (e : NetlistError)
  /-- A table of the levelizer does not fit. -/
  | fault (f : Fault)
  deriving Repr, DecidableEq, Inhabited

/-- The sentence for an error. -/
def LevelizeError.message : LevelizeError → String
  | .combinationalCycle signals => "combinational cycle through " ++ " -> ".intercalate signals
  | .invalidNetlist e => "invalid netlist: " ++ e.message
  | .fault f => f.message

/-- A netlist with its gates grouped by level. -/
structure LevelizedNetlist where
  netlist : Netlist
  /-- At position `l`, the gates of level `l + 1`. -/
  levels : Array (Array GateId)

/-- The number of levels. -/
def LevelizedNetlist.depth (l : LevelizedNetlist) : Nat := l.levels.size

namespace Levels

/-- For each signal, the gate that drives it. -/
def drivers (n : Netlist) : Checked (Array (Option GateId)) :=
  n.gates.foldlM (fun table g => Checked.set table g.out (some g.id))
    (Array.replicate n.signals.size none)

/-- The gates behind the two inputs of a gate. A gate that drives both counts once. -/
def sources : Option GateId → Option GateId → List GateId
  | some a, some b => if a = b then [a] else [a, b]
  | some a, none => [a]
  | none, some b => [b]
  | none, none => []

/-- For each gate, the gates it reads. -/
def dependencies (n : Netlist) : Checked (Array (List GateId)) := do
  let table ← drivers n
  n.gates.mapM fun g => do
    return sources (← Checked.get table g.in1) (← Checked.get table g.in2)

/-- Adds a reader to each of the gates that it reads. -/
def addReader (readers : Array (Array GateId)) (reader : GateId) :
    List GateId → Checked (Array (Array GateId))
  | [] => .ok readers
  | g :: rest => do
    addReader (← Checked.modify readers g (·.push reader)) reader rest

/-- For each gate, the gates that read it. -/
def readers (n : Netlist) (deps : Array (List GateId)) : Checked (Array (Array GateId)) :=
  (n.gates.zip deps).foldlM (fun table (g, sources) => addReader table g.id sources)
    (Array.replicate n.gates.size #[])

/-! ## Placing -/

/-- The gates that are placed or may be placed next. -/
structure Placement where
  /-- For each gate, how many of the gates it reads are still to be placed. -/
  pending : Array Nat
  /-- For each gate, its level once it is placed. -/
  level : Array (Option Nat)
  /-- The gates that have been placed and, after them, the gates that may be placed. -/
  queue : Array GateId
  /-- How many gates have been placed. -/
  placed : Nat := 0

/-- The start: nothing is placed, and the gates that read no gate may be. -/
def Placement.start (deps : Array (List GateId)) : Placement where
  pending := deps.map List.length
  level := Array.replicate deps.size none
  queue := (Array.range deps.size).filter fun g => (deps[g]?.map List.isEmpty).getD false

/-- The level of a gate that reads the given gates. -/
def levelAfter (level : Array (Option Nat)) : List GateId → Checked Nat
  | [] => .ok 1
  | g :: rest => do
    let own ← Checked.get level g
    let others ← levelAfter level rest
    return max (own.getD 0 + 1) others

/-- Notes for each reader that a gate it reads has been placed. A reader that waits for no other
gate enters the queue. -/
def Placement.release (p : Placement) : List GateId → Checked Placement
  | [] => .ok p
  | r :: rest => do
    let left ← Checked.pred (← Checked.get p.pending r)
    let pending ← Checked.set p.pending r left
    let queue := if left = 0 then p.queue.push r else p.queue
    release { p with pending, queue } rest

/-- Places the gates of the queue, at most as many as given. -/
def Placement.run (deps : Array (List GateId)) (readers : Array (Array GateId)) :
    Nat → Placement → Checked Placement
  | 0, p => .ok p
  | steps + 1, p =>
    match p.queue[p.placed]? with
    | none => .ok p
    | some g => do
      let l ← levelAfter p.level (← Checked.get deps g)
      let level ← Checked.set p.level g (some l)
      let next ← ({ p with level, placed := p.placed + 1 }).release (← Checked.get readers g).toList
      run deps readers steps next

/-! ## Cycles -/

/-- Whether a gate has no level. -/
def isUnplaced (level : Array (Option Nat)) (g : GateId) : Checked Bool := do
  return (← Checked.get level g).isNone

/-- The first gate of a list that has no level. -/
def firstUnplaced? (level : Array (Option Nat)) : List GateId → Checked (Option GateId)
  | [] => .ok none
  | g :: rest => do
    if ← isUnplaced level g then return some g
    firstUnplaced? level rest

/-- Walks back from `current` through gates without a level. `path` holds the gates met before,
the last one first. When a gate comes up again, the gates since its first visit are a cycle, in
the direction of the signal flow. -/
def walkBack (deps : Array (List GateId)) (level : Array (Option Nat)) :
    Nat → List GateId → GateId → Checked (List GateId)
  | 0, _, _ => .ok []
  | steps + 1, path, current => do
    if path.contains current then return path.takeWhile (· != current) ++ [current]
    match ← firstUnplaced? level (← Checked.get deps current) with
    | none => return []
    | some next => walkBack deps level steps (current :: path) next

/-- The names of the outputs of gates. -/
def outputNames (n : Netlist) : List GateId → Checked (List String)
  | [] => .ok []
  | g :: rest => do
    let gate ← Checked.get n.gates g
    let signal ← Checked.get n.signals gate.out
    return signal.name :: (← outputNames n rest)

/-- The signals of a cycle, if some gate has no level. -/
def findCycle (n : Netlist) (deps : Array (List GateId)) (level : Array (Option Nat)) :
    Checked (List String) := do
  match ← firstUnplaced? level (List.range level.size) with
  | none => return []
  | some start => outputNames n (← walkBack deps level (deps.size + 1) [] start)

/-! ## Grouping -/

/-- The largest level. -/
def depth (level : Array (Option Nat)) : Nat :=
  level.foldl (fun d l => max d (l.getD 0)) 0

/-- Adds each gate to the group of its level. -/
def group (groups : Array (Array GateId)) : List NandGate → Checked (Array (Array GateId))
  | [] => .ok groups
  | g :: rest =>
    match g.level with
    | none => group groups rest
    | some l => do group (← Checked.modify groups (← Checked.pred l) (·.push g.id)) rest

/-- The netlist with the levels of its gates. -/
def assign (n : Netlist) (level : Array (Option Nat)) : Checked LevelizedNetlist := do
  let gates := n.gates.zipWith (fun g l => { g with level := l }) level
  let levels ← group (Array.replicate (depth level) #[]) gates.toList
  return { netlist := { n with gates }, levels }

/-- A netlist with levels, or the signals of a cycle. -/
def order (n : Netlist) : Checked (Except (List String) LevelizedNetlist) := do
  let deps ← dependencies n
  let p ← (Placement.start deps).run deps (← readers n deps) n.gates.size
  if p.queue.size < n.gates.size then return .error (← findCycle n deps p.level)
  return .ok (← assign n p.level)

end Levels

/-- Gives every gate of a netlist its level. -/
def levelize (n : Netlist) : Except LevelizeError LevelizedNetlist :=
  match n.validate with
  | .error e => .error (.invalidNetlist e)
  | .ok () =>
    match Levels.order n with
    | .error f => .error (.fault f)
    | .ok (.error signals) => .error (.combinationalCycle signals)
    | .ok (.ok l) => .ok l

end NandHdl
