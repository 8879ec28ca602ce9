-- SUMMARY: The signal store (`Store`): one bit per signal in 32-bit words behind a fixed header, and the actions on it (`StoreM`).
import NandHdl.Netlist.Basic

/-!
# The signal store

A store is a row of 32-bit words. The first sixteen are the header:

* word 0 holds a fixed mark, word 1 the version of the layout,
* word 2 holds the number of signals, word 3 the current cycle,
* the others are zero.

After the header comes one bit per signal: signal `id` is bit `id % 32` of word `16 + id / 32`.

An action on a store that asks for a word past the end stops with a fault. What it wrote before
stays written.
-/

namespace NandHdl

/-- The words of a store. -/
structure Store where
  words : Array UInt32
  deriving Repr, DecidableEq, Inhabited

/-- An action on a store. -/
abbrev StoreM := EStateM Fault Store

namespace Store

/-- The first word of every store. -/
def magic : UInt32 := 0x57495245

/-- The version of the layout. -/
def version : UInt32 := 1

/-- How many words come before the signals. -/
def headerWords : Nat := 16

/-- The word that counts the signals. -/
def countWord : Nat := 2

/-- The word that counts the cycles. -/
def cycleWord : Nat := 3

/-- How many words a store for the given number of signals has. -/
def wordsFor (signals : Nat) : Nat := headerWords + (signals + 31) / 32

/-- The store of the given number of signals, all 0. -/
def new (signals : Nat) : Store where
  words := #[magic, version, UInt32.ofNat signals] ++ Array.replicate (wordsFor signals - 3) 0

/-- The number of signals. -/
def signalCount (s : Store) : Nat := (s.words.getD countWord 0).toNat

/-- The current cycle. -/
def cycle (s : Store) : UInt32 := s.words.getD cycleWord 0

/-- The words after the header. -/
def data (s : Store) : List UInt32 := s.words.toList.drop headerWords

/-! ## Actions -/

/-- The word at a position. -/
def readWord (position : Nat) : StoreM UInt32 := fun s =>
  match s.words[position]? with
  | some w => .ok w s
  | none => .error .outOfRange s

/-- Changes the word at a position. -/
def modifyWord (position : Nat) (f : UInt32 → UInt32) : StoreM Unit := fun s =>
  if position < s.words.size then .ok () { s with words := s.words.modify position f }
  else .error .outOfRange s

/-- The word with one bit set or cleared. -/
def withBit (word : UInt32) (bit : Nat) (value : Bool) : UInt32 :=
  let mask := 1 <<< UInt32.ofNat bit
  if value then word ||| mask else word &&& ~~~mask

/-- The value of a signal. -/
def read (id : SignalId) : StoreM Bool := do
  return (← readWord (headerWords + id / 32)).toNat.testBit (id % 32)

/-- Gives a signal a value. -/
def write (id : SignalId) (value : Bool) : StoreM Unit :=
  modifyWord (headerWords + id / 32) fun w => withBit w (id % 32) value

/-- The values of several signals in their order. -/
def readAll : List SignalId → StoreM (List Bool)
  | [] => return []
  | id :: rest => do
    let value ← read id
    return value :: (← readAll rest)

/-- The word whose bit `i` is the value at position `i`. -/
def wordOfBits (bits : List Bool) : UInt64 :=
  bits.foldr (fun b w => 2 * w + if b then 1 else 0) 0

/-- The values of at most 64 signals as a word. The first signal is bit 0. -/
def readBits (ids : Bits) : StoreM UInt64 := do
  return wordOfBits (← readAll (ids.take 64))

/-- Writes the bits of a word from bit `position` on. Signals past the last bit get 0. -/
def writeFrom (value : UInt64) (position : Nat) : Bits → StoreM Unit
  | [] => return
  | id :: rest => do
    write id (value.toNat.testBit position)
    writeFrom value (position + 1) rest

/-- Gives signals the bits of a word. The first signal gets bit 0. -/
def writeBits (ids : Bits) (value : UInt64) : StoreM Unit := writeFrom value 0 ids

/-- Counts one more cycle. The count starts again at 0 after the largest word. -/
def incrementCycle : StoreM Unit := modifyWord cycleWord (· + 1)

/-! ## Reset -/

/-- Sets signals to 1. -/
def setAll : List SignalId → StoreM Unit
  | [] => return
  | id :: rest => do
    write id true
    setAll rest

/-- The signals that are 1 after a reset: the constant 1, by its name, and the flip-flops that
start at 1. -/
def initiallyOne (n : Netlist) : List SignalId :=
  (n.signals.toList.filter (·.name == oneName)).map (·.id) ++
    (n.dffs.toList.filter (·.initialValue)).map (·.q)

/-- The store of a netlist after a reset. -/
def forNetlist (n : Netlist) : Checked Store :=
  match (setAll (initiallyOne n)).run (new n.signals.size) with
  | .ok _ s => .ok s
  | .error f _ => .error f

end Store

end NandHdl
