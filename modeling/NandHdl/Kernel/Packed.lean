-- SUMMARY: The engine over words (`PackedKernel`): a flat program of signal numbers run by shifts and masks on the words of a store.
import NandHdl.Netlist.Levels
import NandHdl.Store.Basic

/-!
# The engine over words

Gates are compiled to a flat row of numbers, three per gate in the order of the levels: `in1`,
`in2`, `out`. Flip-flops take two numbers each: `d`, `q`. The program works on the words of a
store by shifts and masks alone.

The values that a clock edge reads are kept in scratch words, one bit per flip-flop, until all of
them have been read.
-/

namespace NandHdl

/-- A compiled netlist. -/
structure PackedKernel where
  gates : List UInt32
  flops : List UInt32
  scratch : Array UInt32
  deriving Repr, DecidableEq, Inhabited

namespace Packed

/-- The bit of a signal, as a word that is 0 or 1. -/
def get (id : UInt32) : StoreM UInt32 := do
  return (← Store.readWord (Store.headerWords + (id >>> 5).toNat)) >>> (id &&& 31) &&& 1

/-- The word with the bit at `shift` replaced by `bit`, which is 0 or 1. -/
def put (word shift bit : UInt32) : UInt32 := word &&& ~~~(1 <<< shift) ||| bit <<< shift

/-- Replaces the bit of a signal. -/
def set (id bit : UInt32) : StoreM Unit :=
  Store.modifyWord (Store.headerWords + (id >>> 5).toNat) fun w => put w (id &&& 31) bit

/-- Runs a program of gates. An incomplete gate at the end is left out. -/
def evaluate : List UInt32 → StoreM Unit
  | in1 :: in2 :: out :: rest => do
    let a ← get in1
    let b ← get in2
    set out ((a &&& b) ^^^ 1)
    evaluate rest
  | _ => return

/-- Reads the `d` of flip-flops into scratch words, from bit `i` on. -/
def sample (scratch : Array UInt32) (i : Nat) : List UInt32 → StoreM (Array UInt32)
  | d :: _ :: rest => do
    if i / 32 < scratch.size then
      let bit ← get d
      sample (scratch.modify (i / 32) fun w => put w (UInt32.ofNat (i % 32)) bit) (i + 1) rest
    else throw .outOfRange
  | _ => return scratch

/-- Writes the `q` of flip-flops from scratch words, from bit `i` on. -/
def update (scratch : Array UInt32) (i : Nat) : List UInt32 → StoreM Unit
  | _ :: q :: rest => do
    match scratch[i / 32]? with
    | some w =>
      set q (w >>> UInt32.ofNat (i % 32) &&& 1)
      update scratch (i + 1) rest
    | none => throw .outOfRange
  | _ => return

/-- One clock edge. Answers the scratch words. An incomplete flip-flop at the end is left out. -/
def capture (flops : List UInt32) (scratch : Array UInt32) : StoreM (Array UInt32) := do
  let scratch ← sample scratch 0 flops
  update scratch 0 flops
  return scratch

end Packed

namespace PackedKernel

/-- The program of the gates of one level. -/
def compile (n : Netlist) (level : List GateId) : Checked (List UInt32) := do
  let rows ← level.mapM fun g => do
    let gate ← Checked.get n.gates g
    return [UInt32.ofNat gate.in1, UInt32.ofNat gate.in2, UInt32.ofNat gate.out]
  return rows.flatten

/-- The engine of a netlist. -/
def ofLevelized (l : LevelizedNetlist) : Checked PackedKernel := do
  let flops := l.netlist.dffs.toList.flatMap fun f => [UInt32.ofNat f.d, UInt32.ofNat f.q]
  return { gates := (← l.levels.toList.mapM fun level => compile l.netlist level.toList).flatten
           flops
           scratch := Array.replicate ((flops.length / 2 + 31) / 32) 0 }

end PackedKernel

end NandHdl
