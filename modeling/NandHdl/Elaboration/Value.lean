-- SUMMARY: Elaborating expressions: all bits of a value (`Expr.bits`) or one of them (`Expr.bit`).
import NandHdl.Elaboration.Draft
import NandHdl.Width

/-!
# Values

`Expr.bits` gives the bits of an expression, lowest first, and emits the gates it needs.
`Expr.bit` gives one bit. Where the expression has no call it finds the bit without building the
whole value. A bit past the end of a value is 0.

How a call to a module of the program is expanded is left open here: it is a field of the
`Context`.
-/

namespace NandHdl

/-- What the elaboration of an expression depends on beside the draft. -/
structure Context where
  program : Program
  /-- How deep modules may be nested. -/
  limit : Nat
  /-- Expands a module on argument values, for a target if there is one. None where the limit is
  reached. -/
  expand : Option (ModuleDecl → List Bits → Option String → Elab Bits)

/-- The bits of a literal. -/
def literalBits (value : UInt64) : Bits :=
  (List.range (literalWidth value)).map fun k => constantBit (value.toNat.testBit k)

/-- Where bit `k` of a concatenation lies: the part, counted from the left, and the bit of the
part. The rightmost part is the lowest. -/
def locateConcatBit (widths : List Nat) (k : Nat) : Option (Nat × Nat) :=
  go (widths.length - 1) k widths.reverse
where
  /-- The widths from the right, with the position of the first of them. -/
  go (position k : Nat) : List Nat → Option (Nat × Nat)
    | [] => none
    | w :: rest => if k < w then some (position, k) else go (position - 1) (k - w) rest

/-- The error for a slice that ends below its start. -/
def sliceError (e : Expr) : ElabError := .malformedExpr e.render "slice end is below its start"

/-- The full name of a member. Only a name can stand before the point. -/
def memberOf (object : Expr) (field : String) : Elab String :=
  match object with
  | .ident name => return memberName name field
  | _ =>
    throw (.malformedExpr (Expr.member object field).render
      "member access needs an instance name on the left")

/-- Bit `k` of a name. -/
def namedBit (name : String) (k : Nat) : Elab SignalId := do
  let s ← Elab.scope
  if s.isBus name then
    if k ≥ s.widthOf name then return zeroId
    match s.lookup? (bitName name k) with
    | some id => return id
    | none => Elab.unknownSignal (bitName name k)
  else
    match s.lookup? name with
    | some id => return if k = 0 then id else zeroId
    | none => Elab.unknownSignal name

/-- A call. `count` is the number of arguments, `low` elaborates bit 0 of each of them and `all`
elaborates their values. -/
def Context.call (cx : Context) (callee : String) (target : Option String) (count : Nat)
    (low : Elab Bits) (all : Elab (List Bits)) : Elab Bits := do
  if callee = nandName then
    if count ≠ 2 then throw (.arityMismatch callee 2 count)
    match ← low with
    | [a, b] => return [← Elab.emitNand a b]
    | _ => throw (.fault .outOfRange)
  else if callee = dffName then
    if count ≠ 2 then throw (.arityMismatch callee 2 count)
    match ← low with
    | [d, clk] => return [← Elab.emitDff d clk]
    | _ => throw (.fault .outOfRange)
  else
    match cx.program.find? callee with
    | none => throw (.unknownModule callee (← Elab.scope).moduleName)
    | some m =>
      match cx.expand with
      | none => throw (.recursionLimit m.name cx.limit)
      | some expand =>
        if count ≠ m.params.length then
          throw (.arityMismatch m.name m.params.length count)
        expand m (← all) target

mutual

/-- The bits of an expression, lowest first. -/
def Expr.bits (cx : Context) : Expr → Elab Bits
  | .number value => return literalBits value
  | .ident name => Elab.bitsOf name
  | .index object position => do return [← object.bit cx position]
  | .slice object first last => do
    if last < first then throw (sliceError (.slice object first last))
    let base ← object.bits cx
    return (List.range (last - first + 1)).map fun i => base.getD (first + i) zeroId
  | .member object field => do Elab.bitsOf (← memberOf object field)
  | .concat parts => do return (← Expr.bitsAll cx parts).reverse.flatten
  | .call callee args =>
    cx.call callee none args.length (Expr.lowBits cx args) (Expr.bitsAll cx args)

/-- Bit `k` of an expression. -/
def Expr.bit (cx : Context) : Expr → Nat → Elab SignalId
  | .number value, k => return constantBit (value.toNat.testBit k)
  | .ident name, k => namedBit name k
  | .index object position, k => if k = 0 then object.bit cx position else return zeroId
  | .slice object first last, k => do
    if last < first then throw (sliceError (.slice object first last))
    if k > last - first then return zeroId
    object.bit cx (first + k)
  | .member object field, k => do namedBit (← memberOf object field) k
  | .concat parts, k => do
    let widths := Expr.widths (← Elab.scope) cx.program {} parts
    match locateConcatBit widths k with
    | some (position, offset) => Expr.bitOfPart cx parts position offset
    | none => return zeroId
  | .call callee args, k => do
    let bits ← cx.call callee none args.length (Expr.lowBits cx args) (Expr.bitsAll cx args)
    return bits.getD k zeroId

/-- The bits of several expressions. -/
def Expr.bitsAll (cx : Context) : List Expr → Elab (List Bits)
  | [] => return []
  | e :: rest => do
    let bits ← e.bits cx
    return bits :: (← Expr.bitsAll cx rest)

/-- Bit 0 of each of several expressions. -/
def Expr.lowBits (cx : Context) : List Expr → Elab Bits
  | [] => return []
  | e :: rest => do
    let bit ← e.bit cx 0
    return bit :: (← Expr.lowBits cx rest)

/-- Bit `k` of the expression at a position. -/
def Expr.bitOfPart (cx : Context) : List Expr → Nat → Nat → Elab SignalId
  | [], _, _ => throw (.fault .outOfRange)
  | e :: _, 0, k => e.bit cx k
  | _ :: rest, position + 1, k => Expr.bitOfPart cx rest position k

end

/-- The bits of the right-hand side of a statement. A call takes the target of the statement. -/
def Statement.bits (cx : Context) (s : Statement) : Elab Bits :=
  match s.expr with
  | .call callee args =>
    cx.call callee (some s.target) args.length (Expr.lowBits cx args) (Expr.bitsAll cx args)
  | e => e.bits cx

end NandHdl
