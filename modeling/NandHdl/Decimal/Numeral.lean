-- SUMMARY: Numbers as they are written (`Numeral`): sign, whole part, fraction digits and exponent, kept apart so that `1`, `1.0` and `1e0` stay three numerals.

/-!
# Numerals

A numeral is a number together with the way it is written. A reader of counts must tell `1` from
`1.0`, so the parts are kept and only the spelling of the exponent is forgotten.
-/

namespace NandHdl

/-- A decimal number as written. -/
structure Numeral where
  negative : Bool := false
  whole : Nat
  /-- The digits after the point, if there is a point. -/
  fraction : Option (List Nat) := none
  /-- The power of ten after `e`, if there is one. -/
  exponent : Option Int := none
  deriving Repr, DecidableEq, Inhabited

namespace Numeral

/-- The largest count that is exchanged with the outside. -/
def maxCount : Nat := UInt64.size - 1

/-- The numeral of a count. -/
def ofNat (n : Nat) : Numeral := { whole := n }

/-- The count a numeral stands for. A count is written with digits alone and fits in 64 bits. -/
def count? (n : Numeral) : Option Nat :=
  if n.negative || n.fraction.isSome || n.exponent.isSome || n.whole > maxCount then none
  else some n.whole

/-- The character of a decimal digit. -/
def digitChar (d : Nat) : Char := Char.ofNat ('0'.toNat + d)

/-- The value of a decimal digit. -/
def digitValue (c : Char) : Nat := c.toNat - '0'.toNat

/-- The number that a row of decimal digits stands for, highest digit first. -/
def ofDigits (digits : List Nat) : Nat := digits.foldl (fun n d => 10 * n + d) 0

/-- The decimal digits of a number, highest first. -/
def digitsOf (n : Nat) : List Nat := (Nat.toDigits 10 n).map digitValue

/-- The text of a numeral. -/
def render (n : Numeral) : String :=
  (if n.negative then "-" else "") ++ toString n.whole ++
    (match n.fraction with
      | some digits => "." ++ String.ofList (digits.map digitChar)
      | none => "") ++
    (match n.exponent with
      | some e => "e" ++ toString e
      | none => "")

end Numeral

end NandHdl
