-- SUMMARY: Doubles and decimals: reading a numeral as a double, the shortest numeral that reads back, and a fixed number of places.
import NandHdl.Decimal.Numeral

/-!
# Doubles and decimals

A finite double is a whole number times a power of two. All printing works on that exact value:

* `Double.shortest` gives the numeral with the fewest digits among those that lie in the interval
  of reals that round to the double, and of those the nearest to it;
* `Double.fixed` rounds the exact value to a number of decimal places, a tie to the even
  neighbour.

Reading (`Double.ofNumeral?`) collects the leading digits in 64 bits and scales them once by a
power of ten.
-/

namespace NandHdl

/-- The exact value of a finite double: `mantissa * 2 ^ scale`, with a sign. -/
structure Double where
  negative : Bool
  mantissa : Nat
  scale : Int
  deriving Repr, DecidableEq

namespace Double

/-- The bit above the 52 stored bits of a mantissa. It is set unless the exponent is the least. -/
def hidden : Nat := 1 <<< 52

/-- The exact value of a double, read from its bits. -/
def ofFloat (x : Float) : Double :=
  let bits : Nat := x.toBits.toNat
  let stored : Nat := bits / hidden % 2048
  let low : Nat := bits % hidden
  { negative := bits / hidden ≥ 2048
    mantissa := if stored = 0 then low else low + hidden
    scale := if stored = 0 then -1074 else (stored : Int) - 1075 }

/-! ## Fixed places -/

/-- The quotient rounded to the nearest whole number, a tie to the even one. -/
def roundDiv (num den : Nat) : Nat :=
  let q := num / den
  let twice := 2 * (num % den)
  if twice > den || (twice == den && q % 2 == 1) then q + 1 else q

/-- The value with `places` digits after the point. -/
def fixed (x : Double) (places : Nat) : Numeral :=
  let unit := Nat.pow 10 places
  let scaled := roundDiv ((x.mantissa * unit) <<< x.scale.toNat) (1 <<< (-x.scale).toNat)
  let digits := Numeral.digitsOf (scaled % unit)
  { negative := x.negative
    whole := scaled / unit
    fraction := some (List.replicate (places - digits.length) 0 ++ digits) }

/-! ## Shortest -/

/-- A multiple of `10 ^ k` among the reals that round to `x`: one of the two neighbours of `x` on
that grid, and the nearer one if both lie in the interval. The interval reaches half way to the
next double on each side, with its ends if the mantissa is even; below a power of two the next
double is half as far. -/
def onGrid (x : Double) (k : Int) : Option Nat :=
  let unit := x.scale - 2
  let up := Nat.pow 10 (-k).toNat <<< unit.toNat
  let den := Nat.pow 10 k.toNat <<< (-unit).toNat
  let value := 4 * x.mantissa * up
  let high := (4 * x.mantissa + 2) * up
  let narrow := x.mantissa == hidden && x.scale > -1074
  let low := (4 * x.mantissa - if narrow then 1 else 2) * up
  let inside := fun n : Nat =>
    if x.mantissa % 2 == 0 then decide (low ≤ n * den) && decide (n * den ≤ high)
    else decide (low < n * den) && decide (n * den < high)
  let below := value / den
  let above := below + 1
  if inside below && inside above then
    let down := value - below * den
    let rise := above * den - value
    if down < rise || (down == rise && below % 2 == 0) then some below else some above
  else if inside below then some below
  else if inside above then some above
  else none

/-- Digits and power of ten of the shortest decimal that reads back as `x`, which is not zero.
The grids are tried from the coarsest on. -/
def shortestParts (x : Double) : Nat × Int :=
  let grids := (List.range 660).map fun i : Nat => (310 : Int) - i
  (grids.findSome? fun k => (x.onGrid k).map fun n => (n, k)).getD (0, 0)

/-- The point stands among the digits if at most this many digits precede it. -/
def maxWholeDigits : Int := 16

/-- The point stands before the digits if fewer than this many zeros follow it. -/
def maxLeadingZeros : Int := 5

/-- The shortest numeral that reads back as `x`. Positional numerals keep at least one digit after
the point. -/
def shortest (x : Double) : Numeral :=
  if x.mantissa = 0 then { negative := x.negative, whole := 0, fraction := some [0] }
  else
    let (n, k) := x.shortestParts
    let digits := Numeral.digitsOf n
    let point := (digits.length : Int) + k
    if 0 ≤ k && point ≤ maxWholeDigits then
      { negative := x.negative, whole := n * Nat.pow 10 k.toNat, fraction := some [0] }
    else if 0 < point && point ≤ maxWholeDigits then
      { negative := x.negative
        whole := Numeral.ofDigits (digits.take point.toNat)
        fraction := some (digits.drop point.toNat) }
    else if -maxLeadingZeros < point && point ≤ 0 then
      { negative := x.negative
        whole := 0
        fraction := some (List.replicate (-point).toNat 0 ++ digits) }
    else
      { negative := x.negative
        whole := digits.headD 0
        fraction := if digits.length = 1 then none else some (digits.drop 1)
        exponent := some (point - 1) }

/-! ## Reading -/

/-- Appends leading digits to `n` as long as the number fits in 64 bits. Answers the number and
how many digits were taken. -/
def collect (n taken : Nat) : List Nat → Nat × Nat
  | [] => (n, taken)
  | d :: rest =>
    if 10 * n + d ≤ Numeral.maxCount then collect (10 * n + d) (taken + 1) rest else (n, taken)

/-- Scales a double by `10 ^ e`. Powers of ten up to `10 ^ 308` are doubles; a smaller result is
reached in steps, a larger one does not exist. The steps end because three of them take every
64-bit number to zero. -/
def scaleBy : Nat → Float → Int → Option Float
  | 0, _, _ => none
  | steps + 1, f, e =>
    if e.natAbs ≤ 308 then
      let power := OfScientific.ofScientific 1 false e.natAbs
      if 0 ≤ e then
        let r := f * power
        if r.isInf then none else some r
      else some (f / power)
    else if f == 0 then some f
    else if 0 ≤ e then none
    else scaleBy steps (f / OfScientific.ofScientific 1 false 308) (e + 308)

/-- The double that a numeral is read as; none if it is too large. -/
def ofNumeral? (n : Numeral) : Option Float :=
  let whole := Numeral.digitsOf n.whole
  let (kept, taken) := collect 0 0 whole
  let (digits, places) := collect kept 0 (n.fraction.getD [])
  let exponent := ((whole.length - taken : Nat) : Int) - places + n.exponent.getD 0
  let magnitude :=
    if n.fraction.isNone && n.exponent.isNone && taken = whole.length then
      some (UInt64.ofNat digits).toFloat
    else scaleBy 4 (UInt64.ofNat digits).toFloat exponent
  magnitude.map fun f => if n.negative then -f else f

end Double

end NandHdl
