-- SUMMARY: Text in general: blanks of Unicode, trimming, cutting at a character, digits of any radix up to 36, and padding.

/-!
# Text

Characters are code points. The blanks are those of the `White_Space` property of Unicode.
-/

namespace NandHdl.Text

/-- Whether a character has the `White_Space` property. -/
def isBlank (c : Char) : Bool :=
  let n := c.toNat
  (0x9 ≤ n && n ≤ 0xD) || n == 0x20 || n == 0x85 || n == 0xA0 || n == 0x1680 ||
    (0x2000 ≤ n && n ≤ 0x200A) || n == 0x2028 || n == 0x2029 || n == 0x202F || n == 0x205F ||
    n == 0x3000

/-- The characters without blanks at either end. -/
def trimChars (cs : List Char) : List Char :=
  ((cs.dropWhile isBlank).reverse.dropWhile isBlank).reverse

/-- The text without blanks at either end. -/
def trim (s : String) : String := String.ofList (trimChars s.toList)

/-- The characters before the first `c` and those after it, if there is a `c`. -/
def cutChars? (c : Char) (cs : List Char) : Option (List Char × List Char) :=
  match cs.dropWhile (· != c) with
  | [] => none
  | _ :: rest => some (cs.takeWhile (· != c), rest)

/-- The text before the first `c` and the text after it, if there is a `c`. -/
def cut? (c : Char) (s : String) : Option (String × String) :=
  (cutChars? c s.toList).map fun (before, after) => (String.ofList before, String.ofList after)

/-- The value of a digit: a decimal digit or a letter of either case. -/
def digitValue? (c : Char) : Option Nat :=
  if '0' ≤ c && c ≤ '9' then some (c.toNat - '0'.toNat)
  else if 'a' ≤ c && c ≤ 'z' then some (c.toNat - 'a'.toNat + 10)
  else if 'A' ≤ c && c ≤ 'Z' then some (c.toNat - 'A'.toNat + 10)
  else none

/-- The value of a digit of the given radix. -/
def digit? (radix : Nat) (c : Char) : Option Nat :=
  (digitValue? c).filter (· < radix)

/-- The number that digits of the given radix stand for, after the digits with the value `n`. -/
def digitsFrom? (radix n : Nat) : List Char → Option Nat
  | [] => some n
  | c :: rest => do digitsFrom? radix (radix * n + (← digit? radix c)) rest

/-- The 64-bit word that is written with digits of the given radix. There is at least one digit,
and a plus sign may stand before them. -/
def word? (radix : Nat) (cs : List Char) : Option UInt64 :=
  let digits := match cs with
    | '+' :: rest => rest
    | _ => cs
  if digits.isEmpty then none
  else match digitsFrom? radix 0 digits with
    | some n => if n < UInt64.size then some (UInt64.ofNat n) else none
    | none => none

/-- The text with blanks before it, so that it has at least `width` characters. -/
def padLeft (width : Nat) (s : String) : String :=
  String.ofList (List.replicate (width - s.length) ' ') ++ s

end NandHdl.Text
