-- SUMMARY: The strict JSON reader (`Json.parse?`): a text is one value between blanks, or it is no JSON.
import NandHdl.Json.Basic
import NandHdl.Text

/-!
# Reading JSON

The reader works on a list of characters. A function for a part of the grammar takes the
characters that are left and answers the part together with the characters after it. Values nest,
so the reader of values carries a bound on the steps it may still take. Each step but the first
uses a character, and `Json.parse?` starts with two steps for each character.
-/

namespace NandHdl.Json

/-- A part that was read, and what is left of the text. -/
abbrev Read (α : Type) := Option (α × List Char)

/-- The four blanks of JSON. -/
def isBlank (c : Char) : Bool := c == ' ' || c == '\n' || c == '\t' || c == '\r'

/-- The text without its leading blanks. -/
def skipBlanks (cs : List Char) : List Char := cs.dropWhile isBlank

/-! ## Strings -/

/-- The character of a one-letter escape. -/
def unescape? : Char → Option Char
  | '"' => some '"'
  | '\\' => some '\\'
  | '/' => some '/'
  | 'b' => some '\x08'
  | 'f' => some '\x0c'
  | 'n' => some '\n'
  | 'r' => some '\r'
  | 't' => some '\t'
  | _ => none

/-- Where the reader of a string literal stands. -/
inductive StringState where
  | plain
  /-- After a backslash. -/
  | escape
  /-- Inside `\uXXXX`, with `left` digits to come. -/
  | hex (left : Nat) (value : Nat)

/-- What has been read of a string literal. -/
structure StringSoFar where
  /-- The characters read, the last one first. -/
  chars : List Char := []
  /-- The first half of a surrogate pair that waits for its second half. -/
  half : Option Nat := none
  /-- Whether all halves so far have found each other. -/
  paired : Bool := true

namespace StringSoFar

/-- Adds a character. A half that waits is left alone. -/
def push (s : StringSoFar) (c : Char) : StringSoFar :=
  { chars := c :: s.chars, half := none, paired := s.paired && s.half.isNone }

/-- Adds a 16-bit unit given by its number. -/
def pushUnit (s : StringSoFar) (unit : Nat) : StringSoFar :=
  if 0xDC00 ≤ unit && unit ≤ 0xDFFF then
    match s.half with
    | some high =>
      { s with
        chars := Char.ofNat ((high - 0xD800) * 0x400 + (unit - 0xDC00) + 0x10000) :: s.chars
        half := none }
    | none => { s with paired := false }
  else if 0xD800 ≤ unit && unit ≤ 0xDBFF then
    { s with half := some unit, paired := s.paired && s.half.isNone }
  else s.push (Char.ofNat unit)

/-- The text of a literal that ends here. -/
def text (s : StringSoFar) : Json.Text :=
  if s.paired && s.half.isNone then some (String.ofList s.chars.reverse) else none

end StringSoFar

/-- A string literal from after its opening quote on. -/
def readString (state : StringState) (s : StringSoFar) : List Char → Read Json.Text
  | [] => none
  | c :: rest =>
    match state with
    | .plain =>
      if c == '"' then some (s.text, rest)
      else if c == '\\' then readString .escape s rest
      else if c.toNat < 0x20 then none
      else readString .plain (s.push c) rest
    | .escape =>
      if c == 'u' then readString (.hex 4 0) s rest
      else match unescape? c with
        | some d => readString .plain (s.push d) rest
        | none => none
    | .hex left value =>
      match Text.digit? 16 c with
      | none => none
      | some d =>
        if left ≤ 1 then readString .plain (s.pushUnit (16 * value + d)) rest
        else readString (.hex (left - 1) (16 * value + d)) s rest

/-! ## Numbers -/

/-- At least one digit, and what follows the digits. -/
def readDigits (cs : List Char) : Read (List Nat) :=
  match cs.takeWhile Char.isDigit with
  | [] => none
  | digits => some (digits.map Numeral.digitValue, cs.dropWhile Char.isDigit)

/-- The point and the digits after it, if a point comes next. -/
def readFraction : List Char → Read (Option (List Nat))
  | '.' :: rest => (readDigits rest).map fun (digits, left) => (some digits, left)
  | cs => some (none, cs)

/-- The power of ten, if one comes next. -/
def readExponent : List Char → Read (Option Int)
  | c :: rest =>
    if c == 'e' || c == 'E' then
      match rest with
      | '+' :: cs => (readDigits cs).map fun (ds, left) => (some (Numeral.ofDigits ds : Int), left)
      | '-' :: cs => (readDigits cs).map fun (ds, left) => (some (-(Numeral.ofDigits ds : Int)), left)
      | cs => (readDigits cs).map fun (ds, left) => (some (Numeral.ofDigits ds : Int), left)
    else some (none, c :: rest)
  | [] => some (none, [])

/-- A number from after its sign on. Its whole part has no leading zero. -/
def readMagnitude (negative : Bool) (cs : List Char) : Read Numeral :=
  match readDigits cs with
  | none => none
  | some (digits, cs) =>
    if digits.length > 1 && digits.head? == some 0 then none
    else match readFraction cs with
      | none => none
      | some (fraction, cs) =>
        (readExponent cs).map fun (exponent, left) =>
          ({ negative, whole := Numeral.ofDigits digits, fraction, exponent }, left)

/-- A number. -/
def readNumeral : List Char → Read Numeral
  | '-' :: rest => readMagnitude true rest
  | cs => readMagnitude false cs

/-! ## Values -/

/-- The rest of the text after the given word, if it starts with it. -/
def afterWord (word : String) (cs : List Char) : Option (List Char) :=
  if word.toList.isPrefixOf cs then some (cs.drop word.length) else none

/-- A literal word or a number. -/
def readAtom (cs : List Char) : Read Json :=
  match afterWord "null" cs, afterWord "true" cs, afterWord "false" cs with
  | some rest, _, _ => some (.null, rest)
  | _, some rest, _ => some (.bool true, rest)
  | _, _, some rest => some (.bool false, rest)
  | none, none, none => (readNumeral cs).map fun (n, rest) => (.number n, rest)

mutual

/-- A value, after blanks. -/
def readValue : Nat → List Char → Read Json
  | 0, _ => none
  | steps + 1, cs =>
    match skipBlanks cs with
    | '"' :: rest => (readString .plain {} rest).map fun (t, left) => (.string t, left)
    | '[' :: rest =>
      match skipBlanks rest with
      | ']' :: left => some (.array [], left)
      | _ => (readItems steps rest).map fun (items, left) => (.array items, left)
    | '{' :: rest =>
      match skipBlanks rest with
      | '}' :: left => some (.object [], left)
      | _ => (readFields steps rest).map fun (fields, left) => (.object fields, left)
    | cs => readAtom cs

/-- The items of an array that is not empty, up to its closing bracket. -/
def readItems : Nat → List Char → Read (List Json)
  | 0, _ => none
  | steps + 1, cs =>
    match readValue steps cs with
    | none => none
    | some (item, left) =>
      match skipBlanks left with
      | ',' :: rest => (readItems steps rest).map fun (items, left) => (item :: items, left)
      | ']' :: rest => some ([item], rest)
      | _ => none

/-- The fields of an object that is not empty, up to its closing brace. -/
def readFields : Nat → List Char → Read (List (Json.Text × Json))
  | 0, _ => none
  | steps + 1, cs =>
    match skipBlanks cs with
    | '"' :: rest =>
      match readString .plain {} rest with
      | none => none
      | some (name, left) =>
        match skipBlanks left with
        | ':' :: rest =>
          match readValue steps rest with
          | none => none
          | some (value, left) =>
            match skipBlanks left with
            | ',' :: rest =>
              (readFields steps rest).map fun (fields, left) => ((name, value) :: fields, left)
            | '}' :: rest => some ([(name, value)], rest)
            | _ => none
        | _ => none
    | _ => none

end

/-- The value that a text holds. Only blanks may stand around it. -/
def parse? (text : String) : Option Json :=
  let cs := text.toList
  match readValue (2 * cs.length + 2) cs with
  | some (value, left) => if (skipBlanks left).isEmpty then some value else none
  | none => none

end NandHdl.Json
