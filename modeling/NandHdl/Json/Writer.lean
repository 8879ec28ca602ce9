-- SUMMARY: Writing JSON, on one line (`Json.compress`) and indented (`Json.pretty`).
import NandHdl.Json.Basic

/-!
# Writing JSON

A quote, a backslash and the control characters are escaped, every other character stands for
itself. The indented form puts each item on a line of its own, two spaces deeper than what holds
it; an empty array or object stays on one line.
-/

namespace NandHdl.Json

/-- The lower-case hexadecimal digit of a number below 16. -/
def hexDigit (n : Nat) : Char :=
  if n < 10 then Char.ofNat ('0'.toNat + n) else Char.ofNat ('a'.toNat + (n - 10))

/-- The characters that stand for `c` in a string literal. -/
def escapeChar (c : Char) : List Char :=
  if c == '"' then ['\\', '"']
  else if c == '\\' then ['\\', '\\']
  else if c == '\x08' then ['\\', 'b']
  else if c == '\t' then ['\\', 't']
  else if c == '\n' then ['\\', 'n']
  else if c == '\x0c' then ['\\', 'f']
  else if c == '\r' then ['\\', 'r']
  else if c.toNat < 0x20 then
    ['\\', 'u', '0', '0', hexDigit (c.toNat / 16), hexDigit (c.toNat % 16)]
  else [c]

/-- The string literal of a text. -/
def quote (s : String) : String :=
  "\"" ++ String.ofList (s.toList.flatMap escapeChar) ++ "\""

/-- The literal of a string value. What is no text is written empty. -/
def quoteText : Json.Text → String
  | some s => quote s
  | none => quote ""

mutual

/-- The text of a value on one line, without blanks. -/
def compress : Json → String
  | .null => "null"
  | .bool b => if b then "true" else "false"
  | .number n => n.render
  | .string t => quoteText t
  | .array items => "[" ++ compressItems items ++ "]"
  | .object fields => "\x7b" ++ compressFields fields ++ "\x7d"

/-- The items of an array with commas between them. -/
def compressItems : List Json → String
  | [] => ""
  | [item] => compress item
  | item :: rest => compress item ++ "," ++ compressItems rest

/-- The fields of an object with commas between them. -/
def compressFields : List (Json.Text × Json) → String
  | [] => ""
  | [(name, value)] => quoteText name ++ ":" ++ compress value
  | (name, value) :: rest => quoteText name ++ ":" ++ compress value ++ "," ++ compressFields rest

end

/-- A new line with the indentation of the given depth. -/
def newline (depth : Nat) : String := "\n" ++ String.ofList (List.replicate (2 * depth) ' ')

mutual

/-- The indented text of a value whose first line is at the given depth. -/
def prettyAt (depth : Nat) : Json → String
  | .null => "null"
  | .bool b => if b then "true" else "false"
  | .number n => n.render
  | .string t => quoteText t
  | .array [] => "[]"
  | .array items => "[" ++ prettyItems (depth + 1) items ++ newline depth ++ "]"
  | .object [] => "\x7b\x7d"
  | .object fields => "\x7b" ++ prettyFields (depth + 1) fields ++ newline depth ++ "\x7d"

/-- The items of an array, each on a line of its own. -/
def prettyItems (depth : Nat) : List Json → String
  | [] => ""
  | [item] => newline depth ++ prettyAt depth item
  | item :: rest => newline depth ++ prettyAt depth item ++ "," ++ prettyItems depth rest

/-- The fields of an object, each on a line of its own. -/
def prettyFields (depth : Nat) : List (Json.Text × Json) → String
  | [] => ""
  | [(name, value)] => newline depth ++ quoteText name ++ ": " ++ prettyAt depth value
  | (name, value) :: rest =>
    newline depth ++ quoteText name ++ ": " ++ prettyAt depth value ++ "," ++
      prettyFields depth rest

end

/-- The indented text of a value. -/
def pretty (j : Json) : String := prettyAt 0 j

end NandHdl.Json
