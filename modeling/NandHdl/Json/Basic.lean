-- SUMMARY: JSON values (`Json`) as a strict reader sees them: object fields in order and with duplicates, numbers as numerals.
import NandHdl.Decimal.Numeral

/-!
# JSON values

A `Json` keeps what a decoder needs to judge a text: all fields of an object in the order of the
text, repeated names included, and numbers as numerals.

A string literal can hold an escape that is half of a surrogate pair. Such a literal is correct
JSON, but no text. It is kept as `none`, because it does harm only where a decoder looks at it.
-/

namespace NandHdl

/-- The text of a string literal, if there is one. -/
abbrev Json.Text := Option String

/-- A JSON value. -/
inductive Json where
  | null
  | bool (b : Bool)
  | number (n : Numeral)
  | string (t : Json.Text)
  | array (items : List Json)
  | object (fields : List (Json.Text × Json))
  deriving Inhabited

namespace Json

/-- A count as a JSON number. -/
def ofNat (n : Nat) : Json := .number (.ofNat n)

/-- A text as a JSON string. -/
def ofString (s : String) : Json := .string (some s)

/-- A value, or `null` for none. -/
def ofOption {α : Type} (f : α → Json) : Option α → Json
  | some a => f a
  | none => .null

/-- An array. -/
def ofList {α : Type} (f : α → Json) (xs : List α) : Json := .array (xs.map f)

/-- An object with the given fields. -/
def ofFields (fields : List (String × Json)) : Json :=
  .object (fields.map fun (name, value) => (some name, value))

end Json

end NandHdl
