-- SUMMARY: Decoding JSON: counts, texts, lists and records (`Json.record?`), with a bound on how many arrays and objects are open.
import NandHdl.Json.Basic
import NandHdl.Decimal.Double

/-!
# Decoding JSON

A decoder looks only at what it needs. The value of a field that no one asks for may be nested to
any depth and may hold string literals that are no texts.

What a decoder does look at is nested at most `maxOpen` deep. The functions that open an array or
an object take the number of arrays and objects that may still be opened.

A record is an object or an array. In an object each field has its name, unknown names are passed
over and a known name stands at most once. In an array the fields stand in the order of their
declaration, and fields at the end may be missing.
-/

namespace NandHdl.Json

/-- How many arrays and objects may be open at once. -/
def maxOpen : Nat := 127

/-- A text. -/
def text? : Json → Option String
  | .string t => t
  | _ => none

/-- A truth value. -/
def bool? : Json → Option Bool
  | .bool b => some b
  | _ => none

/-- A count. -/
def count? : Json → Option Nat
  | .number n => n.count?
  | _ => none

/-- A 64-bit word. -/
def word? (j : Json) : Option UInt64 := j.count?.map UInt64.ofNat

/-- A double, from any number. -/
def double? : Json → Option Float
  | .number n => Double.ofNumeral? n
  | _ => none

/-- A value that may be `null`. -/
def nullable? {α : Type} (decode : Json → Option α) : Json → Option (Option α)
  | .null => some none
  | j => (decode j).map some

/-- The items of an array. They are decoded with one opening less. -/
def list? {α : Type} (decode : Nat → Json → Option α) : Nat → Json → Option (List α)
  | left + 1, .array items => items.mapM (decode left)
  | _, _ => none

/-- The entries of an object with arbitrary names. Of two entries with one name both are there,
in the order of the text. -/
def entries? {α : Type} (decode : Nat → Json → Option α) :
    Nat → Json → Option (List (String × α))
  | left + 1, .object fields =>
    fields.mapM fun (name, value) => do return (← name, ← decode left value)
  | _, _ => none

/-- The value of the field `name`. There is at most one. -/
def field? (fields : List (String × Json)) (name : String) : Option (Option Json) :=
  match fields.filter (·.1 == name) with
  | [] => some none
  | [(_, value)] => some (some value)
  | _ => none

/-- The named fields with their names as texts. -/
def named? (fields : List (Json.Text × Json)) : Option (List (String × Json)) :=
  fields.mapM fun (name, value) => name.map fun n => (n, value)

/-- The fields of a record, in the order of `names`, and the openings that are left inside. -/
def record? (names : List String) : Nat → Json → Option (Nat × List (Option Json))
  | left + 1, .object fields => do
    let fields ← named? fields
    return (left, ← names.mapM (field? fields))
  | left + 1, .array items =>
    if items.length ≤ names.length then
      some (left, items.map some ++ List.replicate (names.length - items.length) none)
    else none
  | _, _ => none

/-- A field that must be there. -/
def required {α : Type} (decode : Json → Option α) (field : Option Json) : Option α :=
  field.bind decode

/-- A field with a default. A field that is there must be right. -/
def optional {α : Type} (default : α) (decode : Json → Option α) : Option Json → Option α
  | none => some default
  | some j => decode j

mutual

/-- Whether every part of a value could be decoded: all string literals are texts, all numbers are
counts or doubles, and at most `left` arrays and objects are open at once. -/
def readable : Nat → Json → Bool
  | _, .null => true
  | _, .bool _ => true
  | _, .number n => (Double.ofNumeral? n).isSome
  | _, .string t => t.isSome
  | 0, .array _ => false
  | left + 1, .array items => readableItems left items
  | 0, .object _ => false
  | left + 1, .object fields => readableFields left fields

/-- Whether every item is readable. -/
def readableItems : Nat → List Json → Bool
  | _, [] => true
  | left, item :: rest => readable left item && readableItems left rest

/-- Whether every name is a text and every value readable. -/
def readableFields : Nat → List (Json.Text × Json) → Bool
  | _, [] => true
  | left, (name, value) :: rest =>
    name.isSome && readable left value && readableFields left rest

end

end NandHdl.Json
