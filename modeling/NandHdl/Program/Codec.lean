-- SUMMARY: The JSON form of programs: `Program.toJson` writes it, `Program.ofJson?` reads it and its shorter array form.
import NandHdl.Program
import NandHdl.Json.Decode
import NandHdl.Json.Reader

/-!
# Programs as JSON

Every record is written as an object with all its fields. An expression is an object whose `type`
field names the kind of expression.

Reading accepts more: records may be arrays, fields with a default may be missing, and an
expression may be an array that starts with its kind. Inside another expression the kind may also
be given by its position in the list of kinds. An expression is looked at as a whole, so all of it
must be readable.
-/

namespace NandHdl

/-- The kinds of expression, as they are named in JSON. -/
inductive Expr.Kind where
  | number | ident | index | slice | member | concat | call
  deriving Repr, DecidableEq

namespace Expr.Kind

/-- All kinds, in the order of their positions. -/
def all : List Expr.Kind := [.number, .ident, .index, .slice, .member, .concat, .call]

/-- The name of a kind. -/
def name : Expr.Kind → String
  | .number => "Number"
  | .ident => "Identifier"
  | .index => "Index"
  | .slice => "Slice"
  | .member => "Member"
  | .concat => "Concat"
  | .call => "Call"

/-- The fields of an expression of this kind. -/
def fields : Expr.Kind → List String
  | .number => ["value"]
  | .ident => ["name"]
  | .index => ["object", "index"]
  | .slice => ["object", "start", "end"]
  | .member => ["object", "field"]
  | .concat => ["parts"]
  | .call => ["callee", "args"]

/-- A kind given by its name or, inside another expression, by its position. -/
def ofJson? (inner : Bool) : Json → Option Expr.Kind
  | .string (some s) => all.find? (·.name == s)
  | .number n => if inner then n.count?.bind fun i => all[i]? else none
  | _ => none

end Expr.Kind

/-! ## Writing -/

/-- The object form of an expression. -/
def Expr.taggedJson (kind : Expr.Kind) (values : List Json) : Json :=
  .ofFields (("type", .ofString kind.name) :: kind.fields.zip values)

mutual

/-- The JSON form of an expression. -/
def Expr.toJson : Expr → Json
  | .number value => Expr.taggedJson .number [.ofNat value.toNat]
  | .ident name => Expr.taggedJson .ident [.ofString name]
  | .index object position => Expr.taggedJson .index [object.toJson, .ofNat position]
  | .slice object first last =>
    Expr.taggedJson .slice [object.toJson, .ofNat first, .ofNat last]
  | .member object field => Expr.taggedJson .member [object.toJson, .ofString field]
  | .concat parts => Expr.taggedJson .concat [.array (Expr.toJsonAll parts)]
  | .call callee args => Expr.taggedJson .call [.ofString callee, .array (Expr.toJsonAll args)]

/-- The JSON forms of several expressions. -/
def Expr.toJsonAll : List Expr → List Json
  | [] => []
  | e :: rest => e.toJson :: Expr.toJsonAll rest

end

/-- The JSON form of a port. -/
def Port.toJson (p : Port) : Json :=
  .ofFields [("name", .ofString p.name), ("width", .ofNat p.width)]

/-- The JSON form of a statement. -/
def Statement.toJson (s : Statement) : Json :=
  .ofFields [("target", .ofString s.target), ("expr", s.expr.toJson)]

/-- The JSON form of a module. -/
def ModuleDecl.toJson (m : ModuleDecl) : Json :=
  .ofFields
    [("name", .ofString m.name), ("params", .ofList Port.toJson m.params),
     ("outputs", .ofList Port.toJson m.outputs),
     ("statements", .ofList Statement.toJson m.statements)]

/-- The JSON form of a program. -/
def Program.toJson (p : Program) : Json :=
  .ofFields [("modules", .ofList ModuleDecl.toJson p.modules)]

/-! ## Reading -/

/-- The kind of an expression and its other fields, as an object or array without the kind. -/
def Expr.split? (inner : Bool) : Json → Option (Expr.Kind × Json)
  | .object fields => do
    let named ← Json.named? fields
    let tag ← Json.required (Expr.Kind.ofJson? inner) (← Json.field? named "type")
    return (tag, .ofFields (named.filter (·.1 != "type")))
  | .array (tag :: rest) => do return (← Expr.Kind.ofJson? inner tag, .array rest)
  | _ => none

/-- The expression of a kind from the values of its fields, with readers for an expression inside it
and for several. -/
def Expr.ofFields? (object : Json → Option Expr) (several : Json → Option (List Expr)) :
    Expr.Kind → List (Option Json) → Option Expr
  | .number, [value] => return .number (← Json.required Json.word? value)
  | .ident, [name] => return .ident (← Json.required Json.text? name)
  | .index, [base, position] =>
    return .index (← Json.required object base) (← Json.required Json.count? position)
  | .slice, [base, first, last] =>
    return .slice (← Json.required object base) (← Json.required Json.count? first)
      (← Json.required Json.count? last)
  | .member, [base, field] =>
    return .member (← Json.required object base) (← Json.required Json.text? field)
  | .concat, [parts] => return .concat (← Json.required several parts)
  | .call, [callee, args] =>
    return .call (← Json.required Json.text? callee) (← Json.optional [] several args)
  | _, _ => none

mutual

/-- Reads an expression that may open `left` arrays and objects. -/
def Expr.ofJson? (inner : Bool) : Nat → Json → Option Expr
  | 0, _ => none
  | left + 1, j => do
    let (kind, body) ← Expr.split? inner j
    let (_, values) ← Json.record? kind.fields 1 body
    Expr.ofFields? (Expr.ofJson? true left) (Expr.listOfJson? left) kind values

/-- Reads an array of expressions that may open `left` arrays and objects, itself included. -/
def Expr.listOfJson? : Nat → Json → Option (List Expr)
  | left + 1, .array items => items.mapM (Expr.ofJson? true left)
  | _, _ => none

end

/-- Reads a port. -/
def Port.ofJson? (left : Nat) (j : Json) : Option Port := do
  let (_, values) ← Json.record? ["name", "width"] left j
  match values with
  | [name, width] =>
    return { name := ← Json.required Json.text? name
             width := ← Json.optional 1 Json.count? width }
  | _ => none

/-- Reads a statement. -/
def Statement.ofJson? (left : Nat) (j : Json) : Option Statement := do
  let (inside, values) ← Json.record? ["target", "expr"] left j
  match values with
  | [target, some expr] =>
    if expr.readable inside then
      return { target := ← Json.required Json.text? target
               expr := ← Expr.ofJson? false inside expr }
    else none
  | _ => none

/-- Reads a module. -/
def ModuleDecl.ofJson? (left : Nat) (j : Json) : Option ModuleDecl := do
  let (inside, values) ← Json.record? ["name", "params", "outputs", "statements"] left j
  match values with
  | [name, params, outputs, statements] =>
    return { name := ← Json.required Json.text? name
             params := ← Json.optional [] (Json.list? Port.ofJson? inside) params
             outputs := ← Json.optional [] (Json.list? Port.ofJson? inside) outputs
             statements := ← Json.optional [] (Json.list? Statement.ofJson? inside) statements }
  | _ => none

/-- Reads a program. -/
def Program.ofJson? (j : Json) : Option Program := do
  let (inside, values) ← Json.record? ["modules"] Json.maxOpen j
  match values with
  | [modules] =>
    return { modules := ← Json.required (Json.list? ModuleDecl.ofJson? inside) modules }
  | _ => none

/-- Why a text holds no program or settings. -/
inductive FormError where
  /-- The text is no JSON. -/
  | syntaxError
  /-- The JSON does not have the expected form. -/
  | shape
  deriving Repr, DecidableEq

/-- The sentence for a wrong form. -/
def FormError.message : FormError → String
  | .syntaxError => "the text is not JSON"
  | .shape => "the JSON does not have the expected form"

/-- Parses a text and decodes it. -/
def Json.load {α : Type} (decode : Json → Option α) (text : String) : Except FormError α :=
  match Json.parse? text with
  | none => .error .syntaxError
  | some j =>
    match decode j with
    | none => .error .shape
    | some a => .ok a

end NandHdl
