-- SUMMARY: Widths without elaboration: of expressions (`Expr.width`) and of the targets of a body (`inferWidths`).
import NandHdl.Program
import NandHdl.Scope

/-!
# Widths

The width of an expression follows from its shape and the widths of the names in it. A body may
read a target before the statement that assigns it, so the widths of targets are found by passes
over all statements. An assignment only ever widens its target, while a further output of an
instance has its declared width again in every pass. The passes end when one changes nothing, or
after one pass more than there are statements.
-/

namespace NandHdl

/-- How many binary digits a literal has. Zero has one. -/
def literalWidth (value : UInt64) : Nat :=
  if value = 0 then 1 else value.toNat.log2 + 1

/-- The name of a further output of an instance. -/
def memberName (object field : String) : String := object ++ "." ++ field

/-- The width of a name: as inferred so far, otherwise as bound in the scope. -/
def knownWidth (scope : Scope) (pending : NameMap Nat) (name : String) : Nat :=
  pending.getD name (scope.widthOf name)

/-- The width of a call. An unknown module counts as one bit, a module without outputs as none. -/
def callWidth (program : Program) (callee : String) : Nat :=
  if callee = nandName ∨ callee = dffName then 1
  else match program.find? callee with
    | some m => (m.outputs.head?.map Port.width).getD 0
    | none => 1

mutual

/-- The width of an expression. -/
def Expr.width (scope : Scope) (program : Program) (pending : NameMap Nat) : Expr → Nat
  | .number value => literalWidth value
  | .ident name => knownWidth scope pending name
  | .index _ _ => 1
  | .slice _ first last => last - first + 1
  | .member (.ident object) field => knownWidth scope pending (memberName object field)
  | .member _ _ => 1
  | .concat parts => (Expr.widths scope program pending parts).foldr (· + ·) 0
  | .call callee _ => callWidth program callee

/-- The widths of several expressions. -/
def Expr.widths (scope : Scope) (program : Program) (pending : NameMap Nat) :
    List Expr → List Nat
  | [] => []
  | e :: rest => e.width scope program pending :: Expr.widths scope program pending rest

end

/-! ## Inference -/

/-- The state of a pass: the widths so far, and whether the pass has added or widened one. -/
structure WidthPass where
  widths : NameMap Nat := {}
  changed : Bool := false

namespace WidthPass

/-- Notes the declared width of a further output. -/
def publish (p : WidthPass) (name : String) (width : Nat) : WidthPass :=
  { widths := p.widths.insert name width, changed := p.changed || !p.widths.contains name }

/-- Widens a target. -/
def widen (p : WidthPass) (name : String) (width : Nat) : WidthPass :=
  if width > p.widths.getD name 0 then { widths := p.widths.insert name width, changed := true }
  else p

/-- Notes the further outputs of the module that a statement calls. -/
def publishOutputs (program : Program) (p : WidthPass) (s : Statement) : WidthPass :=
  match s.expr with
  | .call callee _ =>
    match program.find? callee with
    | some m =>
      (m.outputs.drop 1).foldl (fun p out => p.publish (memberName s.target out.name) out.width) p
    | none => p
  | _ => p

/-- The width that a statement asks for its target. A literal alone is no bus: its target takes
the lowest bit. -/
def wanted (scope : Scope) (program : Program) (widths : NameMap Nat) : Expr → Nat
  | .number _ => 1
  | e => max 1 (e.width scope program widths)

/-- One statement. Ports keep the width they have. -/
def statement (scope : Scope) (program : Program) (p : WidthPass) (s : Statement) : WidthPass :=
  let p := p.publishOutputs program s
  if scope.isPort s.target then p
  else p.widen s.target (wanted scope program p.widths s.expr)

/-- One pass over all statements. -/
def run (scope : Scope) (program : Program) (statements : List Statement)
    (widths : NameMap Nat) : WidthPass :=
  statements.foldl (statement scope program) { widths }

/-- At most the given number of passes; a pass that changes nothing is the last. -/
def repeated (scope : Scope) (program : Program) (statements : List Statement) :
    Nat → NameMap Nat → NameMap Nat
  | 0, widths => widths
  | passes + 1, widths =>
    let p := run scope program statements widths
    if p.changed then repeated scope program statements passes p.widths else p.widths

end WidthPass

/-- The widths of the targets of a body that are no ports, and of the further outputs of the
modules it calls. -/
def inferWidths (scope : Scope) (program : Program) (statements : List Statement) : NameMap Nat :=
  WidthPass.repeated scope program statements (statements.length + 1) {}

end NandHdl
