-- SUMMARY: Programs (`Program`): modules with ports and statements `target = expression`, and the expressions themselves.

/-!
# Programs

A program is a list of modules. A module has input ports, output ports and statements, and a
statement gives the value of an expression to a target. There are two primitive modules, `nand`
and `dff`; every other call names a module of the program.

A value is a row of bits. Bit 0 is the lowest. The parts of a concatenation are written highest
first.
-/

namespace NandHdl

/-- The right-hand side of a statement. -/
inductive Expr where
  /-- A literal, a word of at most 64 bits. -/
  | number (value : UInt64)
  /-- The value of a port or a target. -/
  | ident (name : String)
  /-- One bit: `object[position]`. -/
  | index (object : Expr) (position : Nat)
  /-- The bits from `first` to `last`, both included: `object[first:last]`. -/
  | slice (object : Expr) (first last : Nat)
  /-- A further output of an instance: `object.field`. -/
  | member (object : Expr) (field : String)
  /-- Several values side by side, highest first: `{a, b}`. -/
  | concat (parts : List Expr)
  /-- A primitive or a module of the program: `callee(args)`. -/
  | call (callee : String) (args : List Expr)
  deriving Repr, BEq, Inhabited

/-- An input or output of a module. -/
structure Port where
  name : String
  width : Nat := 1
  deriving Repr, DecidableEq, Inhabited

/-- `target = expr`. -/
structure Statement where
  target : String
  expr : Expr
  deriving Repr, BEq, Inhabited

/-- A module: its interface and the statements of its body. -/
structure ModuleDecl where
  name : String
  params : List Port := []
  outputs : List Port := []
  statements : List Statement := []
  deriving Repr, BEq, Inhabited

/-- A program: its modules in the order of their declaration. -/
structure Program where
  modules : List ModuleDecl := []
  deriving Repr, BEq, Inhabited

/-- The first module of the given name. -/
def Program.find? (p : Program) (name : String) : Option ModuleDecl :=
  p.modules.find? (·.name == name)

/-! ## Primitives -/

/-- The callee of the two-input gate. -/
def nandName : String := "nand"

/-- The callee of the flip-flop. -/
def dffName : String := "dff"

/-! ## Building modules -/

namespace ModuleDecl

/-- The module with one more input. -/
def param (m : ModuleDecl) (name : String) (width : Nat) : ModuleDecl :=
  { m with params := m.params ++ [{ name, width }] }

/-- The module with one more output. -/
def output (m : ModuleDecl) (name : String) (width : Nat) : ModuleDecl :=
  { m with outputs := m.outputs ++ [{ name, width }] }

/-- The module with one more statement. -/
def assign (m : ModuleDecl) (target : String) (expr : Expr) : ModuleDecl :=
  { m with statements := m.statements ++ [{ target, expr }] }

end ModuleDecl

/-! ## Printing -/

mutual

/-- The text of an expression. -/
def Expr.render : Expr → String
  | .number value => toString value.toNat
  | .ident name => name
  | .index object position => object.render ++ "[" ++ toString position ++ "]"
  | .slice object first last =>
    object.render ++ "[" ++ toString first ++ ":" ++ toString last ++ "]"
  | .member object field => object.render ++ "." ++ field
  | .concat parts => "\x7b" ++ Expr.renderAll parts ++ "\x7d"
  | .call callee args => callee ++ "(" ++ Expr.renderAll args ++ ")"

/-- The texts of several expressions with `, ` between them. -/
def Expr.renderAll : List Expr → String
  | [] => ""
  | [e] => e.render
  | e :: rest => e.render ++ ", " ++ Expr.renderAll rest

end

/-- The text of a statement. -/
def Statement.render (s : Statement) : String :=
  s.target ++ " = " ++ s.expr.render

end NandHdl
