-- SUMMARY: Elaborating module bodies and instances, and whole programs (`elaborate`).
import NandHdl.Elaboration.Value
import NandHdl.Config.Basic

/-!
# Bodies and instances

A body is elaborated in three steps: the widths of its targets are inferred, each target that is
no port is declared, and then the statements are wired in their order.

A call to a module is replaced by the body of the module. The arguments are values of the caller.
The first output takes the signals of the call's target, the others get signals of their own and
are published to the caller as members of the target.
-/

namespace NandHdl

/-! ## Bodies -/

/-- Declares the targets of a body. A target that is a port, or was declared before, is left. -/
def declareTargets (widths : NameMap Nat) (declared : NameSet) : List Statement → Elab Unit
  | [] => return
  | s :: rest => do
    if (← Elab.scope).isPort s.target || declared.contains s.target then
      declareTargets widths declared rest
    else
      discard (Elab.declare s.target (widths.getD s.target 1))
      declareTargets widths (declared.insert s.target) rest

/-- Elaborates one statement. -/
def elaborateStatement (cx : Context) (s : Statement) : Elab Unit := do
  let src ← s.bits cx
  let dst ← Elab.bitsOf s.target
  Elab.wire src dst

/-- Elaborates statements in their order. -/
def elaborateStatements (cx : Context) : List Statement → Elab Unit
  | [] => return
  | s :: rest => do
    elaborateStatement cx s
    elaborateStatements cx rest

/-- Declares the targets of a body with the widths that the statements ask for. -/
def declareBody (cx : Context) (statements : List Statement) : Elab Unit := do
  declareTargets (inferWidths (← Elab.scope) cx.program statements) {} statements

/-- Elaborates a body in the scope at hand. -/
def elaborateBody (cx : Context) (statements : List Statement) : Elab Unit := do
  declareBody cx statements
  elaborateStatements cx statements

/-! ## Instances -/

/-- Makes the bits of a value known to the netlist by their names. -/
def aliasBits (name : String) : Bits → Elab Unit
  | [] => return
  | [id] => Elab.modifyNetlist (·.addAlias name id)
  | bits => aliasFrom 0 bits
where
  /-- The bits from position `start` on. -/
  aliasFrom (start : Nat) : Bits → Elab Unit
    | [] => return
    | id :: rest => do
      Elab.modifyNetlist (·.addAlias (bitName name start) id)
      aliasFrom (start + 1) rest

/-- Names of the bits of `target` from position `start` up to `width`. -/
def missingBitNames (target : String) (start width : Nat) : List String :=
  (List.range (width - start)).map fun i => bitName target (start + i)

/-- The signals behind the first output of an instance. They are the bits of the target as far as
those reach. If the output is wider, a target that is a port keeps its width and the other bits
belong to the instance; any other target is widened. -/
def firstOutputBits (target : String) (width : Nat) (inst : Instance) : Elab Bits := do
  let bits ← Elab.bitsOf target
  let scope ← Elab.scope
  if bits.length ≥ width then return bits.take width
  let names := missingBitNames target bits.length width
  if scope.isPort target then
    return bits ++ (← Elab.newSignals inst.id (names.map (inst.namePrefix ++ ·)))
  if let [id] := bits then
    Elab.modifyNetlist (·.addAlias (bitName (scope.globalName target) 0) id)
  let bits := bits ++ (← Elab.newSignals scope.owner (names.map scope.globalName))
  Elab.modifyScope (·.bind target bits)
  return bits

/-- Binds the parameters of an instance to the values of its arguments. -/
def bindParams (inst : Instance) (child : Scope) : List Port → List Bits → Elab Scope
  | p :: ports, arg :: args => do
    let bits := resize arg (max 1 p.width)
    aliasBits (inst.namePrefix ++ p.name) bits
    bindParams inst ((child.bind p.name bits).addPort p.name) ports args
  | _, _ => return child

/-- Makes the outputs of an instance after the first, and publishes them to the caller. -/
def bindOutputs (target callerPrefix : String) (inst : Instance) (child : Scope) :
    List Port → Elab Scope
  | [] => return child
  | out :: rest => do
    let names := Elab.bitNames (inst.namePrefix ++ out.name) (max 1 out.width)
    let bits ← Elab.newSignals inst.id names
    let published := memberName target out.name
    aliasBits (callerPrefix ++ published) bits
    Elab.modifyScope (·.bind published bits)
    bindOutputs target callerPrefix inst ((child.bind out.name bits).addPort out.name) rest

/-- The target of an instance. Without a target of its own an instance makes one. -/
def instanceTarget (m : ModuleDecl) (id : InstanceId) (width : Nat) :
    Option String → Elab String
  | some target => return target
  | none => do
    let target := m.name ++ "_" ++ toString id
    discard (Elab.declare target width)
    return target

/-- The signals behind the first output of a module, if it has one. -/
def firstOutput (m : ModuleDecl) (target : String) (inst : Instance) : Elab Bits :=
  match m.outputs with
  | [] => return []
  | out :: _ => firstOutputBits target (max 1 out.width) inst

/-- Binds the first output of an instance to its signals. -/
def bindFirst (m : ModuleDecl) (inst : Instance) (child : Scope) (first : Bits) : Elab Scope := do
  match m.outputs with
  | [] => return child
  | out :: _ =>
    aliasBits (inst.namePrefix ++ out.name) first
    return (child.bind out.name first).addPort out.name

/-- Makes an instance of `m` on the values `args`. Answers the bits of its first output and the
scope for its body. -/
def openInstance (m : ModuleDecl) (args : List Bits) (target : Option String) :
    Elab (Bits × Scope) := do
  let caller ← Elab.scope
  let id := (← get).netlist.instances.size
  let namePrefix := caller.namePrefix ++ m.name ++ "_" ++ toString id ++ "_"
  let inst : Instance := { id, moduleName := m.name, parent := some caller.owner, namePrefix }
  Elab.modifyNetlist (·.addInstance m.name caller.owner namePrefix)
  let width := (m.outputs.head?.map fun out => max 1 out.width).getD 0
  let target ← instanceTarget m id width target
  let first ← firstOutput m target inst
  let child := (← Elab.scope).child m.name namePrefix id
  let child ← bindParams inst child m.params args
  let child ← bindFirst m inst child first
  let child ← bindOutputs target caller.namePrefix inst child (m.outputs.drop 1)
  return (first, child)

/-- Elaborates an instance of `m` on the values `args`, given how to elaborate its body. Answers
the bits of its first output. -/
def instantiate (m : ModuleDecl) (args : List Bits) (target : Option String) (body : Elab Unit) :
    Elab Bits := do
  let (first, child) ← openInstance m args target
  let caller ← Elab.scope
  Elab.modifyScope fun _ => child
  body
  Elab.modifyScope fun _ => caller
  return first

/-- The context of a body below which modules may be nested `depth` levels deep. -/
def contextAt (program : Program) (limit : Nat) : Nat → Context
  | 0 => { program, limit, expand := none }
  | depth + 1 =>
    { program, limit
      expand := some fun m args target =>
        instantiate m args target (elaborateBody (contextAt program limit depth) m.statements) }

/-! ## Programs -/

/-- The names by which an input of one bit is taken for the clock. -/
def clockNames : List String := ["clk", "clock"]

/-- Makes a constant. -/
def declareConstant (name : String) : Elab Unit := do
  let id ← Elab.newSignal name 0
  Elab.claimDriver id
  Elab.modifyScope (·.bind name [id])

/-- Marks signals as inputs of the circuit. They are driven from outside. -/
def markInputs : Bits → Elab Unit
  | [] => return
  | id :: rest => do
    let netlist ← Elab.ofChecked ((← get).netlist.addPrimaryInput id)
    Elab.modifyNetlist fun _ => netlist
    Elab.claimDriver id
    markInputs rest

/-- Marks signals as outputs of the circuit. -/
def markOutputs : Bits → Elab Unit
  | [] => return
  | id :: rest => do
    let netlist ← Elab.ofChecked ((← get).netlist.addPrimaryOutput id)
    Elab.modifyNetlist fun _ => netlist
    markOutputs rest

/-- Declares the inputs of the top module. -/
def declareInputs : List Port → Elab Unit
  | [] => return
  | p :: rest => do
    let bits ← Elab.declare p.name p.width
    markInputs bits
    if p.width = 1 && clockNames.contains p.name then
      Elab.modifyNetlist fun n => { n with clock := bits.head? }
    Elab.modifyScope (·.addPort p.name)
    declareInputs rest

/-- Declares the outputs of the top module. -/
def declareOutputs : List Port → Elab Unit
  | [] => return
  | p :: rest => do
    let bits ← Elab.declare p.name p.width
    markOutputs bits
    Elab.modifyScope (·.addPort p.name)
    declareOutputs rest

/-- Makes the constants and the ports of a top module. -/
def openTop (m : ModuleDecl) : Elab Unit := do
  declareConstant zeroName
  declareConstant oneName
  declareInputs m.params
  declareOutputs m.outputs

/-- Elaborates a top module. -/
def elaborateTop (cx : Context) (m : ModuleDecl) : Elab Unit := do
  openTop m
  elaborateBody cx m.statements

/-- Flattens the module `top` of a program. -/
def elaborate (program : Program) (top : String) (config : ElabConfig) :
    Except ElabError Netlist := do
  match program.find? top with
  | none => throw (.missingTopModule top)
  | some m =>
    let cx := contextAt program config.maxInlineDepth config.maxInlineDepth
    let (_, draft) ← (elaborateTop cx m).run (.empty top)
    match draft.netlist.validate with
    | .ok () => return draft.netlist
    | .error e => throw (.netlist e)

end NandHdl
