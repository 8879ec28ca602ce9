-- SUMMARY: Everything that can go wrong (`Failure`) with its phase and kind, and the report made of it (`Report`).
import NandHdl.Elaboration.Error
import NandHdl.Netlist.Levels
import NandHdl.Simulation.Basic
import NandHdl.Store.Bytes
import NandHdl.Json.Writer

/-!
# Failures and reports

A failure is one of the errors of the parts of this library, or a text or file that cannot be
read. A report puts it in a uniform shape: the phase, the module concerned, a kind for programs to
look at, a sentence for people and, for some kinds, details.
-/

namespace NandHdl

/-- Why a request could not be carried out. -/
inductive Failure where
  /-- A text is not the JSON of a program. -/
  | json (text : String)
  /-- A file cannot be read or written. -/
  | io (text : String)
  | elaboration (e : ElabError)
  | levels (e : LevelizeError)
  | simulation (e : SimError)
  | store (e : StoreError)
  /-- A table of the optimizer does not fit. -/
  | fault (f : Fault)
  deriving Repr, DecidableEq, Inhabited

/-- What a report tells beside its sentence. -/
inductive ReportDetails where
  /-- The signals of a combinational cycle. -/
  | cycle (signals : List String)
  /-- The numbers of arguments of a call. -/
  | arity (expected found : Nat)
  deriving Repr, DecidableEq, Inhabited

/-- A failure in a uniform shape. -/
structure Report where
  phase : String
  moduleName : Option String
  kind : String
  message : String
  details : Option ReportDetails
  deriving Repr, DecidableEq, Inhabited

/-- The kind of a fault. -/
def Fault.kind : Fault → String := fun _ => "Fault"

/-- The kind of an error of elaboration. -/
def ElabError.kind : ElabError → String
  | .missingTopModule _ => "MissingTopModule"
  | .unknownModule _ _ => "UnknownModule"
  | .unknownSignal _ _ => "UnknownSignal"
  | .arityMismatch _ _ _ => "ArityMismatch"
  | .malformedExpr _ _ => "MalformedExpr"
  | .recursionLimit _ _ => "RecursionLimit"
  | .multipleDrivers _ => "MultipleDrivers"
  | .netlist _ => "InvalidNetlist"
  | .fault f => f.kind

/-- The kind of an error of the levelizer. -/
def LevelizeError.kind : LevelizeError → String
  | .combinationalCycle _ => "CombinationalCycle"
  | .invalidNetlist _ => "InvalidNetlist"
  | .fault f => f.kind

/-- The kind of a refusal of a simulation. -/
def SimError.kind : SimError → String
  | .unknownSignal _ => "UnknownSignal"
  | .notRecorded _ => "NotRecorded"
  | .widthOverflow _ _ => "WidthOverflow"
  | .valueOutOfRange _ _ _ => "ValueOutOfRange"
  | .fault f => f.kind

/-- The kind of a refused buffer. -/
def StoreError.kind : StoreError → String
  | .badMagic _ => "BadMagic"
  | .badVersion _ => "BadVersion"
  | .badLength _ _ => "BadLength"

namespace Failure

/-- The part of the tool that failed. -/
def phase : Failure → String
  | .json _ => "input"
  | .io _ => "io"
  | .elaboration _ => "elaborator"
  | .levels _ => "levelizer"
  | .simulation _ => "simulator"
  | .store _ => "store"
  | .fault _ => "optimizer"

/-- The kind of a failure. -/
def kind : Failure → String
  | .json _ => "InvalidJson"
  | .io _ => "Io"
  | .elaboration e => e.kind
  | .levels e => e.kind
  | .simulation e => e.kind
  | .store e => e.kind
  | .fault f => f.kind

/-- The sentence for a failure. -/
def message : Failure → String
  | .json text => "invalid program: " ++ text
  | .io text => "io error: " ++ text
  | .elaboration e => e.message
  | .levels e => e.message
  | .simulation e => e.message
  | .store e => e.message
  | .fault f => f.message

/-- The module that a failure concerns. -/
def moduleName : Failure → Option String
  | .elaboration (.unknownModule _ caller) => some caller
  | .elaboration (.unknownSignal _ moduleName) => some moduleName
  | .elaboration (.recursionLimit moduleName _) => some moduleName
  | .elaboration (.arityMismatch callee _ _) => some callee
  | _ => none

/-- What is told beside the sentence. -/
def details : Failure → Option ReportDetails
  | .elaboration (.arityMismatch _ expected found) => some (.arity expected found)
  | .levels (.combinationalCycle signals) => some (.cycle signals)
  | _ => none

/-- The report of a failure. -/
def report (f : Failure) : Report where
  phase := f.phase
  moduleName := f.moduleName
  kind := f.kind
  message := f.message
  details := f.details

end Failure

/-! ## Forms of a report -/

/-- The JSON form of details. -/
def ReportDetails.toJson : ReportDetails → Json
  | .cycle signals =>
    .ofFields [("type", .ofString "cycle"), ("signals", .ofList .ofString signals)]
  | .arity expected found =>
    .ofFields
      [("type", .ofString "arity"), ("expected", .ofNat expected), ("found", .ofNat found)]

namespace Report

/-- The JSON form of a report. There is a field for details only if there are details. -/
def toJson (r : Report) : Json :=
  .ofFields
    ([("phase", .ofString r.phase), ("module", .ofOption .ofString r.moduleName),
      ("error_kind", .ofString r.kind), ("message", .ofString r.message)] ++
      (r.details.toList.map fun d => ("details", d.toJson)))

/-- The line for a terminal. Without a module the phase stands in the brackets. -/
def display (r : Report) : String :=
  "[" ++ r.moduleName.getD r.phase ++ "] " ++ r.phase ++ " error: " ++ r.message

/-- The line without brackets. -/
def short (r : Report) : String := r.phase ++ ": " ++ r.message

end Report

end NandHdl
