-- SUMMARY: The small texts of the command line: assignments `name=value` and log levels `phase=level`.
import NandHdl.Config.Basic
import NandHdl.Text

/-!
# Arguments

An assignment gives a value to a signal. The value is written in decimal, in hexadecimal after
`0x` or in binary after `0b`. Underscores do not count, wherever they stand.
-/

namespace NandHdl

/-- Why an argument is refused. -/
inductive ArgumentError where
  | noAssignment (text : String)
  | noName (text : String)
  | badValue (text : String)
  | noPhaseLevel (text : String)
  | unknownPhase (text : String)
  | unknownLevel (text : String)
  deriving Repr, DecidableEq, Inhabited

/-- The sentence for a refused argument. -/
def ArgumentError.message : ArgumentError → String
  | .noAssignment text => "expected NAME=VALUE, got '" ++ text ++ "'"
  | .noName text => "missing signal name in '" ++ text ++ "'"
  | .badValue text => "invalid value in '" ++ text ++ "'"
  | .noPhaseLevel text => "expected PHASE=LEVEL, got '" ++ text ++ "'"
  | .unknownPhase text => "unknown phase '" ++ text ++ "'"
  | .unknownLevel text => "unknown log level '" ++ text ++ "'"

/-- The word that characters without underscores stand for. -/
def parseRadix? : List Char → Option UInt64
  | '0' :: 'x' :: digits => Text.word? 16 digits
  | '0' :: 'b' :: digits => Text.word? 2 digits
  | digits => Text.word? 10 digits

/-- The word that a value stands for. -/
def parseValue? (cs : List Char) : Option UInt64 := parseRadix? (cs.filter (· != '_'))

/-- Reads an assignment. -/
def parseAssignment (text : String) : Except ArgumentError (String × UInt64) :=
  match Text.cutChars? '=' text.toList with
  | none => .error (.noAssignment text)
  | some (before, after) =>
    let name := Text.trimChars before
    if name.isEmpty then .error (.noName text)
    else match parseValue? (Text.trimChars after) with
      | none => .error (.badValue text)
      | some value => .ok (String.ofList name, value)

/-- Reads the log level of a phase. -/
def parsePhaseLevel (text : String) : Except ArgumentError (Phase × LogLevel) :=
  match Text.cut? '=' text with
  | none => .error (.noPhaseLevel text)
  | some (phaseText, levelText) =>
    match Phase.all.find? (·.name == Text.trim phaseText) with
    | none => .error (.unknownPhase phaseText)
    | some phase =>
      match LogLevel.parse? (Text.trim levelText) with
      | none => .error (.unknownLevel levelText)
      | some level => .ok (phase, level)

end NandHdl
