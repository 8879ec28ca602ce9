-- SUMMARY: What a command may ask of its surroundings: files and the two output streams (`System`), and why a file operation fails (`FileError`).

namespace NandHdl

/-- Why a file cannot be used. -/
inductive FileError where
  | notFound
  | notDirectory
  | isDirectory
  /-- A path, or one of its parts, has too many bytes. -/
  | nameTooLong
  /-- The device holds no more. -/
  | noSpace
  /-- A path with a zero character, which no system can be asked for. -/
  | zeroInPath
  /-- Any other cause, in the words of the system. -/
  | other (text : String)
  deriving Repr, DecidableEq, Inhabited

/-- The sentence of the system for an error with a number. -/
def FileError.numbered (text : String) (number : Nat) : String :=
  text ++ " (os error " ++ toString number ++ ")"

/-- The sentence for a failed operation. -/
def FileError.message : FileError → String
  | .notFound => numbered "No such file or directory" 2
  | .notDirectory => numbered "Not a directory" 20
  | .isDirectory => numbered "Is a directory" 21
  | .noSpace => numbered "No space left on device" 28
  | .nameTooLong => numbered "File name too long" 36
  | .zeroInPath => "file name contained an unexpected NUL byte"
  | .other text => text

/-- The surroundings of a command that runs in the monad `m`. -/
structure System (m : Type → Type) where
  /-- Whether a path leads to something. -/
  exists? : String → m Bool
  /-- The text of a file. -/
  readText : String → m (Except FileError String)
  /-- Makes a file or replaces its text. -/
  writeText : String → String → m (Except FileError Unit)
  /-- Makes a file unless it is there, and puts a text at its end. -/
  appendText : String → String → m (Except FileError Unit)
  /-- Writes to standard output. -/
  print : String → m Unit
  /-- Writes to standard error. -/
  printError : String → m Unit

end NandHdl
