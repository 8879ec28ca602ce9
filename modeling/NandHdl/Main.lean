-- SUMMARY: The program: runs the command on the arguments, the files and the streams of the process.
import NandHdl.CommandLine.Command

namespace NandHdl

/-- The cause of a failed operation of the process. -/
def FileError.ofProcess : IO.Error → FileError
  | .noFileOrDirectory .. => .notFound
  | .inappropriateType _ 20 _ => .notDirectory
  | .inappropriateType _ 21 _ => .isDirectory
  | .resourceExhausted _ 28 _ => .noSpace
  | .invalidArgument _ 36 _ => .nameTooLong
  | e => .other (toString e)

/-- The result of an operation of the process on a path. -/
def attempt {α : Type} (path : String) (action : IO α) : IO (Except FileError α) := do
  if Path.hasZero path then return .error .zeroInPath
  try return .ok (← action)
  catch e => return .error (.ofProcess e)

/-- Whether a path leads to something. What cannot be opened for another reason than that it is
missing is there. -/
def pathExists (path : String) : IO Bool := do
  match ← attempt path (IO.FS.withFile path .read fun _ => pure ()) with
  | .error .notFound | .error .notDirectory | .error .nameTooLong | .error .zeroInPath =>
    return false
  | _ => return true

/-- The surroundings of the process. -/
def processSystem : System IO where
  exists? := pathExists
  readText := fun path => attempt path (IO.FS.readFile path)
  writeText := fun path text => attempt path (IO.FS.writeFile path text)
  appendText := fun path text =>
    attempt path (IO.FS.withFile path .append fun file => file.putStr text)
  print := fun text => IO.print text
  printError := fun text => IO.eprint text

end NandHdl

/-- Runs the command and ends with its exit code. -/
def main (args : List String) : IO UInt32 := do
  return UInt32.ofNat (← NandHdl.Command.run NandHdl.processSystem args)
