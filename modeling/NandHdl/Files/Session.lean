-- SUMMARY: A command's surroundings as a value (`Session`): a directory tree and what was printed, and the operations on them.
import NandHdl.Files.Tree

namespace NandHdl

/-- The files that a command finds, and what it has printed. -/
structure Session where
  tree : FileTree := {}
  stdout : String := ""
  stderr : String := ""

namespace Session

/-- Writes a text to a device. -/
def writeDevice (s : Session) (text : String) : Device → Except FileError Session
  | .null => .ok s
  | .stdin => .ok s
  | .full => if text.isEmpty then .ok s else .error .noSpace
  | .stdout => .ok { s with stdout := s.stdout ++ text }
  | .stderr => .ok { s with stderr := s.stderr ++ text }

/-- The text of a file. Devices hold none. -/
def readText (s : Session) (path : String) : Except FileError String := do
  match ← s.tree.find path with
  | .directory => throw .isDirectory
  | .file text => return text
  | .device _ => return ""

/-- Opens a path for writing. A file gets the text `text` after the text it keeps, as `keep` says
of the text it has. -/
def write (keep : String → String) (s : Session) (path text : String) :
    Except FileError Session := do
  match ← s.tree.sink path with
  | .device d => s.writeDevice text d
  | .file place => return { s with tree := s.tree.insert place (keep (s.tree.textAt place) ++ text) }

/-- Takes over the session that an operation leads to. A failed operation leaves everything as it
is. -/
def update (step : Session → Except FileError Session) : StateM Session (Except FileError Unit) :=
  modifyGet fun s =>
    match step s with
    | .ok s => (.ok (), s)
    | .error e => (.error e, s)

/-- The operations on a session. -/
def system : System (StateM Session) where
  exists? := fun path => do return ((← get).tree.find path).isOk
  readText := fun path => do return (← get).readText path
  writeText := fun path text => update fun s => s.write (fun _ => "") path text
  appendText := fun path text => update fun s => s.write id path text
  print := fun text => modify fun s => { s with stdout := s.stdout ++ text }
  printError := fun text => modify fun s => { s with stderr := s.stderr ++ text }

end Session

end NandHdl
