-- SUMMARY: A directory tree as a value (`FileTree`), and where a path leads in it (`FileTree.resolve`).
import NandHdl.Files.System
import NandHdl.Files.Path
import NandHdl.Names

/-!
# Directory trees

A tree holds files under the root directory. A command works in one directory of the tree. Some
directories are there in every tree, and so are a few devices.

A path is resolved in two steps. All its parts but the last are followed from directory to
directory: `.` and an empty part stay where they are, `..` goes up, and above the root is the root
again. What the last part is looked up for depends on the operation. A path that ends in `.` or
`..`, or has no part at all, leads to a directory. A slash at the end asks for a directory; an
operation that would make a file refuses it for that alone.
-/

namespace NandHdl

/-- The files of the system that are no files of a disk. -/
inductive Device where
  /-- Takes everything and holds nothing. -/
  | null
  /-- Takes nothing. -/
  | full
  | stdin
  | stdout
  | stderr
  deriving Repr, DecidableEq, Inhabited

/-- A place in a tree: the names on the way from the root. -/
abbrev Place := List String

/-- The files of a tree, under their paths from the root. -/
structure FileTree where
  files : NameMap String := {}

/-- What stands at a place. -/
inductive FileNode where
  | directory
  | file (text : String)
  | device (d : Device)

namespace FileTree

/-! ## The surroundings -/

/-- The name for a place. -/
def pathOf (place : Place) : String := "/".intercalate place

/-- The directory a command works in. Its own name is empty, so that no path can spell it. -/
def workPlace : Place := ["tmp", ""]

/-- Directories that are there in every tree. -/
def standardDirectories : List String :=
  ["bin", "boot", "dev", "etc", "home", "lib", "media", "mnt", "opt", "proc", "root", "run",
   "sbin", "srv", "sys", "tmp", "usr", "usr/bin", "usr/lib", "usr/local", "usr/share", "var",
   "var/log", "var/tmp"]

/-- Devices that are there in every tree. -/
def devices : List (String × Device) :=
  [("dev/null", .null), ("dev/full", .full), ("dev/stdin", .stdin), ("dev/stdout", .stdout),
   ("dev/stderr", .stderr)]

/-- Whether a place is a directory without any file in it. -/
def isStandard (place : Place) : Bool :=
  place.isPrefixOf workPlace || standardDirectories.contains (pathOf place)

/-- Whether some file lies below a place. -/
def hasBelow (t : FileTree) (place : Place) : Bool :=
  t.files.keys.any fun file => (pathOf place ++ "/").toList.isPrefixOf file.toList

/-- What stands at a place. -/
def node? (t : FileTree) (place : Place) : Option FileNode :=
  match devices.find? (·.1 == pathOf place), t.files[pathOf place]? with
  | some (_, d), _ => some (.device d)
  | none, some text => some (.file text)
  | none, none => if isStandard place || t.hasBelow place then some .directory else none

/-- How many bytes the name of a file may have. -/
def maxNameBytes : Nat := 255

/-- What stands under a name in a directory. Too long a name is refused even if nothing does. -/
def lookup (t : FileTree) (dir : Place) (name : String) : Except FileError (Option FileNode) :=
  if name.utf8ByteSize > maxNameBytes then .error .nameTooLong
  else .ok (t.node? (dir ++ [name]))

/-! ## Resolving paths -/

/-- Where a path leads, before its last part is looked up. -/
structure Target where
  /-- The directory to look in. -/
  dir : Place
  /-- The name to look for; none if the path leads to the directory itself. -/
  name : Option String
  /-- Whether a slash follows the name. -/
  slash : Bool := false

/-- Follows parts from a directory. -/
def walk (t : FileTree) (dir : Place) : List (List Char) → Except FileError Place
  | [] => .ok dir
  | part :: rest =>
    if Path.isIdle part then t.walk dir rest
    else if Path.isUp part then t.walk dir.dropLast rest
    else do
      let name := String.ofList part
      match ← t.lookup dir name with
      | some .directory => t.walk (dir ++ [name]) rest
      | some _ => throw .notDirectory
      | none => throw .notFound

/-- How many bytes a path may have. -/
def maxPathBytes : Nat := 4095

/-- Follows a path up to its last part. -/
def resolve (t : FileTree) (path : String) : Except FileError Target := do
  if Path.hasZero path then throw .zeroInPath
  if path.isEmpty then throw .notFound
  if path.utf8ByteSize > maxPathBytes then throw .nameTooLong
  let start := if Path.isAbsolute path then [] else workPlace
  let reversed := (Path.parts path).reverse
  match reversed.dropWhile List.isEmpty with
  | [] => return { dir := start, name := none }
  | last :: before =>
    let dir ← t.walk start before.reverse
    if Path.isIdle last then return { dir, name := none }
    if Path.isUp last then return { dir := dir.dropLast, name := none }
    return { dir, name := some (String.ofList last), slash := reversed.head?.any List.isEmpty }

/-- What a path leads to. -/
def find (t : FileTree) (path : String) : Except FileError FileNode := do
  let target ← t.resolve path
  match target.name with
  | none => return .directory
  | some name =>
    match ← t.lookup target.dir name with
    | none => throw .notFound
    | some .directory => return .directory
    | some node => if target.slash then throw .notDirectory else return node

/-- Where a path leads that is opened for writing. -/
inductive Sink where
  /-- A file, which need not be there yet. -/
  | file (place : Place)
  | device (d : Device)

/-- Where a path leads that is opened for writing. -/
def sink (t : FileTree) (path : String) : Except FileError Sink := do
  let target ← t.resolve path
  match target.name with
  | none => throw .isDirectory
  | some name =>
    if target.slash then throw .isDirectory
    match ← t.lookup target.dir name with
    | some .directory => throw .isDirectory
    | some (.device d) => return .device d
    | _ => return .file (target.dir ++ [name])

/-! ## Files -/

/-- The text of the file at a place; empty if there is none. -/
def textAt (t : FileTree) (place : Place) : String := t.files.getD (pathOf place) ""

/-- The tree with a text at a place. -/
def insert (t : FileTree) (place : Place) (text : String) : FileTree :=
  { files := t.files.insert (pathOf place) text }

/-- The tree of the given files below the working directory. -/
def ofList (files : List (String × String)) : FileTree :=
  files.foldl (fun t (path, text) =>
    let parts := (Path.parts path).filter fun part => !Path.isIdle part
    t.insert (workPlace ++ parts.map String.ofList) text) {}

/-- The files below the working directory, under their paths from there. -/
def workFiles (t : FileTree) : List (String × String) :=
  let start := (pathOf workPlace ++ "/").toList
  t.files.toList.filterMap fun (path, text) =>
    if start.isPrefixOf path.toList then
      some (String.ofList (path.toList.drop start.length), text)
    else none

/-- The files below the working directory that are new or have another text than in the tree
`before`. -/
def changedSince (t before : FileTree) : List (String × String) :=
  t.workFiles.filter fun file => !before.workFiles.contains file

end FileTree

end NandHdl
