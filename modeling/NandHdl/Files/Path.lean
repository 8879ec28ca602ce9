-- SUMMARY: Paths as text: the directory of a path (`Path.parent?`), joining, and the name for standard output.

/-!
# Paths

A path is a text whose parts are separated by `/`. An empty part and the part `.` say nothing,
except that a relative path may begin with `.`.

The directory of a path is the path without its last part. Whatever says nothing before that part
goes with it, so the directory of `a/./b` is `a`.
-/

namespace NandHdl.Path

/-- The parts of a path, in their order. -/
def parts (path : String) : List (List Char) :=
  go [] path.toList
where
  /-- The parts of the characters that are left, after those of the part at hand in reverse. -/
  go (part : List Char) : List Char → List (List Char)
    | [] => [part.reverse]
    | c :: rest => if c == '/' then part.reverse :: go [] rest else go (c :: part) rest

/-- Whether a part says nothing. -/
def isIdle (part : List Char) : Bool := part.isEmpty || part == ['.']

/-- Whether a part leads to the directory above. -/
def isUp (part : List Char) : Bool := part == ['.', '.']

/-- Whether a path starts at the root. -/
def isAbsolute (path : String) : Bool := path.toList.head? == some '/'

/-- Whether a path holds a zero character. -/
def hasZero (path : String) : Bool := path.toList.contains '\x00'

/-- What a path begins with that is no part of it: the root, or `.` in a relative path. The second
component is the rest of the path. -/
def splitStart : List Char → List Char × List Char
  | '/' :: rest => (['/'], rest)
  | ['.'] => (['.'], [])
  | '.' :: '/' :: rest => (['.'], '/' :: rest)
  | cs => ([], cs)

/-- Drops parts that say nothing from the end. The characters are in reverse order. -/
def dropIdle : List Char → List Char
  | '/' :: rest => dropIdle rest
  | ['.'] => []
  | '.' :: '/' :: rest => dropIdle ('/' :: rest)
  | cs => cs

/-- The directory of a path. A path without parts has none. -/
def parent? (path : String) : Option String :=
  let (start, body) := splitStart path.toList
  match dropIdle body.reverse with
  | [] => if start == ['.'] then some "" else none
  | cs => some (String.ofList (start ++ (dropIdle (cs.dropWhile (· != '/'))).reverse))

/-- A path seen from a directory. An absolute path stays what it is. -/
def join (dir path : String) : String :=
  if isAbsolute path then path
  else if dir.isEmpty || dir.toList.getLast? == some '/' then dir ++ path
  else dir ++ "/" ++ path

/-- Whether a path is the name for standard output. -/
def isStdout (path : String) : Bool :=
  match parts path with
  | first :: rest => first == ['-'] && rest.all isIdle
  | [] => false

end NandHdl.Path
