-- SUMMARY: A reader of value change dumps (`Vcd.read`), line by line: what it takes a line to say, and that it takes every line for what was written.
import Std.Data.String.ToNat
import NandHdl.Proofs.Text
import NandHdl.Proofs.Waveform.Codes
import Mathlib.Data.List.Basic

/-!
# Reading value change dumps

A dump is read without a look at how it was made. Each line stands for itself (`Entry`): what it is
shows at its first character, which is a digit for a change, `#` for a moment and `$` for anything
else. A name is what stands between the code and the end of a declaration, blanks included. The
lines together are a recording (`Recording`): declarations, the values at the start, and a block of
changes for each later moment.
-/

namespace NandHdl.Vcd

/-! ## Lines -/

/-- A new value of the variable with the given code. -/
structure Change where
  value : Bool
  code : String
  deriving Repr, DecidableEq

/-- What one line says. -/
inductive Entry where
  | timescale (text : String)
  | scope (name : String)
  | var (code name : String)
  | scopeEnd
  | definitionsEnd
  | time (moment : Nat)
  | dumpStart
  | dumpEnd
  | change (change : Change)
  deriving Repr, DecidableEq

/-- The lines of a text. -/
def lines : List Char → List (List Char)
  | [] => []
  | c :: rest =>
    if c = '\n' then [] :: lines rest
    else match lines rest with
      | [] => [[c]]
      | first :: more => (c :: first) :: more

/-- What stands between the given start of a declaration and its end. -/
def declared? (start : String) (l : List Char) : Option (List Char) := do
  " $end".toList.isSuffixOf? (← start.toList.isPrefixOf? l)

/-- A declaration with something to declare. -/
def readDeclaration (l : List Char) : Option Entry :=
  match declared? "$var wire 1 " l with
  | some body => (Text.cutChars? ' ' body).map fun (code, name) =>
      .var (String.ofList code) (String.ofList name)
  | none => match declared? "$scope module " l with
    | some name => some (.scope (String.ofList name))
    | none => (declared? "$timescale " l).map fun text => .timescale (String.ofList text)

/-- What a line says. -/
def readLine (l : List Char) : Option Entry :=
  match l with
  | '0' :: code => some (.change ⟨false, String.ofList code⟩)
  | '1' :: code => some (.change ⟨true, String.ofList code⟩)
  | '#' :: digits => (String.ofList digits).toNat?.map .time
  | _ =>
    if l = "$upscope $end".toList then some .scopeEnd
    else if l = "$enddefinitions $end".toList then some .definitionsEnd
    else if l = "$dumpvars".toList then some .dumpStart
    else if l = "$end".toList then some .dumpEnd
    else readDeclaration l

/-! ## Recordings -/

/-- The changes at one moment. -/
structure Block where
  time : Nat
  changes : List Change
  deriving Repr, DecidableEq

/-- What a dump says: its variables with their codes, the values at the start if there are any, and
the changes after it. -/
structure Recording where
  timescale : String
  scope : String
  vars : List (String × String)
  first : Option (List Change)
  blocks : List Block
  deriving Repr, DecidableEq

/-- The declarations of variables at the start, and the entries after them. -/
def takeVars : List Entry → List (String × String) × List Entry
  | .var code name :: rest => ((code, name) :: (takeVars rest).1, (takeVars rest).2)
  | rest => ([], rest)

/-- The changes at the start, and the entries after them. -/
def takeChanges : List Entry → List Change × List Entry
  | .change c :: rest => (c :: (takeChanges rest).1, (takeChanges rest).2)
  | rest => ([], rest)

/-- The changes before the first moment, and the blocks from there on. -/
def readBlocks : List Entry → Option (List Change × List Block)
  | [] => some ([], [])
  | .change c :: rest => (readBlocks rest).map fun (changes, blocks) => (c :: changes, blocks)
  | .time moment :: rest =>
    (readBlocks rest).map fun (changes, blocks) => ([], ⟨moment, changes⟩ :: blocks)
  | _ :: _ => none

/-- The values at the start, if there are any, and the blocks after them. -/
def readBody : List Entry → Option (Option (List Change) × List Block)
  | [] => some (none, [])
  | .time 0 :: .dumpStart :: rest =>
    match takeChanges rest with
    | (first, .dumpEnd :: rest) => match readBlocks rest with
      | some ([], blocks) => some (some first, blocks)
      | _ => none
    | _ => none
  | _ => none

/-- The recording that the entries make up. -/
def readEntries : List Entry → Option Recording
  | .timescale timescale :: .scope scope :: rest =>
    match takeVars rest with
    | (vars, .scopeEnd :: .definitionsEnd :: body) =>
      (readBody body).map fun (first, blocks) => { timescale, scope, vars, first, blocks }
    | _ => none
  | _ => none

/-- What a text says. -/
def read (text : String) : Option Recording := do
  readEntries (← (lines text.toList).mapM readLine)

/-! ## Lines that are written -/

/-- The line for an entry. -/
def Entry.text : Entry → String
  | .timescale text => "$timescale " ++ text ++ " $end"
  | .scope name => "$scope module " ++ name ++ " $end"
  | .var code name => "$var wire 1 " ++ code ++ " " ++ name ++ " $end"
  | .scopeEnd => "$upscope $end"
  | .definitionsEnd => "$enddefinitions $end"
  | .time moment => "#" ++ toString moment
  | .dumpStart => "$dumpvars"
  | .dumpEnd => "$end"
  | .change c => (if c.value then "1" else "0") ++ c.code

/-- The text for entries. -/
def write (entries : List Entry) : String := String.join (entries.map fun e => line e.text)

/-- No text in the entry breaks the line, and a code has no blank in it. -/
def Entry.Clean : Entry → Prop
  | .timescale text => '\n' ∉ text.toList
  | .scope name => '\n' ∉ name.toList
  | .var code name => '\n' ∉ code.toList ∧ ' ' ∉ code.toList ∧ '\n' ∉ name.toList
  | .change c => '\n' ∉ c.code.toList
  | _ => True

theorem declared?_append {start : String} {body : List Char} :
    declared? start (start.toList ++ (body ++ " $end".toList)) = some body := by
  rw [declared?, List.isPrefixOf?_eq_some_iff_append_eq.2 rfl]
  exact List.isSuffixOf?_eq_some_iff_append_eq.2 rfl

/-! The start of a declaration tells it from the lines without content and from other declarations,
whatever comes after it. -/

theorem readLine_timescale (text : String) :
    readLine ("$timescale ".toList ++ (text.toList ++ " $end".toList)) = some (.timescale text) := by
  have hline : ∀ rest : List Char, readLine ("$timescale ".toList ++ rest) =
      (declared? "$timescale " ("$timescale ".toList ++ rest)).map fun text =>
        .timescale (String.ofList text) := fun _ => rfl
  rw [hline, declared?_append, Option.map_some, String.ofList_toList]

theorem readLine_scope (name : String) :
    readLine ("$scope module ".toList ++ (name.toList ++ " $end".toList)) = some (.scope name) := by
  have hline : ∀ rest name : List Char,
      declared? "$scope module " ("$scope module ".toList ++ rest) = some name →
      readLine ("$scope module ".toList ++ rest) = some (.scope (String.ofList name)) := by
    intro rest name h
    have hother : declared? "$var wire 1 " ("$scope module ".toList ++ rest) = none := rfl
    show readDeclaration ("$scope module ".toList ++ rest) = _
    rw [readDeclaration, hother]
    simp only [h]
  rw [hline _ _ declared?_append, String.ofList_toList]

theorem readLine_var {code name : String} (h : ' ' ∉ code.toList) :
    readLine ("$var wire 1 ".toList ++ ((code.toList ++ ' ' :: name.toList) ++ " $end".toList)) =
      some (.var code name) := by
  have hline : ∀ rest body : List Char,
      declared? "$var wire 1 " ("$var wire 1 ".toList ++ rest) = some body →
      readLine ("$var wire 1 ".toList ++ rest) =
        (Text.cutChars? ' ' body).map fun (code, name) =>
          .var (String.ofList code) (String.ofList name) := by
    intro rest body hbody
    show readDeclaration ("$var wire 1 ".toList ++ rest) = _
    rw [readDeclaration, hbody]
  rw [hline _ _ declared?_append, Text.cutChars?_append h]
  simp only [Option.map_some, String.ofList_toList]

/-- A line is taken for what was written. -/
theorem readLine_text {e : Entry} (h : e.Clean) : readLine e.text.toList = some e := by
  cases e with
  | timescale text =>
    simp only [Entry.text, String.toList_append, List.append_assoc]
    exact readLine_timescale text
  | scope name =>
    simp only [Entry.text, String.toList_append, List.append_assoc]
    exact readLine_scope name
  | var code name =>
    have htext : (Entry.var code name).text.toList =
        "$var wire 1 ".toList ++ ((code.toList ++ ' ' :: name.toList) ++ " $end".toList) := by
      simp [Entry.text]
    rw [htext, readLine_var h.2.1]
  | scopeEnd => rfl
  | definitionsEnd => rfl
  | time moment =>
    have hline : readLine (Entry.time moment).text.toList =
        (String.ofList (toString moment).toList).toNat?.map .time := by
      rw [Entry.text, String.toList_append]
      rfl
    rw [hline, String.ofList_toList, Nat.toString_eq_repr, Nat.toNat?_repr, Option.map_some]
  | dumpStart => rfl
  | dumpEnd => rfl
  | change c =>
    obtain ⟨value, code⟩ := c
    have hcode : String.ofList code.toList = code := String.ofList_toList
    cases value with
    | false =>
      rw [Entry.text, if_neg Bool.false_ne_true, String.toList_append]
      exact congrArg (fun code => some (Entry.change ⟨false, code⟩)) hcode
    | true =>
      rw [Entry.text, if_pos rfl, String.toList_append]
      exact congrArg (fun code => some (Entry.change ⟨true, code⟩)) hcode

/-- No line is broken. -/
theorem newline_not_mem_text {e : Entry} (h : e.Clean) : '\n' ∉ e.text.toList := by
  cases e with
  | time moment =>
    have hdigits : '\n' ∉ Nat.toDigits 10 moment := fun hmem =>
      absurd (Nat.isDigit_of_mem_toDigits (by decide) (by decide) hmem) (by decide)
    simpa [Entry.text] using hdigits
  | timescale text =>
    have : '\n' ∉ text.toList := h
    simpa [Entry.text] using this
  | scope name =>
    have : '\n' ∉ name.toList := h
    simpa [Entry.text] using this
  | var code name =>
    have : '\n' ∉ code.toList ∧ '\n' ∉ name.toList := ⟨h.1, h.2.2⟩
    simpa [Entry.text] using this
  | scopeEnd => decide
  | definitionsEnd => decide
  | dumpStart => decide
  | dumpEnd => decide
  | change c =>
    have hdigit : '\n' ∉ (if c.value then "1" else "0").toList := by split <;> decide
    rw [Entry.text, String.toList_append, List.mem_append, not_or]
    exact ⟨hdigit, h⟩

theorem lines_append {l : List Char} (h : '\n' ∉ l) (rest : List Char) :
    lines (l ++ '\n' :: rest) = l :: lines rest := by
  induction l with
  | nil => rw [List.nil_append, lines, if_pos rfl]
  | cons c l ih =>
    rw [List.mem_cons, not_or] at h
    rw [List.cons_append, lines, if_neg (Ne.symm h.1), ih h.2]

/-- Entries that are written one below the other are read one after the other. -/
theorem read_write {entries : List Entry} (h : ∀ e ∈ entries, e.Clean) :
    read (write entries) = readEntries entries := by
  have hread : (lines (write entries).toList).mapM readLine = some entries := by
    induction entries with
    | nil => rfl
    | cons e rest ih =>
      rw [List.forall_mem_cons] at h
      have htext : (write (e :: rest)).toList = e.text.toList ++ '\n' :: (write rest).toList := by
        simp [write, line, String.join_cons]
      rw [htext, lines_append (newline_not_mem_text h.1), List.mapM_cons, readLine_text h.1, ih h.2]
      rfl
  rw [read, hread]
  rfl

end NandHdl.Vcd
