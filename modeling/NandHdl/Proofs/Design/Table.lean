-- SUMMARY: The table of a trace is aligned, and cutting its lines at the columns gives the rows back (`Trace.table_aligned`).
import NandHdl.Design.Table
import Mathlib.Data.List.Forall2
import Mathlib.Data.List.TakeWhile
import Mathlib.Data.String.Basic

/-!
# The table of a trace

A column is at least as wide as each of its entries has characters: digits are single bytes, and a
name has at most as many characters as bytes. So padding fills every entry to exactly the width of
its column. All lines then have their columns at the same places, also where a name has characters
of several bytes and its column is wider than the name.
-/

namespace NandHdl.Trace

/-! ## Columns of a line -/

/-- The columns of a line. Two characters stand between a column and the next. -/
def columns : List Nat → List Char → List (List Char)
  | [], _ => []
  | width :: widths, cs => cs.take width :: columns widths (cs.drop (width + 2))

/-- The number of characters of a line with columns of the given widths. -/
def lineWidth : List Nat → Nat
  | [] => 0
  | [width] => width
  | width :: next :: widths => width + 2 + lineWidth (next :: widths)

/-- The texts with two blanks between them. -/
def joined (texts : List (List Char)) : List Char := [' ', ' '].intercalate texts

theorem joined_singleton (text : List Char) : joined [text] = text :=
  List.intercalate_singleton

theorem joined_cons_cons (text next : List Char) (rest : List (List Char)) :
    joined (text :: next :: rest) = text ++ ([' ', ' '] ++ joined (next :: rest)) := by
  rw [joined, List.intercalate_cons_cons, List.append_assoc, joined]

theorem joined_cons (text : List Char) (texts : List (List Char)) :
    joined (text :: texts) = text ++ texts.flatMap ([' ', ' '] ++ ·) := by
  induction texts generalizing text with
  | nil => simp [joined_singleton]
  | cons next rest ih => rw [joined_cons_cons, ih, List.flatMap_cons, List.append_assoc]

theorem columns_joined (texts : List (List Char)) :
    columns (texts.map List.length) (joined texts) = texts := by
  induction texts with
  | nil => rfl
  | cons text rest ih =>
    cases rest with
    | nil => simp [columns, joined_singleton]
    | cons next rest =>
      have hdrop : (joined (text :: next :: rest)).drop (text.length + 2) =
          joined (next :: rest) := by
        rw [joined_cons_cons, ← List.drop_drop, List.drop_left]
        rfl
      rw [List.map_cons, columns, hdrop, ih, joined_cons_cons, List.take_left]

theorem length_joined (texts : List (List Char)) :
    (joined texts).length = lineWidth (texts.map List.length) := by
  induction texts with
  | nil => rfl
  | cons text rest ih =>
    cases rest with
    | nil => simp [lineWidth, joined_singleton]
    | cons next rest =>
      rw [joined_cons_cons, List.length_append, List.length_append, ih]
      exact (Nat.add_assoc _ _ _).symm

/-! ## Entries -/

/-- An entry at the right of its column. -/
def entryChars (entry : Nat × String) : List Char := entry.2.toList.leftpad entry.1 ' '

theorem toList_padLeft (width : Nat) (s : String) :
    (Text.padLeft width s).toList = entryChars (width, s) := by
  simp only [Text.padLeft, entryChars, List.leftpad, String.toList_append, String.toList_ofList,
    String.length_toList]

theorem toList_line (first : Nat × String) (entries : List (Nat × String)) :
    (line first entries).toList = joined ((first :: entries).map entryChars) ++ ['\n'] := by
  simp [line, joined_cons, toList_padLeft, String.toList_join, List.flatMap_map]

theorem length_entryChars {entry : Nat × String} (h : entry.2.length ≤ entry.1) :
    (entryChars entry).length = entry.1 := by
  rw [entryChars, List.length_leftpad, String.length_toList, Nat.max_eq_left h]

/-! ## Widths -/

theorem widest_le {least m : Nat} {ws : List Nat} :
    widest least ws ≤ m ↔ least ≤ m ∧ ∀ w ∈ ws, w ≤ m := by
  induction ws generalizing least with
  | nil => simp [widest]
  | cons w rest ih =>
    rw [List.forall_mem_cons, ← and_assoc, ← Nat.max_le]
    exact ih

theorem least_le_widest (least : Nat) (ws : List Nat) : least ≤ widest least ws :=
  (widest_le.1 (Nat.le_refl _)).1

theorem le_widest (least : Nat) {w : Nat} {ws : List Nat} (hw : w ∈ ws) : w ≤ widest least ws :=
  (widest_le.1 (Nat.le_refl _)).2 w hw

theorem length_le_utf8ByteSize (s : String) : s.length ≤ s.utf8ByteSize := by
  rw [← String.utf8Len_toList, ← String.length_toList]
  induction s.toList with
  | nil => exact Nat.le_refl 0
  | cons c rest ih =>
    have hc := c.utf8Size_pos
    rw [String.utf8Len_cons, List.length_cons]
    omega

variable {rows : List TraceRow}

theorem title_le_cycleWidth : "cycle".length ≤ cycleWidth rows := least_le_widest _ _

theorem cycle_le_cycleWidth {r : TraceRow} (hr : r ∈ rows) :
    (toString r.cycle.toNat).length ≤ cycleWidth rows := by
  have hdigits : digits r.cycle.toNat ∈ rows.map fun r => digits r.cycle.toNat :=
    List.mem_map_of_mem hr
  rw [cycleWidth]
  exact le_widest _ hdigits

theorem title_le_columnWidth (name : String) : name.length ≤ columnWidth rows name :=
  calc name.length ≤ name.utf8ByteSize := length_le_utf8ByteSize name
    _ ≤ max 1 name.utf8ByteSize := Nat.le_max_right _ _
    _ ≤ columnWidth rows name := least_le_widest _ _

/-- A name that a row lacks is shown as one digit. -/
theorem value_le_columnWidth {r : TraceRow} (hr : r ∈ rows) (name : String) :
    (toString (r.values.getD name 0).toNat).length ≤ columnWidth rows name := by
  rw [Std.TreeMap.getD_eq_getD_getElem?]
  cases hvalue : r.values[name]? with
  | none => exact Nat.le_trans (Nat.le_max_left 1 _) (least_le_widest _ _)
  | some v =>
    refine le_widest _ (List.mem_filterMap.2 ⟨r, hr, ?_⟩)
    rw [hvalue]
    rfl

/-! ## Lines -/

/-- The widths of the columns. -/
def widths (rows : List TraceRow) (names : List String) : List Nat :=
  cycleWidth rows :: names.map (columnWidth rows)

/-- The entries of a line, with the widths of their columns. -/
def entries (rows : List TraceRow) (names : List String) (cycle : String)
    (value : String → String) : List (Nat × String) :=
  (cycleWidth rows, cycle) :: names.map fun name => (columnWidth rows name, value name)

/-- The columns of a line. -/
def cells (rows : List TraceRow) (names : List String) (cycle : String)
    (value : String → String) : List (List Char) :=
  (entries rows names cycle value).map entryChars

section

variable {names : List String} {cycle : String} {value : String → String}

theorem length_cells (hcycle : cycle.length ≤ cycleWidth rows)
    (hvalue : ∀ name, (value name).length ≤ columnWidth rows name) :
    (cells rows names cycle value).map List.length = widths rows names := by
  have hfirst : (entryChars (cycleWidth rows, cycle)).length = cycleWidth rows :=
    length_entryChars hcycle
  have hnames : ∀ name, (entryChars (columnWidth rows name, value name)).length =
      columnWidth rows name := fun name => length_entryChars (hvalue name)
  simp only [cells, entries, widths, List.map_cons, List.map_map, Function.comp_def, hfirst,
    hnames]

theorem newline_notMem_cells (hcycle : '\n' ∉ cycle.toList)
    (hvalue : ∀ name ∈ names, '\n' ∉ (value name).toList) :
    '\n' ∉ joined (cells rows names cycle value) := by
  have hentry : ∀ {entry : Nat × String}, '\n' ∉ entry.2.toList → '\n' ∉ entryChars entry := by
    intro entry hentry
    simp [entryChars, List.leftpad, List.mem_replicate, hentry]
  simp only [cells, entries, List.map_cons, joined_cons, List.mem_append, List.mem_flatMap,
    List.mem_map]
  rintro (hmem | ⟨_, ⟨_, ⟨name, hname, rfl⟩, rfl⟩, hmem | hmem⟩)
  · exact hentry hcycle hmem
  · simp at hmem
  · exact hentry (hvalue name hname) hmem

end

theorem splitOn_lines {lines : List (List Char)} (h : ∀ line ∈ lines, '\n' ∉ line) :
    (lines.flatMap (· ++ ['\n'])).splitOn '\n' = lines ++ [[]] := by
  induction lines with
  | nil => rfl
  | cons line rest ih =>
    rw [List.forall_mem_cons] at h
    rw [List.flatMap_cons, List.append_assoc, List.singleton_append,
      List.splitOn_append_cons_self_of_not_mem h.1, ih h.2, List.cons_append]

/-! ## Numbers -/

/-- The text without the blanks before it. -/
def dropBlanks (cs : List Char) : List Char := cs.dropWhile (· == ' ')

theorem isDigit_of_mem_toString {n : Nat} {c : Char} (hc : c ∈ (toString n).toList) :
    c.isDigit = true := by
  rw [Nat.toString_eq_ofList_toDigits, String.toList_ofList] at hc
  exact Nat.isDigit_of_mem_toDigits (by decide) (by decide) hc

theorem newline_notMem_toString (n : Nat) : '\n' ∉ (toString n).toList := fun h =>
  absurd (isDigit_of_mem_toString h) (by decide)

theorem dropBlanks_entryChars (width n : Nat) :
    dropBlanks (entryChars (width, toString n)) = (toString n).toList := by
  have hblank : ∀ c ∈ List.replicate (width - (toString n).toList.length) ' ', (c == ' ') = true :=
    fun c hc => beq_iff_eq.2 (List.eq_of_mem_replicate hc)
  rw [dropBlanks, entryChars, List.leftpad, List.dropWhile_append_of_pos hblank]
  refine List.dropWhile_eq_self_iff.2 fun hne hhead => ?_
  have hdigit := isDigit_of_mem_toString (List.getElem_mem hne)
  rw [beq_iff_eq.1 hhead] at hdigit
  cases hdigit

/-- The numbers of a row, the cycle first. A name that the row lacks has the value 0. -/
def numbers (names : List String) (r : TraceRow) : List Nat :=
  r.cycle.toNat :: names.map fun name => (r.values.getD name 0).toNat

/-- The columns of the line for a row. -/
def rowCells (rows : List TraceRow) (names : List String) (r : TraceRow) : List (List Char) :=
  cells rows names (toString r.cycle.toNat) fun name => toString (r.values.getD name 0).toNat

theorem dropBlanks_rowCells (names : List String) (r : TraceRow) :
    (rowCells rows names r).map dropBlanks =
      (numbers names r).map fun n => (toString n).toList := by
  simp only [rowCells, cells, entries, numbers, List.map_cons, List.map_map, Function.comp_def,
    dropBlanks_entryChars]

/-! ## Tables -/

/-- A header and a line for each row stand in columns from which the rows can be read. -/
structure Aligned (rows : List TraceRow) (names : List String) (header : List Char)
    (lines : List (List Char)) : Prop where
  length_eq : ∀ line ∈ header :: lines, line.length = lineWidth (widths rows names)
  widths_eq : ∀ line ∈ header :: lines,
    (columns (widths rows names) line).map List.length = widths rows names
  /-- Between two columns stand two blanks, and no character stands outside. -/
  columns_eq : ∀ line ∈ header :: lines, joined (columns (widths rows names) line) = line
  titles : List.Forall₂ (fun title column => ∃ k, column = List.replicate k ' ' ++ title.toList)
    ("cycle" :: names) (columns (widths rows names) header)
  values : List.Forall₂ (fun r line => (columns (widths rows names) line).map dropBlanks =
    (numbers names r).map fun n => (toString n).toList) rows lines

theorem aligned_cells (rows : List TraceRow) (names : List String) :
    Aligned rows names (joined (cells rows names "cycle" id))
      (rows.map fun r => joined (rowCells rows names r)) := by
  have hheader : (cells rows names "cycle" id).map List.length = widths rows names :=
    length_cells title_le_cycleWidth title_le_columnWidth
  have hrow : ∀ r ∈ rows, (rowCells rows names r).map List.length = widths rows names :=
    fun r hr => length_cells (cycle_le_cycleWidth hr) (value_le_columnWidth hr)
  -- every line is joined from texts that are as wide as the columns
  have hlines : ∀ line ∈ joined (cells rows names "cycle" id) ::
      rows.map (fun r => joined (rowCells rows names r)),
      ∃ texts, texts.map List.length = widths rows names ∧ line = joined texts := by
    rw [List.forall_mem_cons, List.forall_mem_map]
    exact ⟨⟨_, hheader, rfl⟩, fun r hr => ⟨_, hrow r hr, rfl⟩⟩
  refine ⟨?length_eq, ?widths_eq, ?columns_eq, ?titles, ?values⟩
  case length_eq =>
    intro line hline
    obtain ⟨texts, hwidths, rfl⟩ := hlines line hline
    rw [length_joined, hwidths]
  case widths_eq =>
    intro line hline
    obtain ⟨texts, hwidths, rfl⟩ := hlines line hline
    rw [← hwidths, columns_joined]
  case columns_eq =>
    intro line hline
    obtain ⟨texts, hwidths, rfl⟩ := hlines line hline
    rw [← hwidths, columns_joined]
  case titles =>
    rw [← hheader, columns_joined]
    refine List.Forall₂.cons ⟨_, rfl⟩ ?_
    rw [List.map_map, List.forall₂_map_right_iff]
    exact List.forall₂_same.2 fun name _ => ⟨_, rfl⟩
  case values =>
    rw [List.forall₂_map_right_iff]
    refine List.forall₂_same.2 fun r hr => ?_
    rw [← hrow r hr, columns_joined, dropBlanks_rowCells]

theorem toList_table (first : TraceRow) (rest : List TraceRow) :
    (table (first :: rest)).toList =
      (joined (cells (first :: rest) first.values.keys "cycle" id) ::
        (first :: rest).map fun r => joined (rowCells (first :: rest) first.values.keys r)).flatMap
          (· ++ ['\n']) := by
  have hrow : ∀ r, (rowLine (cycleWidth (first :: rest)) (first.values.keys.map fun name =>
      (columnWidth (first :: rest) name, name)) r).toList =
        joined (rowCells (first :: rest) first.values.keys r) ++ ['\n'] := by
    intro r
    rw [rowLine, toList_line, List.map_map]
    rfl
  simp only [table, String.toList_append, toList_line, String.toList_join, List.flatMap_cons,
    List.flatMap_map, hrow]
  rfl

/-- The lines of a table are aligned, and cutting them at the columns gives the rows back. -/
theorem table_aligned {first : TraceRow} {rest : List TraceRow}
    (hnames : ∀ name ∈ first.values.keys, '\n' ∉ name.toList) :
    ∃ header lines, (table (first :: rest)).toList.splitOn '\n' = header :: lines ++ [[]] ∧
      Aligned (first :: rest) first.values.keys header lines := by
  refine ⟨_, _, ?_, aligned_cells (first :: rest) first.values.keys⟩
  rw [toList_table, splitOn_lines]
  rw [List.forall_mem_cons, List.forall_mem_map]
  exact ⟨newline_notMem_cells (by decide) hnames, fun r _ =>
    newline_notMem_cells (newline_notMem_toString _) fun _ _ => newline_notMem_toString _⟩

/-- The second name takes two bytes, and the second row lacks the first name. -/
theorem table_aligned_accentedName :
    let first : TraceRow := ⟨7, (({} : NameMap UInt64).insert "busy" 1).insert "é" 255⟩
    let second : TraceRow := ⟨12, ({} : NameMap UInt64).insert "é" 18446744073709551615⟩
    (∀ name ∈ first.values.keys, '\n' ∉ name.toList) ∧
      ∃ header lines, (table [first, second]).toList.splitOn '\n' = header :: lines ++ [[]] ∧
        Aligned [first, second] first.values.keys header lines := by
  intro first second
  have hnames : ∀ name ∈ first.values.keys, '\n' ∉ name.toList := by decide +kernel
  exact ⟨hnames, table_aligned hnames⟩

end NandHdl.Trace
