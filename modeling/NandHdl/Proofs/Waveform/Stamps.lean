-- SUMMARY: The moments that a dump counts (`Vcd.stamps`), read off its text after the declarations, and what they are for recorded samples.
import NandHdl.Proofs.Waveform.Dump
import Mathlib.Data.List.DropRight

/-!
# The moments of a dump

A dump counts its moments after the declarations, on lines that start with `#`. The declarations end
at the last line that says so. A name with line breaks in it may look like any other line, but it
stands before that one. So the moments can be read off the text of any recording, whatever the names
of its signals are.
-/

namespace NandHdl.Vcd

/-- The moment that a line names. -/
def Entry.moment? : Entry → Option Nat
  | .time moment => some moment
  | _ => none

/-- The lines after the declarations. -/
def afterDeclarations (ls : List (List Char)) : List (List Char) :=
  ls.rtakeWhile (· ≠ Entry.definitionsEnd.text.toList)

/-- The moments of a dump in their order. -/
def stamps (text : String) : List Nat :=
  (afterDeclarations (lines text.toList)).filterMap fun l => readLine l >>= Entry.moment?

/-- The moments at which a recording shows its samples. -/
def momentsOf : List WaveSample → List Nat
  | [] => []
  | _ :: rest => 0 :: rest.map fun s => s.cycle.toNat * 10

/-! ## Lines below each other -/

theorem lines_append_newline (l rest : List Char) :
    lines (l ++ '\n' :: rest) = lines (l ++ ['\n']) ++ lines rest := by
  induction l with
  | nil => rfl
  | cons c l ih =>
    have hne : lines (l ++ ['\n']) ≠ [] := by
      cases l with
      | nil => exact List.cons_ne_nil _ _
      | cons d l =>
        rw [List.cons_append, lines]
        split
        · exact List.cons_ne_nil _ _
        · split <;> exact List.cons_ne_nil _ _
    obtain ⟨first, more, hlines⟩ := List.exists_cons_of_ne_nil hne
    rw [List.cons_append, List.cons_append, lines, lines, ih, hlines]
    split <;> rfl

/-- Whole lines are lines also above other lines. -/
theorem lines_write_append (entries : List Entry) (rest : List Char) :
    lines ((write entries).toList ++ rest) = lines (write entries).toList ++ lines rest := by
  induction entries with
  | nil => rfl
  | cons e entries ih =>
    have hlines : ∀ rest : List Char, lines ((write (e :: entries)).toList ++ rest) =
        lines (e.text.toList ++ ['\n']) ++ lines ((write entries).toList ++ rest) := by
      intro rest
      rw [← lines_append_newline, write_cons, line]
      simp only [String.toList_append, List.append_assoc]
      rfl
    have hself := hlines []
    rw [List.append_nil, List.append_nil] at hself
    rw [hlines, hself, ih, List.append_assoc]

theorem lines_write {entries : List Entry} (h : ∀ e ∈ entries, e.Clean) :
    lines (write entries).toList = entries.map fun e => e.text.toList := by
  induction entries with
  | nil => rfl
  | cons e rest ih =>
    rw [List.forall_mem_cons] at h
    have htext : (write (e :: rest)).toList = e.text.toList ++ '\n' :: (write rest).toList := by
      simp [write_cons, line]
    rw [htext, lines_append (newline_not_mem_text h.1), ih h.2, List.map_cons]

/-! ## Moments -/

theorem afterDeclarations_append {before after : List (List Char)}
    (h : Entry.definitionsEnd.text.toList ∉ after) :
    afterDeclarations (before ++ Entry.definitionsEnd.text.toList :: after) = after := by
  induction after using List.reverseRecOn with
  | nil => exact List.rtakeWhile_concat_neg _ _ _ (by simp)
  | append_singleton after l ih =>
    rw [List.mem_append, not_or, List.mem_singleton] at h
    have hlast : (decide (l ≠ Entry.definitionsEnd.text.toList)) = true :=
      decide_eq_true (Ne.symm h.2)
    have hrest := ih h.1
    rw [afterDeclarations] at hrest ⊢
    rw [← List.cons_append, ← List.append_assoc, List.rtakeWhile_concat, if_pos hlast, hrest]

theorem definitionsEnd_not_mem_text {entries : List Entry} (h : ∀ e ∈ entries, e.Clean)
    (hend : .definitionsEnd ∉ entries) :
    Entry.definitionsEnd.text.toList ∉ entries.map fun e => e.text.toList := by
  intro hmem
  obtain ⟨e, he, htext⟩ := List.mem_map.1 hmem
  have hread := readLine_text (h e he)
  -- a line is read as the entry it was written for
  rw [htext, readLine_text (e := .definitionsEnd) trivial] at hread
  cases hread
  exact hend he

/-- The moments are those of the entries after the declarations. -/
theorem stamps_write (before : List Entry) {after : List Entry} (h : ∀ e ∈ after, e.Clean)
    (hend : .definitionsEnd ∉ after) :
    stamps (write (before ++ .definitionsEnd :: after)) = after.filterMap Entry.moment? := by
  have hlines : lines (write (before ++ .definitionsEnd :: after)).toList =
      lines (write before).toList ++ Entry.definitionsEnd.text.toList ::
        after.map fun e => e.text.toList := by
    rw [write_append, String.toList_append, lines_write_append, ← lines_write h, write_cons, line,
      String.toList_append, String.toList_append, List.append_assoc]
    rfl
  rw [stamps, hlines, afterDeclarations_append (definitionsEnd_not_mem_text h hend),
    List.filterMap_map]
  refine List.filterMap_congr fun e he => ?_
  show readLine e.text.toList >>= Entry.moment? = e.moment?
  rw [readLine_text (h e he)]
  rfl

/-! ## Recordings -/

/-- The entries of a recording after its declarations. -/
def Recording.body (r : Recording) : List Entry :=
  match r.first with
  | none => []
  | some first => .time 0 :: .dumpStart :: first.map .change ++
      .dumpEnd :: r.blocks.flatMap Block.entries

theorem moments_changes (changes : List Change) :
    (changes.map Entry.change).filterMap Entry.moment? = [] := by
  simp [Entry.moment?]

theorem moments_blocks (blocks : List Block) :
    (blocks.flatMap Block.entries).filterMap Entry.moment? = blocks.map (·.time) := by
  induction blocks with
  | nil => rfl
  | cons b rest ih =>
    rw [List.flatMap_cons, List.filterMap_append, ih, Block.entries, List.filterMap_cons,
      moments_changes]
    rfl

theorem definitionsEnd_not_mem_body (r : Recording) : .definitionsEnd ∉ r.body := by
  rw [Recording.body]
  split
  · exact List.not_mem_nil
  · simp [Block.entries]

section

variable {moduleName timescale : String} {names : List String} {samples : List WaveSample}

theorem clean_body : ∀ e ∈ (recordingOf moduleName timescale names samples).body, e.Clean := by
  rw [Recording.body]
  split
  · exact nofun
  · next first h =>
    rw [List.cons_append, List.cons_append, List.forall_mem_cons, List.forall_mem_cons,
      List.forall_mem_append, List.forall_mem_cons]
    exact ⟨trivial, trivial, clean_first h, trivial, clean_blocks⟩

theorem moments_body :
    (recordingOf moduleName timescale names samples).body.filterMap Entry.moment? =
      momentsOf samples := by
  cases samples with
  | nil => rfl
  | cons first rest =>
    have hbody : (recordingOf moduleName timescale names (first :: rest)).body =
        .time 0 :: .dumpStart :: (allOf (vars names) first).map .change ++
          .dumpEnd :: (blocksOf (vars names) first rest).flatMap Block.entries := rfl
    rw [hbody, List.filterMap_append, List.filterMap_cons, List.filterMap_cons, moments_changes,
      List.filterMap_cons, moments_blocks, map_time_blocksOf]
    rfl

/-- The moments of a dump are those of the samples, under any names. -/
theorem stamps_render : stamps (render moduleName timescale names samples) = momentsOf samples := by
  have hentries : ∀ r : Recording, r.entries =
      (.timescale r.timescale :: .scope r.scope :: (r.vars.map fun v => .var v.1 v.2) ++
        [.scopeEnd]) ++ .definitionsEnd :: r.body := by
    intro r
    rw [Recording.entries, Recording.body, List.append_assoc]
    rfl
  rw [render_eq_write, hentries, stamps_write _ clean_body (definitionsEnd_not_mem_body _),
    moments_body]

end

end NandHdl.Vcd
