-- SUMMARY: A dump says what was recorded (`Vcd.read_render`): read back, it gives every exported signal its value in every sample, and no change that is none.
import NandHdl.Proofs.Waveform.Reader
import Mathlib.Data.List.Nodup

/-!
# Dumps say what was recorded

The text of a recording is first taken apart into its lines, and the reader makes a recording of
them again. What remains is about the changes: a block lists the difference between two samples, so
the values after a block are those of its sample, on condition that the values before it were those
of the sample before. The codes of different variables differ, so a change of one variable never
changes another one, also if the two have the same name.
-/

namespace NandHdl.Vcd

/-! ## What is written -/

/-- The variables of the exported signals: their names, each with its code. -/
def vars (names : List String) : List (String × String) :=
  names.zipIdx.map fun (name, i) => (name, code i)

/-- The values of the variables in a sample. -/
def allOf (vars : List (String × String)) (sample : WaveSample) : List Change :=
  vars.map fun (name, code) => ⟨sample.value name, code⟩

/-- The values that differ from those in the sample before. -/
def changesOf (vars : List (String × String)) (previous sample : WaveSample) : List Change :=
  allOf (vars.filter fun (name, _) => sample.value name != previous.value name) sample

/-- A block for each sample after `previous`. -/
def blocksOf (vars : List (String × String)) (previous : WaveSample) : List WaveSample → List Block
  | [] => []
  | sample :: rest => ⟨sample.cycle.toNat * 10, changesOf vars previous sample⟩ ::
      blocksOf vars sample rest

/-- What the dump of a recording says. -/
def recordingOf (moduleName timescale : String) (names : List String) (samples : List WaveSample) :
    Recording where
  timescale := timescale
  scope := moduleName
  vars := (vars names).map Prod.swap
  first := samples.head?.map (allOf (vars names))
  blocks := match samples with
    | [] => []
    | first :: rest => blocksOf (vars names) first rest

/-! ## Its lines -/

/-- The lines of a block. -/
def Block.entries (b : Block) : List Entry := .time b.time :: b.changes.map .change

/-- The lines of a recording. -/
def Recording.entries (r : Recording) : List Entry :=
  .timescale r.timescale :: .scope r.scope :: (r.vars.map fun (code, name) => .var code name) ++
    .scopeEnd :: .definitionsEnd ::
    match r.first with
    | none => []
    | some first => .time 0 :: .dumpStart :: first.map .change ++
        .dumpEnd :: r.blocks.flatMap Block.entries

theorem write_cons (e : Entry) (rest : List Entry) :
    write (e :: rest) = line e.text ++ write rest := by
  rw [write, List.map_cons, String.join_cons, write]

theorem write_append (entries more : List Entry) :
    write (entries ++ more) = write entries ++ write more := by
  rw [write, List.map_append, String.join_append, write, write]

theorem write_nil : write [] = "" := rfl

theorem write_allOf (vars : List (String × String)) (sample : WaveSample) :
    write ((allOf vars sample).map .change) =
      String.join (vars.map fun (name, code) => valueLine (sample.value name) code) := by
  rw [write, allOf, List.map_map, List.map_map]
  rfl

theorem write_declared (vars : List (String × String)) :
    write ((vars.map Prod.swap).map fun (code, name) => .var code name) =
      String.join (vars.map fun (name, code) =>
        line ("$var wire 1 " ++ code ++ " " ++ name ++ " $end")) := by
  rw [write, List.map_map, List.map_map]
  rfl

theorem write_blocksOf (vars : List (String × String)) (previous : WaveSample)
    (samples : List WaveSample) :
    write ((blocksOf vars previous samples).flatMap Block.entries) =
      changeBlocks vars previous samples := by
  induction samples generalizing previous with
  | nil => rfl
  | cons sample rest ih =>
    rw [blocksOf, List.flatMap_cons, write_append, ih, Block.entries, write_cons, changesOf,
      write_allOf]
    rfl

theorem render_eq_write (moduleName timescale : String) (names : List String)
    (samples : List WaveSample) :
    render moduleName timescale names samples =
      write (recordingOf moduleName timescale names samples).entries := by
  cases samples with
  | nil =>
    simp only [recordingOf, Recording.entries, List.cons_append, write_cons, write_append,
      write_declared, List.head?_nil, Option.map_none, write_nil]
    simp only [render, header, Entry.text, vars, String.append_assoc, String.append_empty]
  | cons first rest =>
    simp only [recordingOf, Recording.entries, List.cons_append, write_cons, write_append,
      write_declared, List.head?_cons, Option.map_some, write_allOf, write_blocksOf]
    simp only [render, header, firstBlock, Entry.text, vars, String.append_assoc]
    rfl

/-! ## Its lines read again -/

theorem takeVars_append (vars : List (String × String)) (rest : List Entry) :
    takeVars ((vars.map fun (code, name) => Entry.var code name) ++ .scopeEnd :: rest) =
      (vars, .scopeEnd :: rest) := by
  induction vars with
  | nil => rfl
  | cons v vars ih => rw [List.map_cons, List.cons_append, takeVars, ih]

theorem takeChanges_append (changes : List Change) (rest : List Entry) :
    takeChanges (changes.map .change ++ .dumpEnd :: rest) = (changes, .dumpEnd :: rest) := by
  induction changes with
  | nil => rfl
  | cons c changes ih => rw [List.map_cons, List.cons_append, takeChanges, ih]

theorem readBlocks_changes {changes : List Change} {rest : List Entry} {blocks : List Block}
    (h : readBlocks rest = some ([], blocks)) :
    readBlocks (changes.map .change ++ rest) = some (changes, blocks) := by
  induction changes with
  | nil => exact h
  | cons c changes ih => rw [List.map_cons, List.cons_append, readBlocks, ih, Option.map_some]

theorem readBlocks_entries (blocks : List Block) :
    readBlocks (blocks.flatMap Block.entries) = some ([], blocks) := by
  induction blocks with
  | nil => rfl
  | cons b rest ih =>
    rw [List.flatMap_cons, Block.entries, List.cons_append, readBlocks, readBlocks_changes ih,
      Option.map_some]

/-- A recording is read as it was written, on condition that there are no blocks without values at
the start. -/
theorem readEntries_entries {r : Recording} (h : r.first = none → r.blocks = []) :
    readEntries r.entries = some r := by
  obtain ⟨timescale, scope, vars, first, blocks⟩ := r
  cases first with
  | none =>
    cases h rfl
    simp only [Recording.entries, List.cons_append, readEntries, takeVars_append, readBody,
      Option.map_some]
  | some first =>
    simp only [Recording.entries, List.cons_append, readEntries, takeVars_append, readBody,
      takeChanges_append, readBlocks_entries, Option.map_some]

/-! ## Codes and changes -/

theorem mem_vars {names : List String} {v : String × String} (h : v ∈ vars names) :
    ∃ k, names[k]? = some v.1 ∧ v.2 = code k := by
  obtain ⟨⟨name, k⟩, hmem, rfl⟩ := List.mem_map.1 h
  exact ⟨k, List.mem_zipIdx_iff_getElem?.1 hmem, rfl⟩

theorem getElem?_vars (names : List String) (k : Nat) :
    (vars names)[k]? = names[k]?.map fun name => (name, code k) := by
  simp [vars, List.getElem?_zipIdx, Function.comp_def]

theorem mem_vars_of_getElem? {names : List String} {k : Nat} {name : String}
    (h : names[k]? = some name) : (name, code k) ∈ vars names := by
  refine List.mem_of_getElem? (i := k) ?_
  rw [getElem?_vars, h, Option.map_some]

/-- No two variables have the same code, whatever their names. -/
theorem nodup_codes (names : List String) : ((vars names).map Prod.snd).Nodup := by
  have hcodes : (vars names).map Prod.snd = (List.range' 0 names.length).map code := by
    rw [vars, List.map_map, ← List.zipIdx_map_snd, List.map_map]
    rfl
  rw [hcodes]
  exact List.Nodup.map code_injective List.nodup_range'

theorem mem_allOf {vars : List (String × String)} {sample : WaveSample} {c : Change} :
    c ∈ allOf vars sample ↔ ∃ v ∈ vars, c = ⟨sample.value v.1, v.2⟩ := by
  rw [allOf, List.mem_map]
  simp only [eq_comm]

theorem map_code_allOf (vars : List (String × String)) (sample : WaveSample) :
    (allOf vars sample).map (·.code) = vars.map Prod.snd := by
  rw [allOf, List.map_map]
  rfl

theorem mem_changesOf {vars : List (String × String)} {previous sample : WaveSample} {c : Change} :
    c ∈ changesOf vars previous sample ↔
      ∃ v ∈ vars, sample.value v.1 ≠ previous.value v.1 ∧ c = ⟨sample.value v.1, v.2⟩ := by
  rw [changesOf, mem_allOf]
  simp only [List.mem_filter, bne_iff_ne, and_assoc]

theorem nodup_changesOf (names : List String) (previous sample : WaveSample) :
    ((changesOf (vars names) previous sample).map (·.code)).Nodup := by
  rw [changesOf, map_code_allOf]
  exact (nodup_codes names).sublist (List.filter_sublist.map Prod.snd)

/-- Every change is of a variable. -/
theorem mem_blocksOf {vars : List (String × String)} {previous : WaveSample}
    {samples : List WaveSample} {b : Block} (hb : b ∈ blocksOf vars previous samples) {c : Change}
    (hc : c ∈ b.changes) : ∃ v ∈ vars, c.code = v.2 := by
  induction samples generalizing previous with
  | nil => exact nomatch hb
  | cons sample rest ih =>
    rcases List.mem_cons.1 hb with rfl | hb
    · obtain ⟨v, hv, -, rfl⟩ := mem_changesOf.1 hc
      exact ⟨v, hv, rfl⟩
    · exact ih hb

theorem change_clean {names : List String} {c : Change} (h : ∃ v ∈ vars names, c.code = v.2) :
    (Entry.change c).Clean := by
  obtain ⟨v, hv, hcode⟩ := h
  obtain ⟨k, -, hk⟩ := mem_vars hv
  show '\n' ∉ c.code.toList
  rw [hcode, hk]
  exact not_mem_code (by decide)

section

variable {moduleName timescale : String} {names : List String} {samples : List WaveSample}

theorem mem_blocks_recordingOf {b : Block}
    (hb : b ∈ (recordingOf moduleName timescale names samples).blocks) {c : Change}
    (hc : c ∈ b.changes) : ∃ v ∈ vars names, c.code = v.2 := by
  cases samples with
  | nil => exact nomatch hb
  | cons first rest => exact mem_blocksOf hb hc

theorem clean_first {first : List Change}
    (h : (recordingOf moduleName timescale names samples).first = some first) :
    ∀ e ∈ first.map Entry.change, e.Clean := by
  intro e he
  obtain ⟨sample, -, rfl⟩ := Option.map_eq_some_iff.1 h
  obtain ⟨c, hc, rfl⟩ := List.mem_map.1 he
  obtain ⟨v, hv, rfl⟩ := mem_allOf.1 hc
  exact change_clean ⟨v, hv, rfl⟩

theorem clean_blocks : ∀ e ∈ (recordingOf moduleName timescale names samples).blocks.flatMap
    Block.entries, e.Clean := by
  intro e he
  obtain ⟨b, hb, he⟩ := List.mem_flatMap.1 he
  rcases List.mem_cons.1 he with rfl | he
  · trivial
  · obtain ⟨c, hc, rfl⟩ := List.mem_map.1 he
    exact change_clean (mem_blocks_recordingOf hb hc)

/-- Names without line breaks break no line. -/
theorem clean_entries (hmodule : '\n' ∉ moduleName.toList) (htimescale : '\n' ∉ timescale.toList)
    (hnames : ∀ name ∈ names, '\n' ∉ name.toList) :
    ∀ e ∈ (recordingOf moduleName timescale names samples).entries, e.Clean := by
  have hvars : ∀ e ∈ (recordingOf moduleName timescale names samples).vars.map
      (fun (code, name) => Entry.var code name), e.Clean := by
    intro e he
    simp only [recordingOf, List.map_map, List.mem_map] at he
    obtain ⟨v, hv, rfl⟩ := he
    obtain ⟨k, hname, hk⟩ := mem_vars hv
    show '\n' ∉ v.2.toList ∧ ' ' ∉ v.2.toList ∧ '\n' ∉ v.1.toList
    rw [hk]
    exact ⟨not_mem_code (by decide), not_mem_code (by decide),
      hnames _ (List.mem_of_getElem? hname)⟩
  rw [Recording.entries, List.cons_append, List.cons_append, List.forall_mem_cons,
    List.forall_mem_cons, List.forall_mem_append, List.forall_mem_cons, List.forall_mem_cons]
  refine ⟨htimescale, hmodule, hvars, trivial, trivial, ?_⟩
  split
  · exact nofun
  · rename_i first h
    rw [List.cons_append, List.cons_append, List.forall_mem_cons, List.forall_mem_cons,
      List.forall_mem_append, List.forall_mem_cons]
    exact ⟨trivial, trivial, clean_first h, trivial, clean_blocks⟩

/-- The text is read as the recording that it was made of. -/
theorem read_render_eq (hmodule : '\n' ∉ moduleName.toList) (htimescale : '\n' ∉ timescale.toList)
    (hnames : ∀ name ∈ names, '\n' ∉ name.toList) :
    read (render moduleName timescale names samples) =
      some (recordingOf moduleName timescale names samples) := by
  rw [render_eq_write, read_write (clean_entries hmodule htimescale hnames)]
  apply readEntries_entries
  intro h
  cases samples with
  | nil => rfl
  | cons first rest => exact nomatch h

end

/-! ## Values after changes -/

/-- The values by code after changes in their order. -/
def applyAll (v : String → Option Bool) (changes : List Change) : String → Option Bool :=
  changes.foldl (fun v c => Function.update v c.code (some c.value)) v

theorem applyAll_of_not_mem {v : String → Option Bool} {changes : List Change} {code : String}
    (h : code ∉ changes.map (·.code)) : applyAll v changes code = v code := by
  induction changes generalizing v with
  | nil => rfl
  | cons c rest ih =>
    rw [List.map_cons, List.mem_cons, not_or] at h
    have hrest := ih (v := Function.update v c.code (some c.value)) h.2
    rw [Function.update_of_ne h.1] at hrest
    exact hrest

theorem applyAll_of_mem {v : String → Option Bool} {changes : List Change}
    (hnodup : (changes.map (·.code)).Nodup) {c : Change} (h : c ∈ changes) :
    applyAll v changes c.code = some c.value := by
  induction changes generalizing v with
  | nil => exact nomatch h
  | cons d rest ih =>
    obtain ⟨hfresh, hrest⟩ := List.nodup_cons.1 hnodup
    rcases List.mem_cons.1 h with rfl | h
    · have hkept := applyAll_of_not_mem (v := Function.update v c.code (some c.value)) hfresh
      rw [Function.update_self] at hkept
      exact hkept
    · exact ih hrest h

/-- The values by code after the values at the start and the first `i` blocks. -/
def Recording.valuesAfter (r : Recording) (i : Nat) : String → Option Bool :=
  (r.blocks.take i).foldl (fun v b => applyAll v b.changes)
    (applyAll (fun _ => none) (r.first.getD []))

/-- The values of the variables are those of a sample. -/
def ValuesOf (names : List String) (sample : WaveSample) (v : String → Option Bool) : Prop :=
  ∀ k name, names[k]? = some name → v (code k) = some (sample.value name)

theorem valuesOf_allOf (names : List String) (sample : WaveSample) (v : String → Option Bool) :
    ValuesOf names sample (applyAll v (allOf (vars names) sample)) := by
  intro k name hname
  have hmem : (⟨sample.value name, code k⟩ : Change) ∈ allOf (vars names) sample :=
    mem_allOf.2 ⟨_, mem_vars_of_getElem? hname, rfl⟩
  have hnodup := nodup_codes names
  rw [← map_code_allOf _ sample] at hnodup
  exact applyAll_of_mem hnodup hmem

/-- One block leads from a sample to the next. -/
theorem ValuesOf.changesOf {names : List String} {previous : WaveSample} {v : String → Option Bool}
    (h : ValuesOf names previous v) (sample : WaveSample) :
    ValuesOf names sample (applyAll v (changesOf (vars names) previous sample)) := by
  intro k name hname
  by_cases hsame : sample.value name = previous.value name
  · rw [applyAll_of_not_mem, h k name hname, hsame]
    intro hmem
    obtain ⟨c, hc, hcode⟩ := List.mem_map.1 hmem
    obtain ⟨w, hw, hdiffers, rfl⟩ := mem_changesOf.1 hc
    obtain ⟨j, hj, hwcode⟩ := mem_vars hw
    -- a change with this code is of this very variable, which keeps its value
    cases code_injective (hwcode.symm.trans hcode)
    rw [hname] at hj
    cases hj
    exact hdiffers hsame
  · have hmem : (⟨sample.value name, code k⟩ : Change) ∈ Vcd.changesOf (vars names) previous sample :=
      mem_changesOf.2 ⟨_, mem_vars_of_getElem? hname, hsame, rfl⟩
    exact applyAll_of_mem (nodup_changesOf names previous sample) hmem

/-- The blocks lead from sample to sample. -/
theorem ValuesOf.blocksOf {names : List String} {previous : WaveSample} {v : String → Option Bool}
    (h : ValuesOf names previous v) {samples : List WaveSample} {i : Nat} {sample : WaveSample}
    (hsample : (previous :: samples)[i]? = some sample) :
    ValuesOf names sample
      (((blocksOf (vars names) previous samples).take i).foldl (fun v b => applyAll v b.changes) v) := by
  induction samples generalizing previous v i with
  | nil =>
    cases i with
    | zero =>
      cases hsample
      exact h
    | succ i => exact nomatch hsample
  | cons next rest ih =>
    cases i with
    | zero =>
      cases hsample
      exact h
    | succ i => exact ih (h.changesOf next) hsample

/-! ## Dumps -/

/-- The blocks of a recording, with the samples that they stand between. -/
theorem getElem?_blocksOf {vars : List (String × String)} {previous : WaveSample}
    {samples : List WaveSample} {i : Nat} {b : Block}
    (h : (blocksOf vars previous samples)[i]? = some b) {before after : WaveSample}
    (hbefore : (previous :: samples)[i]? = some before) (hafter : samples[i]? = some after) :
    b.changes = changesOf vars before after := by
  induction samples generalizing previous i with
  | nil => exact nomatch hafter
  | cons next rest ih =>
    cases i with
    | zero =>
      cases h
      cases hbefore
      cases hafter
      rfl
    | succ i => exact ih h hbefore hafter

theorem map_time_blocksOf (vars : List (String × String)) (previous : WaveSample)
    (samples : List WaveSample) :
    (blocksOf vars previous samples).map (·.time) = samples.map fun s => s.cycle.toNat * 10 := by
  induction samples generalizing previous with
  | nil => rfl
  | cons sample rest ih => rw [blocksOf, List.map_cons, ih, List.map_cons]

/-- A recording shows the samples: each exported signal has a variable, by its place and not by its
name, and the values of the variables follow the samples without idle changes. -/
structure Recording.Shows (r : Recording) (names : List String) (samples : List WaveSample) :
    Prop where
  /-- Each code is bound to the name in its place. -/
  vars : ∀ k, r.vars[k]? = names[k]?.map fun name => (code k, name)
  codes : (r.vars.map Prod.fst).Nodup
  /-- There are values at the start if there is a sample, one for each code. -/
  start : r.first.isSome ↔ samples ≠ []
  started : ∀ first, r.first = some first → first.map (·.code) = r.vars.map Prod.fst
  /-- There is one block for each later sample. -/
  times : r.blocks.map (·.time) = samples.tail.map fun s => s.cycle.toNat * 10
  values : ∀ i sample, samples[i]? = some sample → ∀ k name, names[k]? = some name →
    r.valuesAfter i (code k) = some (sample.value name)
  /-- No block mentions a code twice, and none mentions a variable that keeps its value. -/
  changed : ∀ i block before after, r.blocks[i]? = some block → samples[i]? = some before →
    samples[i + 1]? = some after → (block.changes.map (·.code)).Nodup ∧
      ∀ c ∈ block.changes, ∃ k name, names[k]? = some name ∧ c.code = code k ∧
        after.value name ≠ before.value name

theorem map_fst_recordingOf (moduleName timescale : String) (names : List String)
    (samples : List WaveSample) :
    (recordingOf moduleName timescale names samples).vars.map Prod.fst =
      (vars names).map Prod.snd :=
  List.map_map

theorem recordingOf_shows (moduleName timescale : String) (names : List String)
    (samples : List WaveSample) :
    (recordingOf moduleName timescale names samples).Shows names samples where
  vars k := by
    simp only [recordingOf, List.getElem?_map, getElem?_vars, Option.map_map]
    rfl
  codes := by
    have hcodes := nodup_codes names
    rwa [← map_fst_recordingOf moduleName timescale names samples] at hcodes
  start := by cases samples <;> simp [recordingOf]
  started first h := by
    obtain ⟨sample, -, rfl⟩ := Option.map_eq_some_iff.1 h
    rw [map_code_allOf, map_fst_recordingOf]
  times := by
    cases samples with
    | nil => rfl
    | cons first rest => exact map_time_blocksOf _ _ _
  values i sample hsample := by
    cases samples with
    | nil => exact nomatch hsample
    | cons first rest => exact (valuesOf_allOf names first _).blocksOf hsample
  changed i block before after hblock hbefore hafter := by
    cases samples with
    | nil => exact nomatch hbefore
    | cons first rest =>
      rw [getElem?_blocksOf hblock hbefore hafter]
      refine ⟨nodup_changesOf names before after, ?_⟩
      intro c hc
      obtain ⟨v, hv, hdiffers, rfl⟩ := mem_changesOf.1 hc
      obtain ⟨k, hname, hcode⟩ := mem_vars hv
      exact ⟨k, v.1, hname, hcode, hdiffers⟩

/-- A dump says what was recorded. The text of any samples of any signals is read as a recording that
shows those samples, as long as no name breaks a line. -/
theorem read_render {moduleName timescale : String} {names : List String}
    (samples : List WaveSample) (hmodule : '\n' ∉ moduleName.toList)
    (htimescale : '\n' ∉ timescale.toList) (hnames : ∀ name ∈ names, '\n' ∉ name.toList) :
    ∃ r, read (render moduleName timescale names samples) = some r ∧ r.timescale = timescale ∧
      r.scope = moduleName ∧ r.Shows names samples :=
  ⟨_, read_render_eq hmodule htimescale hnames, rfl, rfl, recordingOf_shows _ _ _ _⟩

/-- A clock that is exported twice, under a name with a blank in it. -/
def clockSamples : List WaveSample :=
  [⟨0, Std.TreeMap.ofList [("clk a", true)]⟩, ⟨1, Std.TreeMap.ofList [("clk a", false)]⟩]

theorem read_render_clock : ∃ r,
    read (render "top" "1ns" ["clk a", "clk a", "q"] clockSamples) = some r ∧
      r.blocks.length = 1 ∧ r.valuesAfter 1 (code 1) = some false ∧
      r.valuesAfter 0 (code 1) = some true := by
  have hmodule : '\n' ∉ "top".toList := by decide
  have htimescale : '\n' ∉ "1ns".toList := by decide
  have hnames : ∀ name ∈ ["clk a", "clk a", "q"], '\n' ∉ name.toList := by decide
  obtain ⟨r, hread, -, -, hshows⟩ := read_render clockSamples hmodule htimescale hnames
  have hlength := congrArg List.length hshows.times
  rw [List.length_map] at hlength
  exact ⟨r, hread, hlength, hshows.values 1 _ rfl 1 _ rfl, hshows.values 0 _ rfl 1 _ rfl⟩

end NandHdl.Vcd
