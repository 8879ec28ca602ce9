-- SUMMARY: The tables of the levelizer: which gate drives a signal, which gates a gate reads, and which gates read it.
import NandHdl.Netlist.Levels
import NandHdl.Proofs.Netlist.Wellformed

/-!
# Tables of the levelizer

For a well-formed netlist the tables can be filled, and they say what they are meant to say: the
dependencies of a gate are the gates that drive one of its inputs, each once, and the readers of a
gate are the gates that have it as a dependency.
-/

namespace NandHdl

/-- The gate at position `i` drives the signal `s`. -/
def Netlist.Drives (n : Netlist) (i : GateId) (s : SignalId) : Prop :=
  ∃ g, n.gates[i]? = some g ∧ g.out = s

/-- The gate at position `d` drives an input of the gate at position `i`. -/
def Netlist.Feeds (n : Netlist) (d i : GateId) : Prop :=
  ∃ g, n.gates[i]? = some g ∧ (n.Drives d g.in1 ∨ n.Drives d g.in2)

theorem Netlist.Drives.lt {n : Netlist} {i : GateId} {s : SignalId} (h : n.Drives i s) :
    i < n.gates.size := by
  obtain ⟨g, hg, -⟩ := h
  exact (Array.getElem?_eq_some_iff.1 hg).1

theorem Netlist.Feeds.lt {n : Netlist} {d i : GateId} (h : n.Feeds d i) : d < n.gates.size := by
  obtain ⟨g, -, h | h⟩ := h
  · exact h.lt
  · exact h.lt

namespace Levels

/-! ## What tables have to say -/

/-- The dependencies in a table; none past the end. -/
abbrev depsOf (deps : Array (List GateId)) (g : GateId) : List GateId := deps.getD g []

/-- The readers in a table; none past the end. -/
abbrev readersOf (readers : Array (Array GateId)) (g : GateId) : List GateId :=
  (readers.getD g #[]).toList

/-- A dependency table and the reader table that belongs to it. -/
structure Tables (deps : Array (List GateId)) (readers : Array (Array GateId)) : Prop where
  size_eq : readers.size = deps.size
  dep_lt : ∀ {g d}, d ∈ depsOf deps g → d < deps.size
  dep_nodup : ∀ g, (depsOf deps g).Nodup
  reader_nodup : ∀ g, (readersOf readers g).Nodup
  mem_reader : ∀ {g r}, r ∈ readersOf readers g ↔ g ∈ depsOf deps r

/-- A gate with a dependency is in the table. -/
theorem lt_of_mem_depsOf {deps : Array (List GateId)} {g d : GateId} (h : d ∈ depsOf deps g) :
    g < deps.size := by
  by_contra hge
  simp [depsOf, Array.getD_eq_getD_getElem?, hge] at h

theorem Tables.reader_lt {deps : Array (List GateId)} {readers : Array (Array GateId)}
    (h : Tables deps readers) {g r : GateId} (hr : r ∈ readersOf readers g) : r < deps.size :=
  lt_of_mem_depsOf (h.mem_reader.1 hr)

/-! ## Filling the tables -/

variable {n : Netlist}

theorem drivers_ok (hw : n.Wellformed) (hn : n.Numbered) :
    ∃ table, drivers n = .ok table ∧ table.size = n.signals.size ∧
      ∀ s i, table[s]? = some (some i) ↔ n.Drives i s := by
  obtain ⟨table, hok, hsize, htable⟩ := Checked.foldlM_set NandGate.out
    NandGate.id n.gates.toList n.signals.size
    (fun g hg => (hw.gate_lt g (Array.mem_toList_iff.1 hg)).2.2) hw.gate_out_nodup
  refine ⟨table, ?_, hsize, fun s i => ?_⟩
  · rw [drivers, ← Array.foldlM_toList]
    exact hok
  · rw [htable]
    constructor
    · rintro ⟨g, hg, rfl, rfl⟩
      obtain ⟨j, hj⟩ := Array.getElem?_of_mem (Array.mem_toList_iff.1 hg)
      rw [hn.gate hj]
      exact ⟨g, hj, rfl⟩
    · rintro ⟨g, hg, rfl⟩
      exact ⟨g, Array.mem_toList_iff.2 (Array.mem_of_getElem? hg), rfl, hn.gate hg⟩

theorem mem_sources {a b : Option GateId} {d : GateId} :
    d ∈ sources a b ↔ a = some d ∨ b = some d := by
  cases a with
  | none => cases b <;> simp [sources, eq_comm]
  | some a =>
    cases b with
    | none => simp [sources, eq_comm]
    | some b =>
      by_cases h : a = b
      · simp [sources, h, eq_comm]
      · simp [sources, h, eq_comm]

theorem sources_nodup (a b : Option GateId) : (sources a b).Nodup := by
  cases a with
  | none => cases b <;> simp [sources]
  | some a =>
    cases b with
    | none => simp [sources]
    | some b =>
      by_cases h : a = b
      · simp [sources, h]
      · simp [sources, h]

theorem dependencies_ok (hw : n.Wellformed) (hn : n.Numbered) :
    ∃ deps, dependencies n = .ok deps ∧ deps.size = n.gates.size ∧
      (∀ g, (depsOf deps g).Nodup) ∧ ∀ g d, d ∈ depsOf deps g ↔ n.Feeds d g := by
  obtain ⟨table, htable, hsize, hdrives⟩ := drivers_ok hw hn
  let found (g : NandGate) : List GateId := sources (table.getD g.in1 none) (table.getD g.in2 none)
  have hget : ∀ s < n.signals.size, Checked.get table s = .ok (table.getD s none) := by
    intro s hs
    rw [Checked.get_eq_ok]
    simp [hsize, hs]
  have hdriven : ∀ s d, table.getD s none = some d ↔ n.Drives d s := by
    intro s d
    rw [← hdrives, Array.getD_eq_getD_getElem?]
    cases table[s]? <;> simp
  have hmap : dependencies n = .ok (n.gates.map found) := by
    rw [dependencies, htable, Except.ok_bind]
    refine Array.mapM_eq_ok fun g hg => ?_
    rw [hget _ (hw.gate_lt g hg).1, hget _ (hw.gate_lt g hg).2.1]
    rfl
  have hdeps : ∀ g, depsOf (n.gates.map found) g = ((n.gates[g]?).map found).getD [] := by
    simp [depsOf, Array.getD_eq_getD_getElem?]
  refine ⟨_, hmap, Array.size_map, fun g => ?_, fun g d => ?_⟩
  · rw [hdeps]
    cases n.gates[g]? with
    | none => exact List.nodup_nil
    | some gate => exact sources_nodup _ _
  · rw [hdeps]
    cases hg : n.gates[g]? with
    | none => simp [Netlist.Feeds, hg]
    | some gate =>
      simp only [Option.map_some, Option.getD_some, found, mem_sources, hdriven, Netlist.Feeds, hg,
        Option.some.injEq, exists_eq_left']

theorem addReader_ok (table : Array (Array GateId)) (reader : GateId) (gs : List GateId)
    (hlt : ∀ g ∈ gs, g < table.size) (hnodup : gs.Nodup) :
    ∃ table', addReader table reader gs = .ok table' ∧ table'.size = table.size ∧
      ∀ k, readersOf table' k = readersOf table k ++ if k ∈ gs then [reader] else [] := by
  induction gs generalizing table with
  | nil => exact ⟨table, rfl, rfl, by simp⟩
  | cons g rest ih =>
    have hg : g < table.size := hlt g List.mem_cons_self
    obtain ⟨hout, hrest⟩ := List.nodup_cons.1 hnodup
    obtain ⟨table', hok, hsize, hreaders⟩ := ih (table.modify g (·.push reader))
      (fun k hk => by simpa using hlt k (List.mem_cons_of_mem g hk)) hrest
    refine ⟨table', ?_, by simpa using hsize, fun k => ?_⟩
    · rw [addReader, Checked.modify_ok hg]
      exact hok
    · rw [hreaders]
      simp only [readersOf, Array.getD_eq_getD_getElem?, Array.getElem?_modify]
      by_cases hk : g = k
      · subst hk
        simp [hout, hg]
      · simp [hk, Ne.symm hk]

/-- The gates that read the gate `k`, among gates with their dependencies. -/
def readersIn (k : GateId) (pairs : List (NandGate × List GateId)) : List GateId :=
  (pairs.filter fun p => k ∈ p.2).map fun p => p.1.id

theorem depsOf_pair (hn : n.Numbered) {deps : Array (List GateId)} {p : NandGate × List GateId}
    (hp : p ∈ (n.gates.zip deps).toList) : depsOf deps p.1.id = p.2 := by
  obtain ⟨i, hi⟩ := Array.getElem?_of_mem (Array.mem_toList_iff.1 hp)
  obtain ⟨hg, hd⟩ := Array.getElem?_zip_eq_some.1 hi
  simp [depsOf, Array.getD_eq_getD_getElem?, hn.gate hg, hd]

theorem pair_ids (hn : n.Numbered) {deps : Array (List GateId)} (hsize : deps.size = n.gates.size) :
    (n.gates.zip deps).toList.map (fun p => p.1.id) = List.range n.gates.size := by
  have hfst : (n.gates.zip deps).toList.map Prod.fst = n.gates.toList := by
    rw [Array.toList_zip]
    exact List.map_fst_zip (by simp [hsize])
  rw [← hn.gate_ids, ← hfst, List.map_map]
  rfl

/-- The readers of `k` in a list of all gates are those that have it as a dependency. -/
theorem mem_readersIn (hn : n.Numbered) {deps : Array (List GateId)}
    (hsize : deps.size = n.gates.size) {k r : GateId} :
    r ∈ readersIn k (n.gates.zip deps).toList ↔ k ∈ depsOf deps r := by
  simp only [readersIn, List.mem_map, List.mem_filter, decide_eq_true_eq]
  constructor
  · rintro ⟨p, ⟨hp, hk⟩, rfl⟩
    rw [depsOf_pair hn hp]
    exact hk
  · intro hk
    have hr : r ∈ (n.gates.zip deps).toList.map fun p => p.1.id := by
      rw [pair_ids hn hsize, List.mem_range, ← hsize]
      exact lt_of_mem_depsOf hk
    obtain ⟨p, hp, rfl⟩ := List.mem_map.1 hr
    exact ⟨p, ⟨hp, depsOf_pair hn hp ▸ hk⟩, rfl⟩

theorem readersIn_nodup (hn : n.Numbered) {deps : Array (List GateId)}
    (hsize : deps.size = n.gates.size) (k : GateId) :
    (readersIn k (n.gates.zip deps).toList).Nodup := by
  have hall : ((n.gates.zip deps).toList.map fun p => p.1.id).Nodup :=
    pair_ids hn hsize ▸ List.nodup_range
  exact hall.sublist (List.filter_sublist.map _)

theorem readers_ok (hn : n.Numbered) {deps : Array (List GateId)} (hsize : deps.size = n.gates.size)
    (hlt : ∀ {g d}, d ∈ depsOf deps g → d < deps.size) (hnodup : ∀ g, (depsOf deps g).Nodup) :
    ∃ table, readers n deps = .ok table ∧ Tables deps table := by
  obtain ⟨table, hok, htsize, htable⟩ :=
    List.foldlM_eq_ok (f := fun table (p : NandGate × List GateId) => addReader table p.1.id p.2)
      (l := (n.gates.zip deps).toList) (b := Array.replicate n.gates.size #[])
      (P := fun done table =>
        table.size = n.gates.size ∧ ∀ k, readersOf table k = readersIn k done)
      (by
        refine ⟨Array.size_replicate, fun k => ?_⟩
        by_cases hk : k < n.gates.size <;> simp [readersOf, readersIn, hk])
      (by
        rintro done p rest table hl ⟨htsize, htable⟩
        have hp : depsOf deps p.1.id = p.2 := depsOf_pair hn (by
          rw [hl]
          simp)
        obtain ⟨table', hok, htsize', htable'⟩ := addReader_ok table p.1.id p.2
          (fun g hg => by rw [htsize, ← hsize]; exact hlt (hp ▸ hg)) (hp ▸ hnodup _)
        refine ⟨table', hok, htsize'.trans htsize, fun k => ?_⟩
        rw [htable', htable]
        by_cases hk : k ∈ p.2
        · simp [readersIn, hk]
        · simp [readersIn, hk])
  refine ⟨table, ?_, htsize.trans hsize.symm, hlt, hnodup, fun g => ?_, fun {g r} => ?_⟩
  · rw [readers, ← Array.foldlM_toList]
    exact hok
  · rw [htable]
    exact readersIn_nodup hn hsize g
  · rw [htable]
    exact mem_readersIn hn hsize

end Levels

end NandHdl
