-- SUMMARY: What a run shows (`run_follows`): each row of the trace is settled, and each later sample of the waveform lies between two rows.
import NandHdl.Design.Run
import NandHdl.Proofs.Design.Built
import NandHdl.Proofs.Simulation.BusAccess

/-!
# Traces and waveforms

A run settles the gates, takes a row, and then for every row clocks the circuit and settles the
gates again. The waveform gets its samples elsewhere: one when the recording starts and then one
inside every cycle, right after the flip-flops have moved. So in a later sample the flip-flops are
those of the row that follows, and the gates are still those of the row before.
-/

namespace NandHdl

/-! ## Rows and samples of a store -/

/-- The row shows the watched names as they are after `k` cycles in the settled store `s`. -/
structure TraceRow.Shows (row : TraceRow) (n : Netlist) (watch : List String) (k : Nat)
    (s : Store) : Prop where
  cycle_eq : row.cycle.toNat = k % 2 ^ 32
  names : ∀ name, name ∈ row.values ↔ name ∈ watch
  known : ∀ name ∈ watch, n.targets name ≠ [] ∧ (n.targets name).length ≤ 64
  /-- Bit `i` of the number is bit `i` of the bus. -/
  value : ∀ name ∈ watch, ∃ word : UInt64, row.values[name]? = some word ∧
    ∀ i, word.toNat.testBit i = ((n.targets name).map s.bit).getD i false

/-- The sample shows every signal with a name: the first one as it has settled, a later one between
two rows. -/
structure WaveSample.Shows (sample : WaveSample) (n : Netlist) (settled : Nat → Store) (k : Nat) :
    Prop where
  cycle_eq : sample.cycle.toNat = k % 2 ^ 32
  names : ∀ name, name ∈ sample.values ↔ name ∈ n.names
  first : k = 0 → ∀ {name id}, n.signalId? name = some id →
    sample.value name = (settled 0).bit id
  /-- Flip-flops have moved already. -/
  register : ∀ {name id}, n.signalId? name = some id → (∃ f ∈ n.dffs, f.q = id) →
    sample.value name = (settled k).bit id
  /-- Gates have not. -/
  gate : 0 < k → ∀ {name id}, n.signalId? name = some id → n.IsGateOutput id →
    sample.value name = (settled (k - 1)).bit id
  other : 0 < k → ∀ {name id}, n.signalId? name = some id → (∀ f ∈ n.dffs, f.q ≠ id) →
    sample.value name = (settled (k - 1)).bit id

namespace Netlist

/-- The number that a name stands for. -/
def wordOf (n : Netlist) (s : Store) (name : String) : UInt64 :=
  Store.wordOfBits ((n.targets name).map s.bit)

/-- The row of a store. -/
def rowOf (n : Netlist) (watch : List String) (s : Store) : TraceRow where
  cycle := s.cycle
  values := watch.foldl (fun values name => values.insert name (n.wordOf s name)) {}

/-- The sample of a store. -/
def sampleOf (n : Netlist) (s : Store) : WaveSample where
  cycle := s.cycle
  values := n.names.toList.foldl (fun values w => values.insert w.1 (s.bit w.2)) {}

end Netlist

/-- Filling a map with a value for each key. -/
theorem getElem?_foldl_insert {α β : Type} {key : α → String} {value : α → β} {f : String → β}
    {xs : List α} (hvalue : ∀ x ∈ xs, value x = f (key x)) (values : NameMap β) (name : String) :
    (xs.foldl (fun values x => values.insert (key x) (value x)) values)[name]? =
      if name ∈ xs.map key then some (f name) else values[name]? := by
  induction xs generalizing values with
  | nil => simp
  | cons x rest ih =>
    rw [List.forall_mem_cons] at hvalue
    rw [List.foldl_cons, ih hvalue.2, Std.TreeMap.getElem?_insert, hvalue.1]
    simp only [Std.LawfulEqCmp.compare_eq_iff_eq, List.map_cons, List.mem_cons]
    by_cases hrest : name ∈ rest.map key
    · simp only [hrest, or_true, if_true]
    · by_cases hkey : key x = name
      · simp only [hkey, true_or, if_true, ite_self]
      · simp only [hrest, hkey, Ne.symm hkey, or_self, if_false]

namespace Netlist

variable {n : Netlist} {s : Store} {name : String}

theorem getElem?_rowOf (watch : List String) :
    (n.rowOf watch s).values[name]? = if name ∈ watch then some (n.wordOf s name) else none := by
  have hfold := @getElem?_foldl_insert _ _ id (n.wordOf s) (n.wordOf s) watch (fun _ _ => rfl) {} name
  rw [List.map_id] at hfold
  exact hfold.trans (by simp)

theorem getElem?_sampleOf :
    (n.sampleOf s).values[name]? = (n.signalId? name).map s.bit := by
  have hvalue : ∀ w ∈ n.names.toList, s.bit w.2 = ((n.signalId? w.1).map s.bit).getD false := by
    intro w hw
    rw [signalId?, Std.TreeMap.mem_toList_iff_getElem?_eq_some.1 hw]
    rfl
  have hfold := getElem?_foldl_insert
    (f := fun name => ((n.signalId? name).map s.bit).getD false) hvalue {} name
  refine hfold.trans ?_
  have hmem : name ∈ n.names.toList.map Prod.fst ↔ name ∈ n.names := by
    rw [Std.TreeMap.map_fst_toList_eq_keys, Std.TreeMap.mem_keys]
  cases hid : n.signalId? name with
  | none =>
    have hnot : name ∉ n.names := by
      rw [Std.TreeMap.mem_iff_isSome_getElem?, ← signalId?, hid]
      simp
    rw [if_neg (hmem.not.2 hnot)]
    simp
  | some id =>
    have hin : name ∈ n.names := by
      rw [Std.TreeMap.mem_iff_isSome_getElem?, ← signalId?, hid]
      rfl
    rw [if_pos (hmem.2 hin)]
    rfl

theorem value_sampleOf {id : SignalId} (hid : n.signalId? name = some id) :
    (n.sampleOf s).value name = s.bit id := by
  rw [WaveSample.value, Std.TreeMap.getD_eq_getD_getElem?, getElem?_sampleOf, hid]
  rfl

theorem mem_sampleOf : name ∈ (n.sampleOf s).values ↔ name ∈ n.names := by
  rw [Std.TreeMap.mem_iff_isSome_getElem?, getElem?_sampleOf, Std.TreeMap.mem_iff_isSome_getElem?,
    Option.isSome_map]
  rfl

/-- A row whose names are known and fit in a word shows the store it is taken of. -/
theorem rowOf_shows {watch : List String} {k : Nat} (hcycle : s.cycle.toNat = k % 2 ^ 32)
    (hknown : ∀ name ∈ watch, n.targets name ≠ [] ∧ (n.targets name).length ≤ 64) :
    (n.rowOf watch s).Shows n watch k s where
  cycle_eq := hcycle
  names name := by
    rw [Std.TreeMap.mem_iff_isSome_getElem?, getElem?_rowOf]
    split
    · next hmem => simp [hmem]
    · next hmem => simp [hmem]
  known := hknown
  value name hname := by
    refine ⟨n.wordOf s name, by rw [getElem?_rowOf, if_pos hname], fun i => ?_⟩
    exact Store.testBit_wordOfBits (by rw [List.length_map]; exact (hknown name hname).2) i

/-- The first sample is taken of the settled store. -/
theorem sampleOf_shows_first {settled : Nat → Store} (hcycle : (settled 0).cycle.toNat = 0) :
    (n.sampleOf (settled 0)).Shows n settled 0 where
  cycle_eq := hcycle
  names _ := mem_sampleOf
  first _ _ _ hid := value_sampleOf hid
  register hid _ := value_sampleOf hid
  gate hpos := absurd hpos (Nat.lt_irrefl 0)
  other hpos := absurd hpos (Nat.lt_irrefl 0)

/-- A later sample is taken of a state that has not settled. -/
theorem sampleOf_shows_later {inputs : List (String × UInt64)} {state settled : Nat → Store}
    (h : n.History inputs state settled) (hn : n.Numbered) (hw : n.Wellformed) (k : Nat) :
    (n.sampleOf (state (k + 1))).Shows n settled (k + 1) where
  cycle_eq := h.cycle_eq hn hw (k + 1)
  names _ := mem_sampleOf
  first hzero := absurd hzero (Nat.succ_ne_zero k)
  register hid hflop := by
    obtain ⟨f, hf, rfl⟩ := hflop
    rw [value_sampleOf hid, h.state_register hw hf]
  gate _ _ id hid hgate := by
    have hnone : ∀ f ∈ n.dffs, f.q ≠ id := by
      rintro f hf rfl
      obtain ⟨g, hg, heq⟩ := hgate
      exact hw.gate_out_ne_q hf hg heq
    rw [value_sampleOf hid, (h.clocked k).kept id hnone, Nat.add_sub_cancel]
  other _ _ id hid hnone := by
    rw [value_sampleOf hid, (h.clocked k).kept id hnone, Nat.add_sub_cancel]

end Netlist

/-! ## Steps of a run -/

namespace Simulation

variable {sim next : Simulation} {n : Netlist} {l : LevelizedNetlist} {level : GateId → Nat}
  {s : Store}

/-- The samples that are added at one moment. -/
def newSamples (sim : Simulation) (n : Netlist) (s : Store) : List WaveSample :=
  if sim.watched.isSome then [n.sampleOf s] else []

/-- A recording is of all signals with a name, if there is one. -/
def RecordsAll (sim : Simulation) (n : Netlist) : Prop :=
  ∀ watched, sim.watched = some watched → watched = n.names.toList

/-- Inputs are written one after the other, and nothing else changes. -/
theorem pokeAll_eq_of_sized (heq : sim.levelized = l) (hsized : sim.store.SizedFor n.signals.size)
    (hs : l.Sorted n level) (hw : n.Wellformed) {inputs : List (String × UInt64)}
    (hok : sim.pokeAll inputs = .ok next) :
    next = { sim with store := sim.store.putAll (n.writes inputs) } := by
  induction inputs generalizing sim with
  | nil =>
    cases hok
    rfl
  | cons input rest ih =>
    obtain ⟨first, hpoke, hrest⟩ := Except.bind_eq_ok.1 hok
    obtain ⟨bits, hbits, -, -, rfl⟩ := (poke_eq_ok heq hsized hs hw).1 hpoke
    obtain rfl := (Netlist.denotes_iff.1 hbits).2
    have hwrites : sim.store.putAll (n.writes (input :: rest)) =
        (sim.store.putAll (Store.pokes input.2 0 (n.targets input.1))).putAll (n.writes rest) :=
      Store.putAll_append _ _ _
    rw [hwrites]
    refine ih ?_ ?_ hrest
    · exact heq
    · exact hsized.putAll _

/-- Inputs are applied if each of them fits in the signals of its name. -/
theorem exists_pokeAll (heq : sim.levelized = l) (hsized : sim.store.SizedFor n.signals.size)
    (hs : l.Sorted n level) (hw : n.Wellformed) {inputs : List (String × UInt64)}
    (hfits : ∀ a ∈ inputs, ∃ bits, n.Denotes a.1 bits ∧ bits.length ≤ 64 ∧
      a.2.toNat < 2 ^ bits.length) : ∃ next, sim.pokeAll inputs = .ok next := by
  induction inputs generalizing sim with
  | nil => exact ⟨sim, rfl⟩
  | cons a rest ih =>
    obtain ⟨⟨bits, hbits, hlength, hvalue⟩, hrest⟩ := List.forall_mem_cons.1 hfits
    have hpoke := (poke_eq_ok heq hsized hs hw).2 ⟨bits, hbits, hlength, hvalue, rfl⟩
    rw [pokeAll, hpoke, Except.ok_bind]
    refine ih ?_ ?_ hrest
    · exact heq
    · exact hsized.putAll _

namespace Ready

theorem pokeAll_eq_ok (h : sim.Ready n l) (hs : l.Sorted n level) (hw : n.Wellformed)
    {inputs : List (String × UInt64)} (hok : sim.pokeAll inputs = .ok next) :
    next = { sim with store := sim.store.putAll (n.writes inputs) } ∧ next.Ready n l := by
  obtain rfl := pokeAll_eq_of_sized h.levelized_eq h.sized hs hw hok
  exact ⟨rfl, h.withStore (h.sized.putAll _)⟩

theorem wordBus_length {name : String} {bits : Bits} (hbits : sim.wordBus name = .ok bits) :
    bits ≠ [] ∧ bits.length ≤ 64 := by
  obtain ⟨found, hbus, hbits⟩ := Except.bind_eq_ok.1 hbits
  split at hbits
  · cases hbits
  · next hle =>
    cases hbits
    refine ⟨?_, Nat.not_lt.1 hle⟩
    rw [resolveBus] at hbus
    split at hbus
    · obtain ⟨id, -, rfl⟩ := Except.map_eq_ok.1 hbus
      exact List.cons_ne_nil _ _
    · next hne =>
      cases hbus
      exact hne

theorem peekAll_eq_ok (h : sim.Ready n l) (hs : l.Sorted n level) (hw : n.Wellformed)
    {watch : List String} {values result : NameMap UInt64}
    (hok : sim.peekAll values watch = .ok result) :
    result = watch.foldl (fun values name => values.insert name (n.wordOf sim.store name)) values ∧
      ∀ name ∈ watch, n.targets name ≠ [] ∧ (n.targets name).length ≤ 64 := by
  induction watch generalizing values with
  | nil =>
    cases hok
    exact ⟨rfl, nofun⟩
  | cons name rest ih =>
    obtain ⟨word, hpeek, hrest⟩ := Except.bind_eq_ok.1 hok
    rw [h.peek_eq hs hw] at hpeek
    obtain ⟨bits, hbits, rfl⟩ := Except.map_eq_ok.1 hpeek
    have hlength := wordBus_length hbits
    cases h.wordBus_targets hs hbits
    obtain ⟨rfl, hknown⟩ := ih hrest
    refine ⟨?_, List.forall_mem_cons.2 ⟨hlength, hknown⟩⟩
    rw [List.foldl_cons, Netlist.wordOf, List.take_of_length_le hlength.2]

theorem row_eq_ok (h : sim.Ready n l) (hs : l.Sorted n level) (hw : n.Wellformed)
    {watch : List String} {row : TraceRow} (hok : sim.row watch = .ok row) :
    row = n.rowOf watch sim.store ∧
      ∀ name ∈ watch, n.targets name ≠ [] ∧ (n.targets name).length ≤ 64 := by
  obtain ⟨values, hvalues, hrow⟩ := Except.bind_eq_ok.1 hok
  cases hrow
  obtain ⟨rfl, hknown⟩ := h.peekAll_eq_ok hs hw hvalues
  exact ⟨rfl, hknown⟩

theorem sampleValues_eq (h : sim.Ready n l) {watched : List (String × SignalId)}
    (hwatched : ∀ w ∈ watched, w.2 < n.signals.size) (values : NameMap Bool) :
    sim.sampleValues values watched =
      .ok (watched.foldl (fun values w => values.insert w.1 (sim.store.bit w.2)) values) := by
  induction watched generalizing values with
  | nil => rfl
  | cons w rest ih =>
    rw [List.forall_mem_cons] at hwatched
    rw [sampleValues, act_ok (Store.read_run h.sized hwatched.1), Except.ok_bind]
    exact ih hwatched.2 _

theorem snapshot_eq (h : sim.Ready n l) (hall : sim.RecordsAll n) :
    sim.snapshot =
      .ok { sim with samples := sim.samples ++ (sim.newSamples n sim.store).toArray } := by
  rw [snapshot]
  split
  · next hnone =>
    have hnew : sim.newSamples n sim.store = [] := by
      rw [newSamples, hnone]
      rfl
    rw [hnew, Array.append_empty]
  · next watched hwatched =>
    have hnew : sim.newSamples n sim.store = [n.sampleOf sim.store] := by
      rw [newSamples, hwatched]
      rfl
    cases hall watched hwatched
    rw [hnew, h.sampleValues_eq (h.watched_lt hwatched), Except.ok_bind]
    simp [Netlist.sampleOf, pure, Except.pure]

/-- A cycle and a pass: the sample is taken in between. -/
theorem round_ok (h : sim.Ready n l) (hs : l.Sorted n level) (hw : n.Wellformed)
    (hall : sim.RecordsAll n) :
    ∃ kernel,
      (sim.step >>= fun stepped => stepped.evaluate) = .ok { sim with
        kernel
        store := (cycled l n sim.store).compute l.wires
        samples := sim.samples ++ (sim.newSamples n (cycled l n sim.store)).toArray } ∧
      ({ sim with
        kernel
        store := (cycled l n sim.store).compute l.wires
        samples := sim.samples ++ (sim.newSamples n (cycled l n sim.store)).toArray } :
        Simulation).Ready n l := by
  obtain ⟨kernel, hstep, hready⟩ := h.step_eq hs hw
  have hall' : ({ sim with store := cycled l n sim.store, kernel } : Simulation).RecordsAll n := hall
  have hsnapshot := hready.snapshot_eq hall'
  obtain ⟨samples, hok, hready'⟩ := hready.snapshot_ok
  cases hok.symm.trans hsnapshot
  obtain ⟨hevaluate, hsettled⟩ := hready'.evaluate_ok hs hw
  refine ⟨kernel, ?_, hsettled⟩
  rw [hstep, hsnapshot, Except.ok_bind]
  exact hevaluate

/-- The rows and samples of a run, from the settled store after `j` cycles on. -/
theorem trace_eq_ok (h : sim.Ready n l) (hs : l.Sorted n level) (hw : n.Wellformed)
    (hall : sim.RecordsAll n) (hsized : s.SizedFor n.signals.size) {j cycles : Nat}
    (hstore : sim.store = settledAt l n s j) {watch : List String} {rows rows' : Array TraceRow}
    (hok : trace watch rows sim cycles = .ok (rows', next)) :
    rows'.toList = rows.toList ++
        (List.range cycles).map (fun k => n.rowOf watch (settledAt l n s (j + k + 1))) ∧
      next.samples.toList = sim.samples.toList ++
        (List.range cycles).flatMap (fun k => sim.newSamples n (stateAt l n s (j + k + 1))) ∧
      next.levelized = sim.levelized ∧ next.config = sim.config := by
  induction cycles generalizing sim rows j with
  | zero =>
    cases hok
    simp
  | succ cycles ih =>
    rw [trace] at hok
    obtain ⟨kernel, hround, hready⟩ := h.round_ok hs hw hall
    obtain ⟨stepped, hstep, hok⟩ := Except.bind_eq_ok.1 hok
    obtain ⟨settled, hsettle, hok⟩ := Except.bind_eq_ok.1 hok
    rw [hstep, Except.ok_bind, hsettle] at hround
    cases hround
    obtain ⟨row, hrow, hok⟩ := Except.bind_eq_ok.1 hok
    obtain ⟨rfl, -⟩ := hready.row_eq_ok hs hw hrow
    have hcycled : cycled l n sim.store = stateAt l n s (j + 1) := by
      rw [hstore, cycled_settledAt hs hw hsized]
    have hnext : (cycled l n sim.store).compute l.wires = settledAt l n s (j + 1) := by
      rw [hcycled, settledAt]
    obtain ⟨hrows, hsamples, hlevelized, hconfig⟩ := ih hready hall hnext hok
    refine ⟨?_, ?_, hlevelized, hconfig⟩
    · rw [hrows, Array.toList_push, List.append_assoc, List.range_succ_eq_map, List.map_cons,
        List.map_map, hnext]
      simp [Function.comp_def, Nat.add_assoc, Nat.add_comm 1]
    · rw [hsamples, Array.toList_append, List.append_assoc, List.range_succ_eq_map,
        List.flatMap_cons, List.flatMap_map, hcycled]
      simp [newSamples, Nat.add_assoc, Nat.add_comm 1]

/-- A recording of everything starts with a sample of now. -/
theorem startRecordingAll_eq (h : sim.Ready n l) (hs : l.Sorted n level) (hw : n.Wellformed) :
    sim.startRecordingAll =
        .ok { sim with samples := #[n.sampleOf sim.store], watched := some n.names.toList } ∧
      ({ sim with samples := #[n.sampleOf sim.store], watched := some n.names.toList } :
        Simulation).Ready n l := by
  have hnames : sim.levelized.netlist.names = n.names := by
    rw [h.levelized_eq, hs.netlist_eq]
    rfl
  have hlt : ∀ w ∈ n.names.toList, w.2 < n.signals.size := fun w hw' =>
    hw.name_lt (Std.TreeMap.mem_toList_iff_getElem?_eq_some.1 hw')
  have hempty : ({ sim with samples := #[], watched := some n.names.toList } : Simulation).Ready n l :=
    ⟨h.levelized_eq, h.sized, h.runs, h.kind_eq, h.fits, fun heq => Option.some.inj heq ▸ hlt⟩
  have hsnapshot := hempty.snapshot_eq fun watched heq => (Option.some.inj heq).symm
  obtain ⟨samples, hok, hready⟩ := hempty.snapshot_ok
  cases hok.symm.trans hsnapshot
  refine ⟨?_, hready⟩
  rw [startRecordingAll, hnames, record, hsnapshot]
  rfl

/-- From the settled inputs on, rows show settled stores and samples lie between them. -/
theorem trace_shows (h : sim.Ready n l) (hs : l.Sorted n level) (hn : n.Numbered)
    (hw : n.Wellformed) (hall : sim.RecordsAll n) (hsized : s.SizedFor n.signals.size)
    {inputs : List (String × UInt64)} (hhistory : n.History inputs (stateAt l n s) (settledAt l n s))
    (hstore : sim.store = settledAt l n s 0)
    (hsamples : sim.samples.toList = sim.newSamples n sim.store) {cycles : Nat}
    {watch : List String} {row : TraceRow} {rows : Array TraceRow} (hrow : sim.row watch = .ok row)
    (htrace : trace watch #[row] sim cycles = .ok (rows, next)) :
    (rows.size = cycles + 1 ∧
      ∀ k (hk : k < rows.size), rows[k].Shows n watch k (settledAt l n s k)) ∧
    (sim.watched.isSome → next.samples.size = cycles + 1 ∧
      ∀ k (hk : k < next.samples.size), next.samples[k].Shows n (settledAt l n s) k) ∧
    next.levelized = sim.levelized ∧ next.config = sim.config := by
  obtain ⟨rfl, hknown⟩ := h.row_eq_ok hs hw hrow
  obtain ⟨hrows, hnext, hlevelized, hconfig⟩ := h.trace_eq_ok hs hw hall hsized hstore htrace
  have hrows' : rows.toList =
      (List.range (cycles + 1)).map fun k => n.rowOf watch (settledAt l n s k) := by
    rw [hrows, hstore, List.range_succ_eq_map, List.map_cons, List.map_map]
    simp [Function.comp_def]
  refine ⟨⟨by simpa using congrArg List.length hrows', fun k hk => ?_⟩, fun hrecords => ?_,
    hlevelized, hconfig⟩
  · have hget : rows[k] = n.rowOf watch (settledAt l n s k) := by
      simp [← Array.getElem_toList, hrows']
    rw [hget]
    exact Netlist.rowOf_shows (hhistory.settled_cycle_eq hn hw k) hknown
  · have hnew : ∀ t, sim.newSamples n t = [n.sampleOf t] := fun t => if_pos hrecords
    have hnext' : next.samples.toList = n.sampleOf (settledAt l n s 0) ::
        (List.range cycles).map fun k => n.sampleOf (stateAt l n s (k + 1)) := by
      rw [hnext, hsamples, hnew, hstore, List.map_eq_flatMap]
      simp [hnew]
    refine ⟨by simpa using congrArg List.length hnext', fun k hk => ?_⟩
    cases k with
    | zero =>
      have hget : next.samples[0] = n.sampleOf (settledAt l n s 0) := by
        simp [← Array.getElem_toList, hnext']
      rw [hget]
      exact Netlist.sampleOf_shows_first (hhistory.settled_cycle_eq hn hw 0)
    | succ k =>
      have hget : next.samples[k + 1] = n.sampleOf (stateAt l n s (k + 1)) := by
        simp [← Array.getElem_toList, hnext']
      rw [hget]
      exact Netlist.sampleOf_shows_later hhistory hn hw k

end Ready

end Simulation

/-! ## Runs -/

/-- What a run of the netlist `n` gives: rows of the settled stores and, if asked for, the text of a
recording with one sample for each row. -/
structure RunOutput.Follows (output : RunOutput) (n : Netlist) (watch : List String)
    (request : RunRequest) (config : SimConfig) (settled : Nat → Store) : Prop where
  rows : output.trace.size = request.cycles + 1
  row : ∀ k (hk : k < output.trace.size), output.trace[k].Shows n watch k (settled k)
  no_vcd : request.recordVcd = false → output.vcd = none
  vcd : request.recordVcd = true → ∃ (names : List String) (samples : List WaveSample),
    output.vcd = some (Vcd.render n.top config.timescale names samples) ∧
    (∀ name, name ∈ names ↔ name ∈ n.names ∧ (config.includeInternal || !isInternal name) = true) ∧
    samples.length = output.trace.size ∧
    ∀ k (hk : k < samples.length), samples[k].Shows n settled k

/-- The exported names of a recording of everything. -/
theorem Simulation.mem_exported {sim : Simulation} {n : Netlist} {settled : Nat → Store}
    (hpos : 0 < sim.samples.size) (hfirst : sim.samples[0].Shows n settled 0) {names : List String}
    (hnames : sim.exported none = .ok names) (name : String) :
    name ∈ names ↔ name ∈ n.names ∧ (sim.config.includeInternal || !isInternal name) = true := by
  cases hnames
  rw [List.mem_filter, recorded, Array.getElem?_eq_getElem hpos, ← hfirst.names,
    ← Std.TreeMap.mem_keys]
  rfl

theorem simulateDesign_follows {program : Program} {design : BuiltDesign} {request : RunRequest}
    {config : SimConfig} {output : RunOutput} (hd : design.Levels)
    (hfits : config.kernel = .batch → design.levelized.netlist.signals.size < 2 ^ 32)
    (h : simulateDesign program design request config = .ok output) :
    output.design = design ∧ ∃ state settled,
      design.levelized.netlist.History request.inputs state settled ∧
      output.Follows design.levelized.netlist (watchList program request) request config settled := by
  have hn := hd.numbered
  obtain ⟨hw, level, hs⟩ := levelize_sorted hn hd.levelize_eq
  obtain ⟨store, kernel, hreset, hstart, hready⟩ := Simulation.start_ok hs hn hw config hfits
  obtain ⟨sim₀, hstart', h⟩ := Except.bind_eq_ok.1 h
  cases hstart.symm.trans hstart'
  obtain ⟨sim₁, hpoke, h⟩ := Except.bind_eq_ok.1 h
  obtain ⟨rfl, hready₁⟩ := hready.pokeAll_eq_ok hs hw hpoke
  obtain ⟨hevaluate, hready₂⟩ := hready₁.evaluate_ok hs hw
  obtain ⟨sim₂, hsettle, h⟩ := Except.bind_eq_ok.1 h
  cases hevaluate.symm.trans hsettle
  have hsized := hready₁.sized
  have hhistory := Simulation.history_of_reset hs hw hreset hready.sized request.inputs
  split at h
  · next hrecord =>
    obtain ⟨hall, hready₃⟩ := hready₂.startRecordingAll_eq hs hw
    obtain ⟨sim₃, hall', h⟩ := Except.bind_eq_ok.1 h
    cases hall.symm.trans hall'
    obtain ⟨row, hrow, h⟩ := Except.bind_eq_ok.1 h
    obtain ⟨⟨rows, last⟩, htrace, h⟩ := Except.bind_eq_ok.1 h
    obtain ⟨⟨hrows, hrow⟩, hsamples, hlevelized, hconfig⟩ := hready₃.trace_shows hs hn hw
      (fun _ heq => (Option.some.inj heq).symm) hsized hhistory rfl rfl hrow htrace
    obtain ⟨hcount, hsample⟩ := hsamples rfl
    obtain ⟨vcd, hvcd, h⟩ := Except.bind_eq_ok.1 h
    obtain ⟨text, htext, rfl⟩ := Except.map_eq_ok.1 hvcd
    obtain ⟨names, hnames, htext⟩ := Except.bind_eq_ok.1 htext
    cases htext
    cases h
    refine ⟨rfl, _, _, hhistory, hrows, hrow, fun hnone => absurd hrecord (by simp [hnone]), ?_⟩
    intro _
    refine ⟨names, last.samples.toList, by rw [hlevelized, hconfig], ?_, ?_, fun k hk => ?_⟩
    · have hpos : 0 < last.samples.size := hcount ▸ Nat.succ_pos _
      have hmem := Simulation.mem_exported hpos (hsample 0 hpos) hnames
      rwa [hconfig] at hmem
    · rw [Array.length_toList, hcount, hrows]
    · exact hsample k (by simpa using hk)
  · next hrecord =>
    obtain ⟨_, ⟨⟩, h⟩ := Except.bind_eq_ok.1 h
    obtain ⟨row, hrow, h⟩ := Except.bind_eq_ok.1 h
    obtain ⟨⟨rows, last⟩, htrace, h⟩ := Except.bind_eq_ok.1 h
    obtain ⟨⟨hrows, hrow⟩, -⟩ := hready₂.trace_shows hs hn hw nofun hsized hhistory rfl rfl hrow htrace
    cases h
    exact ⟨rfl, _, _, hhistory, hrows, hrow, fun _ => rfl, fun hsome => absurd hsome hrecord⟩

theorem simulateDesign_design {program : Program} {design : BuiltDesign} {request : RunRequest}
    {config : SimConfig} {output : RunOutput}
    (h : simulateDesign program design request config = .ok output) : output.design = design := by
  obtain ⟨_, -, h⟩ := Except.bind_eq_ok.1 h
  obtain ⟨_, -, h⟩ := Except.bind_eq_ok.1 h
  obtain ⟨_, -, h⟩ := Except.bind_eq_ok.1 h
  split at h
  all_goals
    obtain ⟨_, -, h⟩ := Except.bind_eq_ok.1 h
    obtain ⟨_, -, h⟩ := Except.bind_eq_ok.1 h
    obtain ⟨_, -, h⟩ := Except.bind_eq_ok.1 h
    obtain ⟨_, -, h⟩ := Except.bind_eq_ok.1 h
    cases h
    rfl

/-- A run that succeeds shows the one history of its design from a reset and the inputs on. There
is one row more than there are cycles. Row `k` shows the watched names after `k` cycles once the
gates have settled. Sample `k` of the waveform is taken when the flip-flops have moved for the
`k`-th time and the gates have not settled again; sample 0 is taken of row 0. The engine over words
needs signal numbers that fit in its words. -/
theorem run_follows {program : Program} {request : RunRequest} {config : RunConfig}
    {output : RunOutput} (h : run program request config = .ok output)
    (hfits : config.sim.kernel = .batch → output.design.levelized.netlist.signals.size < 2 ^ 32) :
    build program request.top config = .ok output.design ∧ ∃ state settled,
      output.design.levelized.netlist.History request.inputs state settled ∧
      output.Follows output.design.levelized.netlist (watchList program request) request config.sim
        settled := by
  obtain ⟨design, hbuild, hrun⟩ := Except.bind_eq_ok.1 h
  have hsimulate := Except.mapError_eq_ok.1 hrun
  cases simulateDesign_design hsimulate
  obtain ⟨-, hfollows⟩ := simulateDesign_follows (build_levelized hbuild) hfits hsimulate
  exact ⟨hbuild, hfollows⟩

/-- A flip-flop that toggles. -/
def divider : Program where
  modules := [
    { name := "top"
      params := [{ name := "clk" }]
      outputs := [{ name := "q" }]
      statements := [
        { target := "q"
          expr := .call dffName [.call nandName [.ident "q", .ident "q"], .ident "clk"] }] }]

theorem run_follows_divider :
    ∃ output, run divider { top := "top", cycles := 2, inputs := [("clk", 1)], recordVcd := true }
        { sim := { kernel := .batch } } = .ok output ∧
      output.design.levelized.netlist.signals.size < 2 ^ 32 ∧ ∃ state settled,
        output.design.levelized.netlist.History [("clk", 1)] state settled ∧
        output.Follows output.design.levelized.netlist ["q"]
          { top := "top", cycles := 2, inputs := [("clk", 1)], recordVcd := true }
          { kernel := .batch } settled := by
  have hok : (match run divider
        { top := "top", cycles := 2, inputs := [("clk", 1)], recordVcd := true }
        { sim := { kernel := .batch } } with
      | .ok output => decide (output.design.levelized.netlist.signals.size < 2 ^ 32)
      | .error _ => false) = true := by decide +kernel
  cases hrun : run divider { top := "top", cycles := 2, inputs := [("clk", 1)], recordVcd := true }
      { sim := { kernel := .batch } } with
  | error e =>
    rw [hrun] at hok
    exact nomatch hok
  | ok output =>
    rw [hrun, decide_eq_true_iff] at hok
    obtain ⟨-, hfollows⟩ := run_follows hrun fun _ => hok
    exact ⟨output, rfl, hok, hfollows⟩

end NandHdl
