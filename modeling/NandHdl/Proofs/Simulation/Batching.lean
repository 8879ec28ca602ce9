-- SUMMARY: A run in batches does what a run does (`runInBatches_eq_run`): the size of the batches shows in the reports alone, and a stop cuts the run off after a batch.
import NandHdl.Simulation.Batches
import NandHdl.Proofs.Simulation.Agreement
import NandHdl.Proofs.Simulation.InRange

/-!
# Batches

A run in batches is a run that is interrupted for reports. Cycles that are run in several parts lead
to the same simulation as cycles that are run at once, so the batches add up to one run. How many of
them there are is settled by the first report that is answered by a request to stop or, without such
a report, by the number of cycles.
-/

namespace NandHdl

namespace Simulation

variable {sim next : Simulation}

/-! ## Runs in parts -/

theorem run_add (sim : Simulation) (first second : Nat) :
    sim.run (first + second) = sim.run first >>= fun next => next.run second := by
  induction first generalizing sim with
  | zero => rw [Nat.zero_add, run, Except.ok_bind]
  | succ first ih =>
    rw [Nat.succ_add, run, run]
    cases sim.step with
    | error e => rfl
    | ok after => exact ih after

theorem act_stopRequested {α : Type} {action : StoreM α} {a : α}
    (h : sim.act action = .ok (a, next)) : next.stopRequested = sim.stopRequested := by
  unfold act at h
  split at h
  · cases h
    rfl
  · cases h

theorem snapshot_stopRequested (h : sim.snapshot = .ok next) :
    next.stopRequested = sim.stopRequested := by
  unfold snapshot at h
  split at h
  · cases h
    rfl
  · obtain ⟨values, -, hnext⟩ := Except.bind_eq_ok.1 h
    cases hnext
    rfl

theorem step_stopRequested (h : sim.step = .ok next) : next.stopRequested = sim.stopRequested := by
  obtain ⟨⟨kernel, after⟩, hcycle, hsnapshot⟩ := Except.bind_eq_ok.1 h
  have hkept : after.stopRequested = sim.stopRequested := act_stopRequested hcycle
  exact (snapshot_stopRequested hsnapshot).trans hkept

/-- Clocking leaves a request to stop alone. -/
theorem run_stopRequested {cycles : Nat} (h : sim.run cycles = .ok next) :
    next.stopRequested = sim.stopRequested := by
  induction cycles generalizing sim with
  | zero =>
    cases h
    rfl
  | succ cycles ih =>
    obtain ⟨after, hstep, hrun⟩ := Except.bind_eq_ok.1 h
    rw [ih hrun, step_stopRequested hstep]

/-! ## Runs that cannot fail -/

theorem act_error {α : Type} {action : StoreM α} {e : SimError} (h : sim.act action = .error e) :
    ∃ f, e = .fault f := by
  unfold act at h
  split at h
  · cases h
  · cases h
    exact ⟨_, rfl⟩

theorem sampleValues_error {values : NameMap Bool} {watched : List (String × SignalId)}
    {e : SimError} (h : sim.sampleValues values watched = .error e) : ∃ f, e = .fault f := by
  induction watched generalizing values with
  | nil => cases h
  | cons w rest ih =>
    rw [sampleValues] at h
    cases hread : sim.act (Store.read w.2) with
    | error e' =>
      rw [hread] at h
      cases h
      exact act_error hread
    | ok r =>
      rw [hread] at h
      exact ih h

theorem snapshot_error {e : SimError} (h : sim.snapshot = .error e) : ∃ f, e = .fault f := by
  unfold snapshot at h
  split at h
  · cases h
  · next watched _ =>
    cases hvalues : sim.sampleValues {} watched with
    | error e' =>
      rw [hvalues] at h
      cases h
      exact sampleValues_error hvalues
    | ok values =>
      rw [hvalues] at h
      cases h

/-- Clocking refuses nothing. -/
theorem run_error {cycles : Nat} {e : SimError} (h : sim.run cycles = .error e) :
    ∃ f, e = .fault f := by
  induction cycles generalizing sim with
  | zero => cases h
  | succ cycles ih =>
    rw [run] at h
    cases hstep : sim.step with
    | ok after =>
      rw [hstep] at h
      exact ih h
    | error e' =>
      rw [hstep] at h
      cases h
      rw [step] at hstep
      cases hcycle : sim.act sim.kernel.cycle with
      | error e'' =>
        rw [hcycle] at hstep
        cases hstep
        exact act_error hcycle
      | ok r =>
        rw [hcycle] at hstep
        exact snapshot_error hstep

theorem InRange.run_ok {n : Netlist} {l : LevelizedNetlist} (h : sim.InRange n l) (cycles : Nat) :
    ∃ next, sim.run cycles = .ok next := by
  have hyields := h.run cycles
  cases hrun : sim.run cycles with
  | ok next => exact ⟨next, rfl⟩
  | error e =>
    obtain ⟨f, rfl⟩ := run_error hrun
    rw [hrun] at hyields
    exact absurd rfl (hyields f)

/-! ## Batches in a row -/

/-- The number of batches that a run takes. The last one may be short. -/
def batchCount (total size : Nat) : Nat := (total + size - 1) / size

/-- The reports on batches that come after `done` cycles. -/
def reports (total size done count : Nat) : List (Nat × Nat) :=
  (List.range count).map fun i => (min (done + (i + 1) * size) total, total)

/-- A run takes another batch as long as the batches do not reach its end. -/
theorem lt_batchCount {total size i : Nat} (h : 0 < size) :
    i < batchCount total size ↔ i * size < total := by
  rw [batchCount, ← Nat.succ_le_iff, Nat.le_div_iff_mul_le h, Nat.succ_mul]
  omega

theorem batchSize_pos (sim : Simulation) (batch : Nat) : 0 < sim.batchSize batch := by
  unfold batchSize
  split
  · exact Nat.lt_of_lt_of_le Nat.one_pos (Nat.le_max_left _ _)
  · next h => exact Nat.pos_of_ne_zero h

theorem reports_succ (total size done count : Nat) :
    reports total size done (count + 1) =
      (min (done + size) total, total) :: reports total size (done + size) count := by
  simp only [reports, List.range_succ_eq_map, List.map_cons, List.map_map, Nat.zero_add,
    Nat.one_mul]
  refine congrArg _ (List.map_congr_left fun i _ => ?_)
  simp only [Function.comp_apply, Nat.succ_mul, Nat.add_assoc, Nat.add_comm size]

variable {wantsStop : Nat → Nat → Bool} {total size done : Nat}

/-- A run ends where all cycles are done. -/
theorem batchesFrom_of_le (h : total ≤ done) (sim : Simulation) :
    batchesFrom wantsStop total size done sim = .ok { done, progress := [], sim } := by
  rw [batchesFrom, dif_neg fun hlt => Nat.not_lt.2 h hlt.1]

/-- A run ends where it was asked to stop, and the request is withdrawn. -/
theorem batchesFrom_of_stopRequested (hsize : 0 < size) (hlt : done < total) {sim : Simulation}
    (h : sim.stopRequested = true) : batchesFrom wantsStop total size done sim =
      .ok { done, progress := [], sim := { sim with stopRequested := false } } := by
  rw [batchesFrom, dif_pos ⟨hlt, hsize⟩, if_pos h]

/-- Otherwise a run takes another batch and reports it. -/
theorem batchesFrom_of_lt (hsize : 0 < size) (hlt : done < total) {sim : Simulation}
    (h : sim.stopRequested = false) : batchesFrom wantsStop total size done sim = do
      let next ← sim.run (min (done + size) total - done)
      let rest ← batchesFrom wantsStop total size (min (done + size) total)
        { next with stopRequested := wantsStop (min (done + size) total) total }
      return { rest with progress := (min (done + size) total, total) :: rest.progress } := by
  have hreached : done + min size (total - done) = min (done + size) total := by omega
  rw [batchesFrom, dif_pos ⟨hlt, hsize⟩, if_neg (by rw [h]; exact Bool.false_ne_true)]
  dsimp only
  rw [← hreached, Nat.add_sub_cancel_left]
  cases hrun : sim.run (min size (total - done)) with
  | error e => rfl
  | ok next => rw [Except.ok_bind, Except.ok_bind, run_stopRequested hrun, h, Bool.false_or]

/-- The next batch is the last one, or it is answered by a request to stop. -/
theorem batchesFrom_last (hsize : 0 < size) (hlt : done < total) {sim : Simulation}
    (hclear : sim.stopRequested = false)
    (hlast : wantsStop (min (done + size) total) total = true ∨ total ≤ done + size) :
    batchesFrom wantsStop total size done sim =
      (sim.run (min (done + size) total - done)).map fun next =>
        { done := min (done + size) total
          progress := [(min (done + size) total, total)]
          sim := { next with
            stopRequested := wantsStop (min (done + size) total) total &&
              decide (total ≤ done + size) } } := by
  rw [batchesFrom_of_lt hsize hlt hclear]
  cases sim.run (min (done + size) total - done) with
  | error e => rfl
  | ok next =>
    rw [Except.ok_bind]
    by_cases hend : total ≤ done + size
    · rw [batchesFrom_of_le (by omega), decide_eq_true hend, Bool.and_true]
      rfl
    · have hstop := hlast.resolve_right hend
      rw [hstop, batchesFrom_of_stopRequested hsize (by omega) rfl, decide_eq_false hend,
        Bool.and_false]
      rfl

/-- Nobody asks for a stop after the next batches, `count` of them, but the batch after these is the
last of the run or is answered by a request to stop. By induction on the number of batches: no batch
before the last leaves a request, and their cycles add up. -/
theorem batchesFrom_eq (hsize : 0 < size) (count : Nat) {done : Nat} {sim : Simulation}
    (hclear : sim.stopRequested = false) (hmore : done + count * size < total)
    (hquiet : ∀ i < count, wantsStop (min (done + (i + 1) * size) total) total = false)
    (hlast : wantsStop (min (done + (count + 1) * size) total) total = true ∨
      total ≤ done + (count + 1) * size) :
    batchesFrom wantsStop total size done sim =
      (sim.run (min (done + (count + 1) * size) total - done)).map fun next =>
        { done := min (done + (count + 1) * size) total
          progress := reports total size done (count + 1)
          sim := { next with
            stopRequested := wantsStop (min (done + (count + 1) * size) total) total &&
              decide (total ≤ done + (count + 1) * size) } } := by
  induction count generalizing done sim with
  | zero =>
    simp only [Nat.zero_mul, Nat.add_zero, Nat.zero_add, Nat.one_mul] at hmore hlast ⊢
    rw [batchesFrom_last hsize hmore hclear hlast, reports_succ]
    rfl
  | succ count ih =>
    have hsum : ∀ i, done + (i + 1 + 1) * size = done + size + (i + 1) * size := by
      intro i
      rw [Nat.succ_mul (i + 1)]
      omega
    have hnext : done + size + count * size < total := by
      rw [Nat.succ_mul] at hmore
      omega
    have hreached : min (done + size) total = done + size := by omega
    have hfirst : wantsStop (done + size) total = false := by
      have := hquiet 0 (Nat.succ_pos count)
      rwa [Nat.zero_add, Nat.one_mul, hreached] at this
    rw [batchesFrom_of_lt hsize (by omega) hclear, hreached, hfirst, Nat.add_sub_cancel_left]
    have hparts : min (done + (count + 1 + 1) * size) total - done =
        size + (min (done + size + (count + 1) * size) total - (done + size)) := by
      rw [hsum]
      omega
    rw [hparts, run_add]
    cases hrun : sim.run size with
    | error e => rfl
    | ok next =>
      have hkept : next.stopRequested = false := (run_stopRequested hrun).trans hclear
      rw [Except.ok_bind, Except.ok_bind, ← hkept]
      rw [ih hkept hnext (fun i hi => hsum i ▸ hquiet (i + 1) (Nat.succ_lt_succ hi))
        (hsum count ▸ hlast), reports_succ total size done, hreached, hsum]
      cases next.run (min (done + size + (count + 1) * size) total - (done + size)) with
      | error e => rfl
      | ok last => rfl

/-! ## Whole runs -/

/-- Nobody asks for a stop. -/
theorem batchesFrom_quiet (hsize : 0 < size) {sim : Simulation}
    (hclear : sim.stopRequested = false) (hquiet : ∀ done, wantsStop done total = false) :
    batchesFrom wantsStop total size 0 sim = (sim.run total).map fun next =>
      { done := total
        progress := reports total size 0 (batchCount total size)
        sim := next } := by
  cases hcount : batchCount total size with
  | zero =>
    have hnone : total = 0 := by
      have hfirst : 0 < batchCount total size ↔ 0 * size < total := lt_batchCount hsize
      omega
    subst hnone
    rw [batchesFrom_of_le (Nat.le_refl 0)]
    rfl
  | succ count =>
    have hmore : 0 + count * size < total := by
      rw [Nat.zero_add]
      exact (lt_batchCount hsize).1 (by omega)
    have hend : total ≤ 0 + (count + 1) * size := by
      rw [Nat.zero_add]
      exact Nat.not_lt.1 (mt (lt_batchCount hsize).2 (by omega))
    rw [batchesFrom_eq hsize count hclear hmore (fun i _ => hquiet _) (.inr hend), hquiet,
      Bool.false_and, Nat.min_eq_right hend, Nat.sub_zero]
    cases hrun : sim.run total with
    | error e => rfl
    | ok next =>
      have hkept : next.stopRequested = false := (run_stopRequested hrun).trans hclear
      rw [← hkept]
      rfl

/-- The report after `j` batches is the first one that is answered by a request to stop. -/
theorem batchesFrom_stopped (hsize : 0 < size) {sim : Simulation}
    (hclear : sim.stopRequested = false) {j : Nat} (hpos : 0 < j) (hle : j ≤ batchCount total size)
    (hquiet : ∀ i, 0 < i → i < j → wantsStop (min (i * size) total) total = false)
    (hstop : wantsStop (min (j * size) total) total = true) :
    batchesFrom wantsStop total size 0 sim = (sim.run (min (j * size) total)).map fun next =>
      { done := min (j * size) total
        progress := reports total size 0 j
        sim := { next with stopRequested := decide (total ≤ j * size) } } := by
  obtain ⟨count, rfl⟩ := Nat.exists_eq_add_one_of_ne_zero (Nat.ne_of_gt hpos)
  have hmore : 0 + count * size < total := by
    rw [Nat.zero_add]
    exact (lt_batchCount hsize).1 (by omega)
  have hquiet' : ∀ i < count, wantsStop (min (0 + (i + 1) * size) total) total = false := by
    intro i hi
    rw [Nat.zero_add]
    exact hquiet (i + 1) (Nat.succ_pos i) (Nat.succ_lt_succ hi)
  rw [batchesFrom_eq hsize count hclear hmore hquiet' (.inl (by rw [Nat.zero_add, hstop]))]
  simp only [Nat.zero_add, Nat.sub_zero, hstop, Bool.true_and]

/-- Without a request to stop a run in batches is a run of all the cycles, with a report after each
batch. If the `j`-th report is the first one that is answered by a request to stop, it is a run of the
cycles of `j` batches, with `j` reports; the request is withdrawn unless all cycles are done. A batch
size of 0 stands for the one in the settings. Runs do not fail, in whatever way a simulation of a
levelized netlist was used before. -/
theorem runInBatches_eq_run (sim : Simulation) (hclear : sim.stopRequested = false)
    (total batch : Nat) :
    (∀ wantsStop, (∀ done, wantsStop done total = false) →
      sim.runInBatches total batch wantsStop = (sim.run total).map fun next =>
        { done := total
          progress := reports total (sim.batchSize batch) 0 (batchCount total (sim.batchSize batch))
          sim := next }) ∧
    (∀ wantsStop j, 0 < j → j ≤ batchCount total (sim.batchSize batch) →
      (∀ i, 0 < i → i < j → wantsStop (min (i * sim.batchSize batch) total) total = false) →
      wantsStop (min (j * sim.batchSize batch) total) total = true →
      sim.runInBatches total batch wantsStop =
        (sim.run (min (j * sim.batchSize batch) total)).map fun next =>
          { done := min (j * sim.batchSize batch) total
            progress := reports total (sim.batchSize batch) 0 j
            sim := { next with stopRequested := decide (total ≤ j * sim.batchSize batch) } }) ∧
    ∀ n l config first, n.Numbered → levelize n = .ok l → start l config = .ok first →
      first.Reaches sim → ∀ cycles, ∃ next, sim.run cycles = .ok next := by
  have hsize := sim.batchSize_pos batch
  refine ⟨fun wantsStop hquiet => ?_, fun wantsStop j hpos hle hquiet hstop => ?_,
    fun n l config first hn hl hstart hreach => ?_⟩
  · exact batchesFrom_quiet hsize hclear hquiet
  · exact batchesFrom_stopped hsize hclear hpos hle hquiet hstop
  · obtain ⟨hw, level, hs⟩ := levelize_sorted hn hl
    obtain ⟨first', hstart', hin⟩ := start_inRange hs hn hw config
    cases hstart.symm.trans hstart'
    exact (hin.reaches hs hn hw hreach).run_ok

/-- Seven cycles in batches of two, as the settings say, with a request to stop after the second. -/
theorem runInBatches_eq_run_toggle :
    ∃ n l sim next, toggle = .ok n ∧ levelize n = .ok l ∧
      start l { batchSize := 2 } = .ok sim ∧ sim.stopRequested = false ∧
      sim.run 4 = .ok next ∧ sim.runInBatches 7 0 (fun done _ => done == 4) =
        .ok { done := 4, progress := [(2, 7), (4, 7)], sim := { next with stopRequested := false } } := by
  have hn : ∃ n, toggle = .ok n := ⟨_, rfl⟩
  obtain ⟨n, hn⟩ := hn
  have hl : ∃ l, levelize n = .ok l := by
    cases hn
    exact ⟨_, by cbv⟩
  obtain ⟨l, hl⟩ := hl
  obtain ⟨hw, level, hs⟩ := levelize_sorted (toggle_numbered hn) hl
  obtain ⟨store, kernel, -, hstart, -⟩ :=
    Simulation.start_ok hs (toggle_numbered hn) hw { batchSize := 2 } fun hbatch => by cases hbatch
  obtain ⟨-, hstopped, hruns⟩ := runInBatches_eq_run
    { levelized := l, config := { batchSize := 2 }, store, kernel } rfl 7 0
  obtain ⟨next, hnext⟩ := hruns n l _ _ (toggle_numbered hn) hl hstart .refl 4
  have hfits : 2 ≤ batchCount 7 2 := by decide
  have hquiet : ∀ i, 0 < i → i < 2 → (min (i * 2) 7 == 4) = false := by
    intro i hpos hlt
    obtain rfl : i = 1 := by omega
    rfl
  refine ⟨n, l, _, next, hn, hl, hstart, rfl, hnext, ?_⟩
  have heq := hstopped (fun done _ => done == 4) 2 (by decide) hfits hquiet rfl
  exact heq.trans (congrArg (Except.map _) hnext)

end Simulation

end NandHdl
