-- SUMMARY: A request to stop ends with the run it was made in, unless it comes with the last report (`runInBatches_stopRequested_iff`); a leftover request ends the next run before it starts.
import NandHdl.Proofs.Simulation.Batching

/-!
# Requests to stop

A request to stop is looked at before a batch, and it is withdrawn when it ends a run. The answer to
the last report comes after the last look: a run whose last report is answered by a request leaves
that request to the next run, which then ends before its first batch. Every other run ends without a
request, and so a row of such runs goes on as if nobody had ever asked for a stop.
-/

namespace NandHdl

namespace Simulation

variable {wantsStop : Nat → Nat → Bool} {total size done : Nat} {sim next : Simulation}
  {n : Netlist} {l : LevelizedNetlist}

/-! ## What is left of a request -/

/-- A request is left over after a run if and only if the run was not cut off and its last report was
answered by a request. By induction on the cycles that are left: a batch that is not the last hands
over to the rest of the run without a request, or it is cut off there and the request is gone. -/
theorem batchesFrom_stopRequested_iff (hsize : 0 < size) (hlt : done < total)
    (hclear : sim.stopRequested = false) {r : BatchRun}
    (h : batchesFrom wantsStop total size done sim = .ok r) :
    r.sim.stopRequested = true ↔ r.done = total ∧ wantsStop total total = true := by
  induction hleft : total - done using Nat.strongRecOn generalizing done sim r with
  | ind left ih =>
    rw [batchesFrom_of_lt hsize hlt hclear] at h
    obtain ⟨after, -, h⟩ := Except.bind_eq_ok.1 h
    obtain ⟨rest, hrest, h⟩ := Except.bind_eq_ok.1 h
    cases h
    by_cases hend : total ≤ done + size
    · rw [Nat.min_eq_right hend, batchesFrom_of_le (Nat.le_refl total)] at hrest
      cases hrest
      simp
    · have hreached : min (done + size) total = done + size := by omega
      have hmore : done + size < total := Nat.not_le.1 hend
      rw [hreached] at hrest
      cases hstop : wantsStop (done + size) total with
      | true =>
        rw [hstop, batchesFrom_of_stopRequested hsize hmore rfl] at hrest
        cases hrest
        simp [Nat.ne_of_lt hmore]
      | false =>
        rw [hstop] at hrest
        have hlater := ih (total - (done + size)) (by omega) hmore rfl hrest rfl
        exact hlater

theorem batchSize_of_pos (sim : Simulation) {batch : Nat} (h : 0 < batch) :
    sim.batchSize batch = batch :=
  if_neg (Nat.ne_of_gt h)

theorem runInBatches_of_pos (sim : Simulation) {batch : Nat} (h : 0 < batch) :
    sim.runInBatches total batch wantsStop = batchesFrom wantsStop total batch 0 sim := by
  rw [runInBatches, sim.batchSize_of_pos h]

theorem runInBatches_stopRequested_iff (hclear : sim.stopRequested = false) {batch : Nat}
    {r : BatchRun} (h : sim.runInBatches total batch wantsStop = .ok r) :
    r.sim.stopRequested = true ↔ 0 < total ∧ r.done = total ∧ wantsStop total total = true := by
  rcases Nat.eq_zero_or_pos total with rfl | hpos
  · rw [runInBatches, batchesFrom_of_le (Nat.le_refl 0)] at h
    cases h
    simp [hclear]
  · rw [batchesFrom_stopRequested_iff (sim.batchSize_pos batch) hpos hclear h]
    simp [hpos]

/-! ## The next run -/

/-- A run that nobody asks to stop takes all its cycles, or none if a request was left over. -/
theorem runInBatches_quiet (sim : Simulation) (total batch : Nat)
    (hquiet : ∀ done, wantsStop done total = false) :
    sim.runInBatches total batch wantsStop =
      if sim.stopRequested = true ∧ 0 < total then
        .ok { done := 0, progress := [], sim := { sim with stopRequested := false } }
      else
        (sim.run total).map fun next =>
          { done := total
            progress := reports total (sim.batchSize batch) 0
              (batchCount total (sim.batchSize batch))
            sim := next } := by
  have hsize := sim.batchSize_pos batch
  rcases Nat.eq_zero_or_pos total with rfl | hpos
  · have hnone : batchCount 0 (sim.batchSize batch) = 0 :=
      Nat.div_eq_of_lt (by omega)
    rw [if_neg fun h => Nat.lt_irrefl 0 h.2, runInBatches, batchesFrom_of_le (Nat.le_refl 0), hnone]
    rfl
  · cases hstop : sim.stopRequested with
    | true =>
      rw [if_pos ⟨rfl, hpos⟩, runInBatches, batchesFrom_of_stopRequested hsize hpos hstop]
    | false =>
      rw [if_neg fun h => Bool.false_ne_true h.1]
      exact batchesFrom_quiet hsize hstop hquiet

/-! ## Runs that cannot fail -/

theorem start_stopRequested {config : SimConfig} (h : start l config = .ok sim) :
    sim.stopRequested = false := by
  obtain ⟨store, -, h⟩ := Except.bind_eq_ok.1 h
  obtain ⟨kernel, -, h⟩ := Except.bind_eq_ok.1 h
  cases h
  rfl

theorem InRange.runInBatches_ok (h : sim.InRange n l) (total batch : Nat)
    (wantsStop : Nat → Nat → Bool) :
    ∃ r, sim.runInBatches total batch wantsStop = .ok r ∧ r.sim.InRange n l := by
  have hyields := h.runInBatches total batch wantsStop
  suffices hok : ∃ r, sim.runInBatches total batch wantsStop = .ok r by
    obtain ⟨r, hr⟩ := hok
    exact ⟨r, hr, hyields.value hr⟩
  clear hyields
  unfold Simulation.runInBatches
  generalize sim.batchSize batch = size, 0 = done
  fun_induction batchesFrom wantsStop total size done sim with
  | case1 done sim _ _ => exact ⟨_, rfl⟩
  | case2 done sim _ _ count ih =>
    obtain ⟨after, hafter⟩ := h.run_ok count
    have hrange : after.InRange n l := (h.run count).value hafter
    obtain ⟨rest, hrest⟩ := ih after (hrange.withStop _)
    rw [hafter, Except.ok_bind]
    dsimp only
    rw [hrest]
    exact ⟨_, rfl⟩
  | case3 done sim _ => exact ⟨_, rfl⟩

/-! ## Rows of runs -/

/-- A run in batches that is asked for, with the reports that are answered by a request to stop. -/
structure BatchRequest where
  total : Nat
  batch : Nat
  wantsStop : Nat → Nat → Bool

/-- Runs in batches, one after the other. -/
def runAll (sim : Simulation) : List BatchRequest → Except SimError Simulation
  | [] => .ok sim
  | q :: rest => do
    let r ← sim.runInBatches q.total q.batch q.wantsStop
    r.sim.runAll rest

/-- If no last report is answered by a request, none is left over after any number of runs. -/
theorem runAll_stopRequested (hclear : sim.stopRequested = false) {requests : List BatchRequest}
    (hlast : ∀ q ∈ requests, q.wantsStop q.total q.total = false)
    (h : sim.runAll requests = .ok next) : next.stopRequested = false := by
  induction requests generalizing sim with
  | nil =>
    cases h
    exact hclear
  | cons q rest ih =>
    obtain ⟨hq, hrest⟩ := List.forall_mem_cons.1 hlast
    obtain ⟨r, hr, h⟩ := Except.bind_eq_ok.1 h
    refine ih ?_ hrest h
    rw [← Bool.not_eq_true, runInBatches_stopRequested_iff hclear hr, hq]
    exact fun hleft => Bool.false_ne_true hleft.2.2

/-- A request to stop does not outlive the run it was made in, on condition that the run was cut off
or that its last report was not answered by a request: no request is left over then, and the next run
that nobody asks to stop takes all its cycles. This goes on for any number of such runs. A request
that comes with the last report is left over, and it ends the next run before its first batch. Runs
do not fail, in whatever way a simulation of a levelized netlist was used before. -/
theorem stop_withdrawn (sim : Simulation) (hclear : sim.stopRequested = false) :
    (∀ total batch wantsStop r, sim.runInBatches total batch wantsStop = .ok r →
      (r.sim.stopRequested = true ↔
        0 < total ∧ r.done = total ∧ wantsStop total total = true) ∧
      ∀ total' batch' quiet, (∀ done, quiet done total' = false) →
        (r.sim.stopRequested = false → r.sim.runInBatches total' batch' quiet =
          (r.sim.run total').map fun next =>
            { done := total'
              progress := reports total' (r.sim.batchSize batch') 0
                (batchCount total' (r.sim.batchSize batch'))
              sim := next }) ∧
        (r.sim.stopRequested = true → 0 < total' → r.sim.runInBatches total' batch' quiet =
          .ok { done := 0, progress := [], sim := { r.sim with stopRequested := false } })) ∧
    (∀ requests next, (∀ q ∈ requests, q.wantsStop q.total q.total = false) →
      sim.runAll requests = .ok next → next.stopRequested = false) ∧
    ∀ n l config first, n.Numbered → levelize n = .ok l → start l config = .ok first →
      first.Reaches sim → ∀ total batch wantsStop,
        ∃ r, sim.runInBatches total batch wantsStop = .ok r ∧
          ∀ cycles, ∃ next, r.sim.run cycles = .ok next := by
  refine ⟨fun total batch wantsStop r hr => ⟨runInBatches_stopRequested_iff hclear hr, ?_⟩,
    fun requests next hlast h => runAll_stopRequested hclear hlast h, ?_⟩
  · intro total' batch' quiet hquiet
    rw [runInBatches_quiet r.sim total' batch' hquiet]
    refine ⟨fun hflag => ?_, fun hflag hpos => if_pos ⟨hflag, hpos⟩⟩
    rw [hflag, if_neg fun h => Bool.false_ne_true h.1]
  · intro n l config first hn hl hstart hreach total batch wantsStop
    obtain ⟨hw, level, hs⟩ := levelize_sorted hn hl
    obtain ⟨first', hstart', hin⟩ := start_inRange hs hn hw config
    cases hstart.symm.trans hstart'
    obtain ⟨r, hr, hrange⟩ := (hin.reaches hs hn hw hreach).runInBatches_ok total batch wantsStop
    exact ⟨r, hr, hrange.run_ok⟩

theorem toggle_levelized : ∃ n l, toggle = .ok n ∧ levelize n = .ok l := by
  have hn : ∃ n, toggle = .ok n := ⟨_, rfl⟩
  obtain ⟨n, hn⟩ := hn
  cases hn
  exact ⟨_, _, rfl, by cbv⟩

/-- Seven cycles in batches of two are cut off after the second batch. The next run is complete. -/
theorem stop_withdrawn_toggle :
    ∃ n l sim r next, toggle = .ok n ∧ levelize n = .ok l ∧ start l {} = .ok sim ∧
      sim.stopRequested = false ∧ sim.runInBatches 7 2 (fun done _ => done == 4) = .ok r ∧
      r.sim.stopRequested = false ∧ r.sim.run 3 = .ok next ∧
      r.sim.runInBatches 3 1 (fun _ _ => false) =
        .ok { done := 3, progress := [(1, 3), (2, 3), (3, 3)], sim := next } := by
  obtain ⟨n, l, hn, hl⟩ := toggle_levelized
  obtain ⟨hw, level, hs⟩ := levelize_sorted (toggle_numbered hn) hl
  obtain ⟨sim, hstart, -⟩ := start_inRange hs (toggle_numbered hn) hw {}
  have hclear := start_stopRequested hstart
  obtain ⟨hleft, -, hruns⟩ := stop_withdrawn sim hclear
  obtain ⟨r, hr, hnext⟩ := hruns n l _ _ (toggle_numbered hn) hl hstart .refl 7 2
    (fun done _ => done == 4)
  obtain ⟨hiff, hfollows⟩ := hleft 7 2 _ r hr
  have hkept : r.sim.stopRequested = false := by
    rw [← Bool.not_eq_true, hiff]
    exact fun hlast => Bool.false_ne_true hlast.2.2
  obtain ⟨next, hnext⟩ := hnext 3
  have hcomplete := (hfollows 3 1 (fun _ _ => false) fun _ => rfl).1 hkept
  have hreports : reports 3 1 0 (batchCount 3 1) = [(1, 3), (2, 3), (3, 3)] := by decide
  rw [hnext, r.sim.batchSize_of_pos Nat.one_pos, hreports] at hcomplete
  exact ⟨n, l, sim, r, next, hn, hl, hstart, hclear, hr, hkept, hnext, hcomplete⟩

/-- Four cycles in batches of two, with a request to stop on the report of the last one. All cycles
were run, the request is left over, and three more cycles that nobody asks to stop are not run. -/
theorem stop_outlives_run :
    ∃ n l sim r r', toggle = .ok n ∧ levelize n = .ok l ∧ start l {} = .ok sim ∧
      sim.stopRequested = false ∧ sim.runInBatches 4 2 (fun done _ => done == 4) = .ok r ∧
      r.done = 4 ∧ r.sim.stopRequested = true ∧
      r.sim.runInBatches 3 1 (fun _ _ => false) = .ok r' ∧ r'.done = 0 := by
  obtain ⟨n, l, hn, hl⟩ := toggle_levelized
  obtain ⟨hw, level, hs⟩ := levelize_sorted (toggle_numbered hn) hl
  obtain ⟨sim, hstart, hrange⟩ := start_inRange hs (toggle_numbered hn) hw {}
  have hclear := start_stopRequested hstart
  obtain ⟨next, hnext⟩ := hrange.run_ok 4
  have hquiet : ∀ i, 0 < i → i < 2 → (min (i * 2) 4 == 4) = false := by
    intro i hpos hlt
    obtain rfl : i = 1 := by omega
    rfl
  have hlate : batchesFrom (fun done _ => done == 4) 4 2 0 sim = _ :=
    batchesFrom_stopped Nat.two_pos hclear Nat.two_pos (by decide) hquiet rfl
  have hfour : min (2 * 2) 4 = 4 := rfl
  rw [hfour, hnext] at hlate
  rw [← sim.runInBatches_of_pos Nat.two_pos] at hlate
  have hnone : runInBatches { next with stopRequested := true } 3 1 (fun _ _ => false) = _ :=
    runInBatches_quiet _ 3 1 fun _ => rfl
  rw [if_pos ⟨rfl, Nat.succ_pos 2⟩] at hnone
  exact ⟨n, l, sim, _, _, hn, hl, hstart, hclear, hlate, rfl, rfl, hnone, rfl⟩

end Simulation

end NandHdl
