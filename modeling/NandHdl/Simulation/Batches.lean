-- SUMMARY: Runs in batches (`Simulation.runInBatches`): progress is reported after each batch, and a stop request ends the run between two.
import NandHdl.Simulation.Basic

/-!
# Runs in batches

A run in batches takes as many cycles as `run`, batch by batch. After each batch it reports how
many cycles are done, and whoever gets the report may ask it to stop. The request is looked at
before the next batch. It is then withdrawn, and the run ends.
-/

namespace NandHdl

/-- What a run in batches has done. -/
structure BatchRun where
  /-- The cycles that were run. -/
  done : Nat
  /-- The reports, as cycles done and cycles asked for. -/
  progress : List (Nat × Nat)
  sim : Simulation

namespace Simulation

/-- How many cycles make a batch. A size of 0 stands for the size in the settings, which counts
as 1 if it is 0 too. -/
def batchSize (sim : Simulation) (batch : Nat) : Nat :=
  if batch = 0 then max 1 sim.config.batchSize else batch

/-- The batches of a run of which `done` cycles are done. `wantsStop` says which reports are
answered by a request to stop. -/
def batchesFrom (wantsStop : Nat → Nat → Bool) (total batch : Nat) (done : Nat)
    (sim : Simulation) : Except SimError BatchRun :=
  if _h : done < total ∧ 0 < batch then
    if sim.stopRequested then .ok { done, progress := [], sim := { sim with stopRequested := false } }
    else do
      let n := min batch (total - done)
      let sim ← sim.run n
      let stop := sim.stopRequested || wantsStop (done + n) total
      let rest ← batchesFrom wantsStop total batch (done + n) { sim with stopRequested := stop }
      return { rest with progress := (done + n, total) :: rest.progress }
  else .ok { done, progress := [], sim }
termination_by total - done

/-- Runs `total` cycles in batches. -/
def runInBatches (sim : Simulation) (total batch : Nat) (wantsStop : Nat → Nat → Bool) :
    Except SimError BatchRun :=
  batchesFrom wantsStop total (sim.batchSize batch) 0 sim

/-- Asks for a stop. -/
def requestStop (sim : Simulation) : Simulation := { sim with stopRequested := true }

end Simulation

end NandHdl
