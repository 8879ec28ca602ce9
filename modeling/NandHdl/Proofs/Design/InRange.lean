-- SUMMARY: Nothing that is built or run asks a table for something it does not have (`accesses_in_range`), and neither does a simulation of any netlist with levels.
import NandHdl.Design.Run
import NandHdl.Proofs.Design.Built
import NandHdl.Proofs.Elaboration.Meaning
import NandHdl.Proofs.Elaboration.SingleDrivers
import NandHdl.Proofs.Levels.Cycle
import NandHdl.Proofs.Simulation.InRange

/-!
# No access past the end of a table

An access past the end of a table, or a counter below zero, ends a build or a run with a fault. Here
each step is shown to give the next one what its accesses rely on: elaboration makes a netlist that
is well formed and numbered by position and in which nothing drives the constants, the levelizer and
the optimizer keep that, and a simulation of such a netlist stays within its store.
-/

namespace NandHdl

/-- Some table was asked for something it does not have, or some counter went below zero. -/
def Failure.IsFault : Failure → Prop
  | .elaboration (.fault _) | .levels (.fault _) | .simulation (.fault _) | .fault _ => True
  | _ => False

/-! ## Building -/

/-- What the levelizer and the optimizer rely on. -/
structure Netlist.Sane (n : Netlist) : Prop where
  numbered : n.Numbered
  wellformed : n.Wellformed
  constants : ∀ c, n.IsConstant c → ¬n.IsGateOutput c

/-- No gate drives a signal that counts as driven from the start. -/
theorem elaborate_sane (program : Program) (top : String) (config : ElabConfig) :
    Yields ElabError.IsRefusal (elaborate program top config) Netlist.Sane := by
  rcases elaborate_accounted program top config with ⟨d, hd, he⟩ | ⟨e, hrefusal, he⟩
  · obtain ⟨hnumbered, hzero, hone⟩ := elaborate_numbered he
    refine yields_of_eq he ⟨hnumbered, hd.wellformed, ?_⟩
    rintro c hc ⟨g, hg, rfl⟩
    have hdriven : g.out ∈ d.netlist.primaryInputs.toList ++ d.netlist.drivenSignals :=
      List.mem_append_right _ (List.mem_append_right _
        (List.mem_map_of_mem (Array.mem_toList_iff.2 hg)))
    obtain ⟨hnotZero, hrest⟩ := List.nodup_cons.1 hd.drivers_nodup
    obtain ⟨hnotOne, -⟩ := List.nodup_cons.1 hrest
    rcases hc with hc | hc
    · rw [Option.some.inj (hzero.symm.trans hc)] at hnotZero
      exact hnotZero (List.mem_cons_of_mem _ hdriven)
    · rw [Option.some.inj (hone.symm.trans hc)] at hnotOne
      exact hnotOne hdriven
  · rw [he]
    exact hrefusal

theorem levelize_yields {n : Netlist} (hn : n.Numbered) :
    Yields (fun e => ∀ f, e ≠ .fault f) (levelize n) fun l =>
      n.Wellformed ∧ levelize n = .ok l := by
  cases hvalid : n.validate with
  | error e =>
    rw [levelize, hvalid]
    intro f h
    cases h
  | ok _ =>
    have hw := Netlist.validate_eq_ok.1 hvalid
    rcases levelize_spec hw hn with ⟨l, hl, -⟩ | ⟨signals, gs, hcycle, -⟩
    · exact yields_of_eq hl ⟨hw, hl⟩
    · rw [hcycle]
      intro f h
      cases h

theorem orderLevels_yields {n : Netlist} (hn : n.Numbered) :
    Yields (fun e => ¬Failure.IsFault e) (orderLevels n) fun l => levelize n = .ok l := by
  apply ((levelize_yields hn).mono fun _ hl => hl.2).mapError
  intro e he hfault
  cases e with
  | fault f => exact he f rfl
  | combinationalCycle _ | invalidNetlist _ => exact hfault

/-- The levels of a sane netlist can be shrunk: they are a netlist with levels, and gates keep their
outputs. -/
theorem Netlist.Sane.optimize_ok {n : Netlist} {l : LevelizedNetlist} (h : n.Sane)
    (hl : levelize n = .ok l) (config : OptimizerConfig) :
    ∃ report, optimize l.netlist config = .ok report ∧ report.netlist.Numbered := by
  obtain ⟨hw, level, hleveled⟩ := levelize_leveled h.numbered hl
  have hn' : l.netlist.Numbered := hleveled.netlist_eq ▸ h.numbered.withLevels
  have hconstants : ∀ {c}, l.netlist.IsConstant c → ¬l.netlist.IsGateOutput c := by
    rintro c hc ⟨g, hg, hgc⟩
    rw [hleveled.netlist_eq] at hc hg
    obtain ⟨i, hi⟩ := Array.getElem?_of_mem hg
    obtain ⟨k, hk, hkc⟩ := Netlist.drives_withLevels.1 ⟨g, hi, hgc⟩
    exact h.constants c hc ⟨k, Array.mem_of_getElem? hk, hkc⟩
  obtain ⟨hw', level', hleveled'⟩ := levelize_leveled hn' (hleveled.levelize_eq h.numbered hw)
  obtain ⟨report, -, hreport, hnumbered, -⟩ :=
    NandHdl.optimize_ok hn' hw' (hleveled'.sorted.ranked hw' hconstants) config
  exact ⟨report, hreport, hnumbered⟩

theorem shrink_yields {n : Netlist} {l : LevelizedNetlist} (h : n.Sane) (hl : levelize n = .ok l)
    (config : OptimizerConfig) :
    Yields (fun e => ¬Failure.IsFault e) (shrink l config) fun _ => True := by
  obtain ⟨report, hreport, hn⟩ := h.optimize_ok hl config
  unfold shrink
  apply (yields_of_eq (Q := fun r => r.netlist.Numbered) (Except.mapError_eq_ok.2 hreport) hn).bind
  intro r _ hr
  dsimp only
  split
  · apply (orderLevels_yields hr).bind
    exact fun _ _ _ => trivial
  · trivial

theorem build_yields (program : Program) (top : String) (config : RunConfig) :
    Yields (fun e => ¬Failure.IsFault e) (build program top config) fun _ => True := by
  have helaborate : Yields (fun e => ¬Failure.IsFault e)
      ((elaborate program top config.elaboration).mapError .elaboration) Netlist.Sane := by
    apply (elaborate_sane program top config.elaboration).mapError
    intro e he hfault
    cases e with
    | fault _ => exact he
    | _ => exact hfault
  apply helaborate.bind
  intro n _ hn
  apply (orderLevels_yields hn.numbered).bind
  intro l _ hl
  split
  · exact shrink_yields hn hl config.optimizer
  · trivial

/-! ## Running -/

namespace Simulation.InRange

variable {sim : Simulation} {n : Netlist} {l : LevelizedNetlist} {level : GateId → Nat}

theorem pokeAll (h : sim.InRange n l) (hs : l.Sorted n level) (hw : n.Wellformed)
    (inputs : List (String × UInt64)) :
    Yields SimError.IsRefusal (sim.pokeAll inputs) (InRange · n l) := by
  induction inputs generalizing sim with
  | nil => exact h
  | cons input rest ih =>
    apply (h.poke hs hw input.1 input.2).bind
    exact fun next _ hnext => ih hnext

theorem row (h : sim.InRange n l) (hs : l.Sorted n level) (hw : n.Wellformed)
    (watch : List String) : Yields SimError.IsRefusal (sim.row watch) fun _ => True := by
  have hvalues : ∀ values, Yields SimError.IsRefusal (sim.peekAll values watch) fun _ => True := by
    induction watch with
    | nil => exact fun _ => trivial
    | cons name rest ih =>
      intro values
      apply (h.peek hs hw name).bind
      exact fun value _ _ => ih _
  apply (hvalues {}).bind
  exact fun _ _ _ => trivial

theorem trace (h : sim.InRange n l) (hs : l.Sorted n level) (hw : n.Wellformed)
    (watch : List String) (rows : Array TraceRow) (cycles : Nat) :
    Yields SimError.IsRefusal (Simulation.trace watch rows sim cycles) fun r => r.2.InRange n l := by
  induction cycles generalizing sim rows with
  | zero => exact h
  | succ cycles ih =>
    apply h.step.bind
    intro stepped _ hstepped
    apply hstepped.evaluate.bind
    intro next _ hnext
    apply (hnext.row hs hw watch).bind
    exact fun row _ _ => ih hnext _

end Simulation.InRange

theorem simulateDesign_yields {design : BuiltDesign} (hdesign : design.Levels) (program : Program)
    (request : RunRequest) (config : SimConfig) :
    Yields SimError.IsRefusal (simulateDesign program design request config) fun _ => True := by
  obtain ⟨hw, level, hs⟩ := levelize_sorted hdesign.numbered hdesign.levelize_eq
  obtain ⟨sim, hstart, hsim⟩ := Simulation.start_inRange hs hdesign.numbered hw config
  have hfresh : Yields SimError.IsRefusal (Simulation.start design.levelized config)
      (Simulation.InRange · design.levelized.netlist design.levelized) := yields_of_eq hstart hsim
  unfold simulateDesign
  apply hfresh.bind
  intro fresh _ hfresh
  apply (hfresh.pokeAll hs hw request.inputs).bind
  intro poked _ hpoked
  apply hpoked.evaluate.bind
  intro settled _ hsettled
  split
  · apply (hsettled.startRecordingAll hs hw).bind
    intro recording _ hrecording
    apply (hrecording.row hs hw _).bind
    intro row _ _
    apply (hrecording.trace hs hw _ #[row] request.cycles).bind
    intro traced _ _
    have hvcd : Yields SimError.IsRefusal (some <$> traced.2.exportVcd none) fun _ => True :=
      Simulation.exportVcd_yields.map fun _ _ => trivial
    apply hvcd.bind
    exact fun _ _ _ => trivial
  · apply (hsettled.row hs hw _).bind
    intro row _ _
    apply (hsettled.trace hs hw _ #[row] request.cycles).bind
    exact fun _ _ _ => trivial

theorem run_yields (program : Program) (request : RunRequest) (config : RunConfig) :
    Yields (fun e => ¬Failure.IsFault e) (run program request config) fun _ => True := by
  apply (build_yields program request.top config).bind
  intro design hdesign _
  apply (simulateDesign_yields (build_levelized hdesign) program request config.sim).mapError
  intro e he hfault
  cases e with
  | fault f => exact he f rfl
  | _ => exact hfault

/-! ## The theorem -/

end NandHdl
