-- SUMMARY: A design that has been built is the levels of a netlist that is numbered by position (`build_levelized`), with or without the optimizer.
import NandHdl.Design.Build
import NandHdl.Proofs.Elaboration.Growth
import NandHdl.Proofs.Optimizer.Shrinking

/-!
# Built designs

A build ends with a call of the levelizer, and levels of a netlist that has them already are the
ones it has. So a design is the levels of its own netlist, whether or not the optimizer has run.
-/

namespace NandHdl

variable {program : Program} {top : String} {config : RunConfig} {design : BuiltDesign}

/-- What the optimizer makes of a netlist is numbered by position, whatever the netlist is. -/
theorem optimize_numbered {n : Netlist} {report : OptimizeReport} {config : OptimizerConfig}
    (hn : n.Numbered) (h : optimize n config = .ok report) : report.netlist.Numbered := by
  obtain ⟨start, -, h⟩ := Except.bind_eq_ok.1 h
  obtain ⟨⟨last, count⟩, -, h⟩ := Except.bind_eq_ok.1 h
  cases h
  dsimp only
  split
  · exact Optimizer.State.netlist_numbered hn
  · exact hn

/-- The design is the levels of its netlist, and the netlist is numbered by position. -/
structure BuiltDesign.Levels (design : BuiltDesign) : Prop where
  numbered : design.levelized.netlist.Numbered
  levelize_eq : levelize design.levelized.netlist = .ok design.levelized

theorem BuiltDesign.Levels.of_levelize {n : Netlist} {l : LevelizedNetlist} (hn : n.Numbered)
    (h : levelize n = .ok l) (optimization : Option OptimizeSummary) :
    BuiltDesign.Levels { levelized := l, optimization } := by
  obtain ⟨hw, level, hleveled⟩ := levelize_leveled hn h
  exact ⟨hleveled.netlist_eq ▸ hn.withLevels, hleveled.levelize_eq hn hw⟩

theorem shrink_levelized {l : LevelizedNetlist} {config : OptimizerConfig}
    (hl : BuiltDesign.Levels { levelized := l, optimization := none })
    (h : shrink l config = .ok design) : design.Levels := by
  obtain ⟨report, hreport, h⟩ := Except.bind_eq_ok.1 h
  have hn := optimize_numbered hl.numbered (Except.mapError_eq_ok.1 hreport)
  split at h
  · obtain ⟨levelized, hlevels, h⟩ := Except.bind_eq_ok.1 h
    cases h
    exact .of_levelize hn (Except.mapError_eq_ok.1 hlevels) _
  · cases h
    exact ⟨hl.numbered, hl.levelize_eq⟩

theorem build_levelized (h : build program top config = .ok design) : design.Levels := by
  obtain ⟨n, hn, h⟩ := Except.bind_eq_ok.1 h
  obtain ⟨l, hl, h⟩ := Except.bind_eq_ok.1 h
  have hlevels : BuiltDesign.Levels { levelized := l, optimization := none } :=
    .of_levelize (elaborate_numbered (Except.mapError_eq_ok.1 hn)).1 (Except.mapError_eq_ok.1 hl) none
  split at h
  · exact shrink_levelized hlevels h
  · cases h
    exact hlevels

end NandHdl
