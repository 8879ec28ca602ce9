-- SUMMARY: The JSON form of the results of a run.
import NandHdl.Design.Run
import NandHdl.Netlist.Codec
import NandHdl.Decimal.Double

namespace NandHdl

/-- The JSON form of a double: its shortest numeral. -/
def Json.ofFloat (x : Float) : Json := .number (Double.ofFloat x).shortest

/-- The JSON form of what the optimizer did. -/
def OptimizeSummary.toJson (s : OptimizeSummary) : Json :=
  .ofFields
    [("gates_before", .ofNat s.gatesBefore), ("gates_after", .ofNat s.gatesAfter),
     ("passes", .ofNat s.passes), ("applied", .bool s.applied),
     ("savings_percent", .ofFloat s.savings)]

/-- The JSON form of the values of a row. -/
def Json.ofValues (values : NameMap UInt64) : Json :=
  .ofFields (values.toList.map fun (name, value) => (name, .ofNat value.toNat))

/-- The JSON form of a row. -/
def TraceRow.toJson (r : TraceRow) : Json :=
  .ofFields [("cycle", .ofNat r.cycle.toNat), ("values", .ofValues r.values)]

/-- The JSON form of the results of a run. There is a field for a waveform only if there is one. -/
def RunOutput.toJson (o : RunOutput) : Json :=
  .ofFields
    ([("top", .ofString o.top), ("stats", o.design.stats.toJson),
      ("depth", .ofNat o.design.depth),
      ("optimization", .ofOption OptimizeSummary.toJson o.design.optimization),
      ("trace", .ofList TraceRow.toJson o.trace.toList)] ++
      (o.vcd.toList.map fun text => ("vcd", .ofString text)))

end NandHdl
