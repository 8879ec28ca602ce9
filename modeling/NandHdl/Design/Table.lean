-- SUMMARY: Results as text: the table of a trace (`Trace.table`) and the sizes of a design (`statsText`).
import NandHdl.Design.Run
import NandHdl.Decimal.Double
import NandHdl.Text

/-!
# Results as text

The table of a trace has a column for the cycle and one for each name of the first row, in the
order of the names, with two blanks between columns. Entries stand at the right of their columns.
A column is as wide as its widest number and as its name takes bytes.
-/

namespace NandHdl

namespace Trace

/-- The digits of a count. -/
def digits (n : Nat) : Nat := (toString n).length

/-- The largest of some numbers, at least the first argument. -/
def widest (least : Nat) (widths : List Nat) : Nat := widths.foldl max least

/-- The width of the column for cycles. -/
def cycleWidth (rows : List TraceRow) : Nat :=
  widest "cycle".length (rows.map fun r => digits r.cycle.toNat)

/-- The width of the column for a name. -/
def columnWidth (rows : List TraceRow) (name : String) : Nat :=
  widest (max 1 name.utf8ByteSize)
    (rows.filterMap fun r => r.values[name]?.map fun v => digits v.toNat)

/-- A line of the table: the entry for the cycle and those of the columns, each with the width of
its column. -/
def line (first : Nat × String) (entries : List (Nat × String)) : String :=
  Text.padLeft first.1 first.2 ++
    String.join (entries.map fun (width, text) => "  " ++ Text.padLeft width text) ++ "\n"

/-- The line for a row. A name that the row lacks has the value 0. -/
def rowLine (cycleWidth : Nat) (columns : List (Nat × String)) (r : TraceRow) : String :=
  line (cycleWidth, toString r.cycle.toNat)
    (columns.map fun (width, name) => (width, toString (r.values.getD name 0).toNat))

/-- The table of a trace. Without rows there is no table. -/
def table (rows : List TraceRow) : String :=
  match rows with
  | [] => ""
  | first :: _ =>
    let columns := first.values.keys.map fun name => (columnWidth rows name, name)
    line (cycleWidth rows, "cycle") columns ++
      String.join (rows.map (rowLine (cycleWidth rows) columns))

end Trace

/-- The sizes of a design as text, with a line about the optimizer if it ran. -/
def statsText (stats : NetlistStats) (depth : Nat) (optimization : Option OptimizeSummary) :
    String :=
  let line := fun (label : String) (n : Nat) => label ++ toString n ++ "\n"
  "[Netlist]\n" ++ line "Signals:   " stats.signals ++ line "NAND gates: " stats.gates ++
    line "DFFs:      " stats.dffs ++ line "Inputs:    " stats.primaryInputs ++
    line "Outputs:   " stats.primaryOutputs ++ line "Instances: " stats.instances ++
    line "Depth:     " depth ++
    match optimization with
    | none => ""
    | some o =>
      "Optimizer: " ++ toString o.gatesBefore ++ " -> " ++ toString o.gatesAfter ++ " gates (" ++
        ((Double.ofFloat o.savings).fixed 1).render ++ "%, " ++ toString o.passes ++
        " pass(es), " ++ (if o.applied then "applied" else "discarded") ++ ")\n"

end NandHdl
