-- SUMMARY: The JSON forms of netlists, their parts and their sizes.
import NandHdl.Netlist.Levels
import NandHdl.Json.Basic

namespace NandHdl

/-- The JSON form of a list of signals or gates. -/
def Json.ofNats (ids : Array Nat) : Json := .ofList .ofNat ids.toList

/-- The JSON form of a signal. -/
def Signal.toJson (s : Signal) : Json :=
  .ofFields
    [("id", .ofNat s.id), ("name", .ofString s.name), ("is_primary_input", .bool s.isPrimaryInput),
     ("is_primary_output", .bool s.isPrimaryOutput), ("is_dff_output", .bool s.isDffOutput),
     ("instance", .ofNat s.owner)]

/-- The JSON form of a gate. -/
def NandGate.toJson (g : NandGate) : Json :=
  .ofFields
    [("id", .ofNat g.id), ("in1", .ofNat g.in1), ("in2", .ofNat g.in2), ("out", .ofNat g.out),
     ("level", .ofOption .ofNat g.level)]

/-- The JSON form of a flip-flop. -/
def Dff.toJson (f : Dff) : Json :=
  .ofFields
    [("id", .ofNat f.id), ("d", .ofNat f.d), ("clk", .ofNat f.clk), ("q", .ofNat f.q),
     ("initial_value", .bool f.initialValue)]

/-- The JSON form of an instance. -/
def Instance.toJson (i : Instance) : Json :=
  .ofFields
    [("id", .ofNat i.id), ("module", .ofString i.moduleName),
     ("parent", .ofOption .ofNat i.parent), ("prefix", .ofString i.namePrefix)]

/-- The JSON form of a netlist. -/
def Netlist.toJson (n : Netlist) : Json :=
  .ofFields
    [("top", .ofString n.top), ("signals", .ofList Signal.toJson n.signals.toList),
     ("nand_gates", .ofList NandGate.toJson n.gates.toList),
     ("dffs", .ofList Dff.toJson n.dffs.toList),
     ("signal_map", .ofFields (n.names.toList.map fun (name, id) => (name, .ofNat id))),
     ("primary_inputs", .ofNats n.primaryInputs), ("primary_outputs", .ofNats n.primaryOutputs),
     ("clock_signal", .ofOption .ofNat n.clock),
     ("instances", .ofList Instance.toJson n.instances.toList)]

/-- The JSON form of the sizes of a netlist. -/
def NetlistStats.toJson (s : NetlistStats) : Json :=
  .ofFields
    [("signals", .ofNat s.signals), ("nand_gates", .ofNat s.gates), ("dffs", .ofNat s.dffs),
     ("primary_inputs", .ofNat s.primaryInputs), ("primary_outputs", .ofNat s.primaryOutputs),
     ("instances", .ofNat s.instances)]

/-- The JSON form of the groups of gates by level. -/
def LevelizedNetlist.levelsJson (l : LevelizedNetlist) : Json :=
  .ofList Json.ofNats l.levels.toList

end NandHdl
