-- SUMMARY: Maps and sets with names as keys, kept in the order of their code points.
import Std.Data.TreeMap
import Std.Data.TreeSet

/-!
# Names

Names are texts, and they are ordered by code point. A map from names is listed in that order
wherever it is written out.
-/

namespace NandHdl

/-- A map with names as keys. -/
abbrev NameMap (α : Type) := Std.TreeMap String α

/-- A set of names. -/
abbrev NameSet := Std.TreeSet String

/-- The number of a signal: its position in the list of signals. -/
abbrev SignalId := Nat

/-- The number of a gate. -/
abbrev GateId := Nat

/-- The number of a module instance. Instance 0 is the top module. -/
abbrev InstanceId := Nat

/-- A value as signals, lowest bit first. -/
abbrev Bits := List SignalId

/-- The name of one bit of a bus: `name[position]`. -/
def bitName (name : String) (position : Nat) : String :=
  name ++ "[" ++ toString position ++ "]"

end NandHdl
