-- SUMMARY: Recorded waveforms: samples of named signals (`WaveSample`) and which signals count as internal.
import NandHdl.Names

namespace NandHdl

/-- The values of the recorded signals at one moment. -/
structure WaveSample where
  cycle : UInt32
  values : NameMap Bool := {}

/-- The value of a signal in a sample. A signal that was not recorded is 0. -/
def WaveSample.value (s : WaveSample) (name : String) : Bool := s.values.getD name false

/-- How the names of the signals start that elaboration makes for gates and flip-flops. -/
def internalMarks : List String := ["nand_", "dff_"]

/-- Whether a signal was made by elaboration alone. -/
def isInternal (name : String) : Bool :=
  internalMarks.any fun mark => mark.toList.isPrefixOf name.toList

end NandHdl
