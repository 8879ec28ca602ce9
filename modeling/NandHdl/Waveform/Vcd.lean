-- SUMMARY: Value change dumps (`Vcd.render`): the text of a recording, which lists after the first sample only what changed.
import NandHdl.Waveform.Basic

/-!
# Value change dumps

The text declares a variable for each exported signal and gives it a short identifier code. The
first sample is written in full at time 0. Every later sample opens a block at ten times its cycle
and lists the signals that differ from the sample before.
-/

namespace NandHdl.Vcd

/-- How many characters identifier codes are made of: `!` to `~`. -/
def base : Nat := 94

/-- The character of a digit of an identifier code. -/
def codeChar (d : Nat) : Char := Char.ofNat ('!'.toNat + d)

/-- The characters of the `index`-th code before the characters `tail`. -/
def codeBefore (index : Nat) (tail : List Char) : List Char :=
  let chars := codeChar (index % base) :: tail
  if h : index / base = 0 then chars
  else
    have : index / base - 1 < index := by
      have := Nat.div_le_self index base
      have : index ≠ 0 := fun h0 => h (by rw [h0, Nat.zero_div])
      omega
    codeBefore (index / base - 1) chars
termination_by index

/-- The identifier code of the `index`-th variable. Shorter codes come first. -/
def code (index : Nat) : String := String.ofList (codeBefore index [])

/-- One line. -/
def line (text : String) : String := text ++ "\n"

/-- The line that gives a variable a value. -/
def valueLine (value : Bool) (code : String) : String :=
  line ((if value then "1" else "0") ++ code)

/-- The declarations. -/
def header (moduleName timescale : String) (vars : List (String × String)) : String :=
  line ("$timescale " ++ timescale ++ " $end") ++
    line ("$scope module " ++ moduleName ++ " $end") ++
    String.join (vars.map fun (name, code) =>
      line ("$var wire 1 " ++ code ++ " " ++ name ++ " $end")) ++
    line "$upscope $end" ++ line "$enddefinitions $end"

/-- The first sample in full. -/
def firstBlock (vars : List (String × String)) (sample : WaveSample) : String :=
  line "#0" ++ line "$dumpvars" ++
    String.join (vars.map fun (name, code) => valueLine (sample.value name) code) ++
    line "$end"

/-- A later sample, as changes against the one before. -/
def changeBlock (vars : List (String × String)) (previous sample : WaveSample) : String :=
  line ("#" ++ toString (sample.cycle.toNat * 10)) ++
    String.join ((vars.filter fun (name, _) => sample.value name != previous.value name).map
      fun (name, code) => valueLine (sample.value name) code)

/-- The samples after `previous`. -/
def changeBlocks (vars : List (String × String)) (previous : WaveSample) :
    List WaveSample → String
  | [] => ""
  | sample :: rest =>
    changeBlock vars previous sample ++ changeBlocks vars sample rest

/-- The text of a recording of the given signals. -/
def render (moduleName timescale : String) (names : List String) (samples : List WaveSample) :
    String :=
  let vars := names.zipIdx.map fun (name, i) => (name, code i)
  header moduleName timescale vars ++
    match samples with
    | [] => ""
    | first :: rest => firstBlock vars first ++ changeBlocks vars first rest

end NandHdl.Vcd
