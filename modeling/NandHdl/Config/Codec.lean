-- SUMMARY: Settings from JSON: every field may be missing and then has its default.
import NandHdl.Config.Basic
import NandHdl.Json.Decode

namespace NandHdl

/-- Reads the settings of elaboration. -/
def ElabConfig.ofJson? (left : Nat) (j : Json) : Option ElabConfig := do
  let (_, values) ← Json.record? ["max_inline_depth"] left j
  let d : ElabConfig := {}
  match values with
  | [depth] => return { maxInlineDepth := ← Json.optional d.maxInlineDepth Json.count? depth }
  | _ => none

/-- Reads the name of an engine. An object with the name as its only field, and `null` for a
value, means the same. -/
def KernelKind.ofJson? (left : Nat) : Json → Option KernelKind
  | .string (some s) => all.find? (·.name == s)
  | .object [(some s, .null)] => if left = 0 then none else all.find? (·.name == s)
  | _ => none

/-- Reads the settings of a simulation. -/
def SimConfig.ofJson? (left : Nat) (j : Json) : Option SimConfig := do
  let (inside, values) ←
    Json.record? ["batch_size", "kernel", "timescale", "include_internal"] left j
  let d : SimConfig := {}
  match values with
  | [batchSize, kernel, timescale, includeInternal] =>
    return { batchSize := ← Json.optional d.batchSize Json.count? batchSize
             kernel := ← Json.optional d.kernel (KernelKind.ofJson? inside) kernel
             timescale := ← Json.optional d.timescale Json.text? timescale
             includeInternal := ← Json.optional d.includeInternal Json.bool? includeInternal }
  | _ => none

/-- Reads the settings of the optimizer. -/
def OptimizerConfig.ofJson? (left : Nat) (j : Json) : Option OptimizerConfig := do
  let (_, values) ← Json.record? ["enabled", "min_savings_percent", "max_passes"] left j
  let d : OptimizerConfig := {}
  match values with
  | [enabled, savings, passes] =>
    return { enabled := ← Json.optional d.enabled Json.bool? enabled
             minSavingsPercent := ← Json.optional d.minSavingsPercent Json.double? savings
             maxPasses := ← Json.optional d.maxPasses Json.count? passes }
  | _ => none

/-- Reads the settings of a build and a simulation. -/
def RunConfig.ofJson? (j : Json) : Option RunConfig := do
  let (inside, values) ← Json.record? ["elab", "sim", "optimizer"] Json.maxOpen j
  match values with
  | [elaboration, sim, optimizer] =>
    return { elaboration := ← Json.optional {} (ElabConfig.ofJson? inside) elaboration
             sim := ← Json.optional {} (SimConfig.ofJson? inside) sim
             optimizer := ← Json.optional {} (OptimizerConfig.ofJson? inside) optimizer }
  | _ => none

/-- The JSON form of the settings of a simulation. -/
def SimConfig.toJson (c : SimConfig) : Json :=
  .ofFields
    [("batch_size", .ofNat c.batchSize), ("kernel", .ofString c.kernel.name),
     ("timescale", .ofString c.timescale), ("include_internal", .bool c.includeInternal)]

end NandHdl
