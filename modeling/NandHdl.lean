import NandHdl.CommandLine.Argument
import NandHdl.CommandLine.Command
import NandHdl.CommandLine.Log
import NandHdl.CommandLine.Options
import NandHdl.CommandLine.Project
import NandHdl.Config.Basic
import NandHdl.Config.Codec
import NandHdl.Decimal.Double
import NandHdl.Decimal.Numeral
import NandHdl.Design.Build
import NandHdl.Design.Codec
import NandHdl.Design.Run
import NandHdl.Design.Table
import NandHdl.Elaboration.Body
import NandHdl.Elaboration.Draft
import NandHdl.Elaboration.Error
import NandHdl.Elaboration.Value
import NandHdl.Failure
import NandHdl.Fault
import NandHdl.Files.Path
import NandHdl.Files.Session
import NandHdl.Files.System
import NandHdl.Files.Tree
import NandHdl.Json.Basic
import NandHdl.Json.Decode
import NandHdl.Json.Reader
import NandHdl.Json.Writer
import NandHdl.Kernel.Basic
import NandHdl.Kernel.Object
import NandHdl.Kernel.Packed
import NandHdl.Main
import NandHdl.Names
import NandHdl.Netlist.Basic
import NandHdl.Netlist.Codec
import NandHdl.Netlist.Levels
import NandHdl.Netlist.Optimizer
import NandHdl.Netlist.Validity
import NandHdl.Program
import NandHdl.Program.Codec
import NandHdl.Proofs.Checked
import NandHdl.Proofs.Elaboration.Bodies
import NandHdl.Proofs.Elaboration.Drafts
import NandHdl.Proofs.Elaboration.Instances
import NandHdl.Proofs.Elaboration.Capture
import NandHdl.Proofs.Elaboration.Meaning
import NandHdl.Proofs.Elaboration.Names
import NandHdl.Proofs.Elaboration.Runs
import NandHdl.Proofs.Elaboration.Top
import NandHdl.Proofs.Elaboration.Values
import NandHdl.Proofs.Elaboration.Widths
import NandHdl.Proofs.Inference.Passes
import NandHdl.Proofs.Kernel.Engine
import NandHdl.Proofs.Kernel.Object
import NandHdl.Proofs.Kernel.Packed
import NandHdl.Proofs.Levels.Order
import NandHdl.Proofs.Levels.Placement
import NandHdl.Proofs.Levels.Tables
import NandHdl.Proofs.Netlist.Wellformed
import NandHdl.Proofs.Optimizer.Redirect
import NandHdl.Proofs.Optimizer.Result
import NandHdl.Proofs.Optimizer.Runs
import NandHdl.Proofs.Optimizer.Sound
import NandHdl.Proofs.Optimizer.Substitution
import NandHdl.Proofs.Optimizer.Sweep
import NandHdl.Proofs.Settling
import NandHdl.Proofs.Simulation.Agreement
import NandHdl.Proofs.Simulation.Operations
import NandHdl.Proofs.Store.Bits
import NandHdl.Scope
import NandHdl.Simulation.Basic
import NandHdl.Simulation.Batches
import NandHdl.Store.Basic
import NandHdl.Store.Bytes
import NandHdl.Text
import NandHdl.Waveform.Basic
import NandHdl.Waveform.Vcd
import NandHdl.Width
import NandHdl.Proofs.Levels.Cycle
import NandHdl.Proofs.Levels.Exact
import NandHdl.Proofs.Clocking
import NandHdl.Proofs.Elaboration.Drivers
import NandHdl.Proofs.Elaboration.Steps
import NandHdl.Proofs.Elaboration.SafeValues
import NandHdl.Proofs.Elaboration.SingleDrivers
import NandHdl.Proofs.Elaboration.Growth
import NandHdl.Proofs.Elaboration.ValueWidths
import NandHdl.Proofs.Elaboration.Reference
import NandHdl.Proofs.Elaboration.Sizing
import NandHdl.Proofs.Elaboration.Relations
import NandHdl.Proofs.Optimizer.Shrinking
import NandHdl.Proofs.Design.Built
import NandHdl.Proofs.Simulation.History
import NandHdl.Proofs.Design.Trace
import NandHdl.Proofs.Kernel.InRange
import NandHdl.Proofs.Simulation.InRange
import NandHdl.Proofs.Design.InRange
import NandHdl.Proofs.Renaming.Programs
import NandHdl.Proofs.Renaming.Scopes
import NandHdl.Proofs.Renaming.Widths
import NandHdl.Proofs.Renaming.Steps
import NandHdl.Proofs.Renaming.Values
import NandHdl.Proofs.Renaming.Instances
import NandHdl.Proofs.Renaming.Bodies
import NandHdl.Proofs.Renaming.Top
import NandHdl.Proofs.Simulation.Batching
import NandHdl.Proofs.Store.Layout
import NandHdl.Proofs.Store.Exchange
import NandHdl.Proofs.Waveform.Codes
import NandHdl.Proofs.Waveform.Reader
import NandHdl.Proofs.Waveform.Dump
import NandHdl.Proofs.Reordering.Widths
import NandHdl.Proofs.Reordering.Fragments
import NandHdl.Proofs.Reordering.Wiring
import NandHdl.Proofs.Reordering.Values
import NandHdl.Proofs.Reordering.Rearranged
import NandHdl.Proofs.Reordering.Swaps
import NandHdl.Proofs.Reordering.Declarations
import NandHdl.Proofs.Reordering.Bodies
import NandHdl.Proofs.Reordering.Circuits
import NandHdl.Proofs.Reordering.Runs
import NandHdl.Proofs.Reordering.Ports
import NandHdl.Proofs.Reordering.Top
import NandHdl.Proofs.Simulation.Stopping
import NandHdl.Proofs.Kernel.CycleCount
import NandHdl.Proofs.Waveform.Stamps
import NandHdl.Proofs.Simulation.Recording
import NandHdl.Proofs.Inference.FixedPoint
import NandHdl.Proofs.Elaboration.Asked
import NandHdl.Proofs.Elaboration.Bindings
import NandHdl.Proofs.Elaboration.Nesting
import NandHdl.Proofs.Elaboration.Resolved
import NandHdl.Proofs.Elaboration.Inputs
import NandHdl.Proofs.Optimizer.Normal
import NandHdl.Proofs.Elaboration.InstanceTree
import NandHdl.Proofs.Elaboration.PortNames
import NandHdl.Proofs.Elaboration.Limit
import NandHdl.Proofs.Netlist.Buses
import NandHdl.Proofs.Netlist.Validation
import NandHdl.Proofs.Simulation.BusAccess
import NandHdl.Proofs.Simulation.InPlace
import NandHdl.Proofs.CommandLine.Inputs
import NandHdl.Proofs.Json.Literals
import NandHdl.Proofs.Json.Values
import NandHdl.Proofs.Json.Decode
import NandHdl.Proofs.Program.RoundTrip
import NandHdl.Proofs.Program.Printing
import NandHdl.Proofs.Text
import NandHdl.Proofs.CommandLine.Assignments
import NandHdl.Proofs.Design.Table
import NandHdl.Proofs.Optimizer.Forest
import NandHdl.Proofs.Elaboration.Concatenation
