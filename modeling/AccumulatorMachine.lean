import AccumulatorMachine.Debugger.Screen
import AccumulatorMachine.Embedding
import AccumulatorMachine.Main
import AccumulatorMachine.Proofs.Machine.ControlUnit
import AccumulatorMachine.Proofs.Machine.Watch
import AccumulatorMachine.Proofs.Session.Completion
import AccumulatorMachine.Proofs.Session.History
import AccumulatorMachine.Proofs.Session.BranchMark
import AccumulatorMachine.Proofs.Debugger.Granularity
import AccumulatorMachine.Proofs.Debugger.Boundary
import AccumulatorMachine.Proofs.Debugger.ContinuousRun
import AccumulatorMachine.Proofs.Debugger.Driven
import AccumulatorMachine.Proofs.Session.MoreMemory
import AccumulatorMachine.Proofs.Debugger.Replay
import AccumulatorMachine.Proofs.Debugger.Intact
import AccumulatorMachine.Proofs.Session.Recall
import AccumulatorMachine.Proofs.Session.Range
import AccumulatorMachine.Proofs.Assembly.Rearranged
import AccumulatorMachine.Proofs.Assembly.Edits
import AccumulatorMachine.Proofs.Text.FixedDigits
import AccumulatorMachine.Proofs.Instruction.Equality
import AccumulatorMachine.Proofs.Machine.Snapshot
import AccumulatorMachine.Proofs.Session.LastExecution
import AccumulatorMachine.Proofs.Debugger.Current
import AccumulatorMachine.Proofs.Machine.Countdown
import AccumulatorMachine.Proofs.Session.Countdown
import AccumulatorMachine.Proofs.Memory.Views
import AccumulatorMachine.Proofs.CommandLine.Jobs
import AccumulatorMachine.Proofs.CommandLine.MemoryRows
import AccumulatorMachine.Proofs.Memory.Listing
import AccumulatorMachine.Proofs.Debugger.Window
import AccumulatorMachine.Proofs.Embedding.HalfSteps
import AccumulatorMachine.Proofs.Assembly.Literal
import AccumulatorMachine.Proofs.Assembly.Resolution
import AccumulatorMachine.Proofs.Assembly.Room
import AccumulatorMachine.Proofs.CommandLine.Override
import AccumulatorMachine.Proofs.CommandLine.Acceptance
import AccumulatorMachine.Proofs.Json.RoundTrip
import AccumulatorMachine.Proofs.Json.Forms
