import AccumulatorMachine.Assembly.Listing
import AccumulatorMachine.Instruction.Control
import AccumulatorMachine.Session
import Std.Data.TreeSet

/-! # The debugger

A debugger drives a session by keys: whole steps, half steps, and ticks of a continuous run, which
stops when the program is done, at a breakpoint, or at an error. Breakpoints are addresses, and
one only counts between two cycles. Every operation leaves a status to be shown.
-/

namespace AccumulatorMachine
set_option autoImplicit false
open Text

/-! ## Status -/

/-- What the debugger last did. -/
inductive Status
  | ready
  | running
  | stepped (pc : Word) (instruction : Instruction)
  | executed (instruction : Instruction)
  | retired (pc : Word)
  /-- A step found the program done. -/
  | stepFinished (instructions : UInt64)
  /-- A half step found the program done. -/
  | halfStepFinished
  /-- A continuous run found the program done. -/
  | runFinished (instructions : UInt64)
  | stoppedAt (pc : Word)
  | breakpointSet (pc : Word)
  | breakpointRemoved (pc : Word)
  | failed (error : StepError)
  | reset
  | resetFailed (error : AssemblyError)
deriving DecidableEq

def Status.text : Status → String
  | ready => "Ready. Press 's' to step, 'h' to half-step, 'r' to run, 'q' to quit."
  | running => "Running..."
  | stepped pc i => "PC=" ++ decimal4 pc.toNat ++ ": " ++ i.text
  | executed i => "Executed " ++ i.text ++ ", PC not yet advanced"
  | retired pc => "Retired, PC=" ++ decimal4 pc.toNat
  | stepFinished n => "Program finished after " ++ toString n.toNat ++ " instructions"
  | halfStepFinished => "Program finished"
  | runFinished n => "Finished after " ++ toString n.toNat ++ " instructions"
  | stoppedAt pc => "Breakpoint at PC=" ++ toString pc.toNat
  | breakpointSet pc => "Set breakpoint at PC=" ++ toString pc.toNat
  | breakpointRemoved pc => "Removed breakpoint at PC=" ++ toString pc.toNat
  | failed e => "Error: " ++ e.message
  | reset => "Reset. Ready."
  | resetFailed e => "Reset failed: " ++ e.message

/-! ## The debugger -/

/-- A session under the control of a user. -/
structure Debugger where
  session : Session
  breakpoints : Std.TreeSet Word := ∅
  /-- Whether ticks go on executing. -/
  running : Bool := false
  quit : Bool := false
  status : Status := .ready
  /-- The first address of the memory view. -/
  scroll : Nat := 0

structure CodeRow where
  address : Word
  text : String
  isCurrent : Bool
deriving DecidableEq

namespace Debugger

def machine (d : Debugger) : Machine := d.session.machine

def report (d : Debugger) (s : Status) : Debugger := { d with status := s }

/-- The debugger after its continuous run has ended. -/
def halt (d : Debugger) (s : Status) : Debugger := { d with running := false, status := s }

/-! ## Operations -/

/-- Does the half of the cycle that comes next, unless the program is done before a first half. -/
def halfStep (d : Debugger) : Debugger :=
  match d.machine.phase with
  | .idle =>
    if d.machine.isDone then d.report .halfStepFinished
    else
      match d.session.within InPlace.firstHalf with
      | .ok i session => { d with session, status := .executed i }
      | .error e session => { d with session, status := .failed e }
  | .firstPhaseDone =>
    match d.session.within InPlace.secondHalf with
    | .ok _ session => { d with session, status := .retired session.machine.pc }
    | .error e session => { d with session, status := .failed e }

/-- Does a whole cycle, or the rest of one that is half done. -/
def step (d : Debugger) : Debugger :=
  match d.machine.phase with
  | .firstPhaseDone => d.halfStep
  | .idle =>
    if d.machine.isDone then d.halt (.stepFinished d.machine.metrics.instructions)
    else
      match d.session.within InPlace.step with
      | .ok i session => { d with session, status := .stepped d.machine.pc i }
      | .error e session => { d with session, running := false, status := .failed e }

def run (d : Debugger) : Debugger := { d with running := true, status := .running }

def atBreakpoint (d : Debugger) : Bool := d.breakpoints.contains d.machine.pc

/-- Goes on with a continuous run: a step, or the end of the run. -/
def tick (d : Debugger) : Debugger :=
  if !d.running then d
  else if d.machine.isDone then d.halt (.runFinished d.machine.metrics.instructions)
  else if d.atBreakpoint && d.machine.phase == .idle then d.halt (.stoppedAt d.machine.pc)
  else d.step

def toggleBreakpoint (d : Debugger) : Debugger :=
  let pc := d.machine.pc
  if d.atBreakpoint then
    { d with breakpoints := d.breakpoints.erase pc, status := .breakpointRemoved pc }
  else { d with breakpoints := d.breakpoints.insert pc, status := .breakpointSet pc }

def reset (d : Debugger) : Debugger :=
  let (session, result) := d.session.reset
  let after := { d with session, running := false }
  match result with
  | .ok _ => after.report .reset
  | .error e => after.report (.resetFailed e)

/-! ## Views -/

/-- The instruction that is half done, or else the one at the program counter. -/
def current? (d : Debugger) : Option Instruction :=
  d.machine.loaded? <|> d.machine.fetch.toOption

/-- The control lines of the current instruction, none if there is no instruction. -/
def signals (d : Debugger) : List (Signal × Bool) :=
  match d.current? with
  | some i => Signal.all.map fun s => (s, i.kind.asserts s)
  | none => []

/-- The instructions of `lines` cells around the program counter, as far as there are cells. -/
def code (d : Debugger) (lines : Nat) : List CodeRow :=
  let pc := d.machine.pc.toNat
  (d.machine.memory.dump (pc - lines / 2) lines).map fun cell =>
    { address := UInt16.ofNat cell.1, text := cell.2.disassembly, isCurrent := cell.1 == pc }

end Debugger

end AccumulatorMachine
