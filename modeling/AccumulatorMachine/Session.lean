import AccumulatorMachine.Assembly.Program
import AccumulatorMachine.Machine.Diagnostics
import AccumulatorMachine.Settings

/-! # Sessions

A session owns a machine of the size that its settings ask for. It loads programs into a fresh
machine, keeps the text of the last one that loaded for a reset, and drives the machine. A failed
load leaves a fresh machine without a program, and no text to reset to.
-/

namespace AccumulatorMachine
set_option autoImplicit false

/-- A machine with the settings it was made by and the program text it was loaded from. -/
structure Session where
  settings : Settings
  machine : Machine
  source : Option String := none
deriving DecidableEq

namespace Session

def freshMachine (s : Settings) : Machine := .blank s.memorySize.toNat

def ofSettings (s : Settings) : Session := { settings := s, machine := freshMachine s }

def emptied (s : Session) : Session := ofSettings s.settings

def withMachine (s : Session) (m : Machine) : Session := { s with machine := m }

/-- What the operation `x` on the machine comes to for the session. What it has changed before an
error stays changed. -/
def within {ε α : Type} (s : Session) (x : InPlace ε α) : EStateM.Result ε Session α :=
  match x s.machine with
  | .ok a m => .ok a (s.withMachine m)
  | .error e m => .error e (s.withMachine m)

def load (s : Session) (text : String) : Session × Except AssemblyError Program :=
  match s.emptied.within (InPlace.load text) with
  | .ok p after => ({ after with source := some text }, .ok p)
  | .error e after => (after, .error e)

/-- Loads the program of the session again. -/
def reset (s : Session) : Session × Except AssemblyError Unit :=
  match s.source with
  | some text =>
    let (after, result) := s.load text
    (after, result.map fun _ => ())
  | none => (s.emptied, .ok ())

def firstHalf (s : Session) : Except StepError (Instruction × Session) := do
  let (i, m) ← s.machine.firstHalf
  return (i, s.withMachine m)

def secondHalf (s : Session) : Except StepError Session := do
  let m ← s.machine.secondHalf
  return s.withMachine m

def step (s : Session) : Except StepError (Instruction × Session) := do
  let (i, m) ← s.machine.step
  return (i, s.withMachine m)

/-- Runs for at most `budget` instructions. -/
def run (s : Session) (budget : Nat) : Session × Except StepError Nat :=
  let r := s.machine.run budget
  (s.withMachine r.machine, r.result)

/-- Runs until the program is done or fails, if that comes about within `patience` instructions. -/
def runToEnd? (s : Session) (patience : Nat) : Option (Session × Except StepError Nat) :=
  (s.machine.runToEnd? patience).map fun r => (s.withMachine r.machine, r.result)

/-! ## Events -/

/-- The event of putting the program `p` into memory. -/
def parsedEvent (p : Program) : Event :=
  .parsed p.instructions.length p.data.length p.lastAddress

/-- The events of a load. -/
def loadEvents (s : Session) (text : String) : List Event :=
  match (s.load text).2 with
  | .ok p => [parsedEvent p, .loaded p.lastAddress]
  | .error _ => []

/-- The events of a reset. -/
def resetEvents (s : Session) : List Event :=
  match s.source with
  | some text => s.loadEvents text
  | none => []

end Session

end AccumulatorMachine
