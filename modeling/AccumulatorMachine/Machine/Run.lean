import AccumulatorMachine.Machine.Cycle

/-! # Runs

A run executes whole cycles until the program is done, a cycle fails, or a budget of instructions
is spent. What a run leaves is a machine, the number of instructions, and the error that ended it
if one did; the machine of a failed run is the one that the failed cycle leaves.
-/

namespace AccumulatorMachine
set_option autoImplicit false

structure Run where
  machine : Machine
  count : Nat
  error : Option StepError := none

namespace Run

def result (r : Run) : Except StepError Nat :=
  match r.error with
  | some e => .error e
  | none => .ok r.count

/-- Whether the run ended for another reason than its budget. -/
def isFinal (r : Run) : Bool := r.error.isSome || r.machine.isDone

end Run

namespace Machine

/-- Runs on for at most `budget` instructions after `count` of them, leaving the watch alone. -/
def advance : Nat → Nat → Machine → Run
  | 0, count, m => { machine := m, count }
  | budget + 1, count, m =>
    if m.isDone then { machine := m, count }
    else
      match InPlace.step m with
      | .ok _ after => advance budget (count + 1) after
      | .error e after => { machine := after, count, error := some e }

/-- Runs for at most `budget` instructions, timed by the watch. -/
def run (m : Machine) (budget : Nat) : Run :=
  let r := advance budget 0 { m with metrics := m.metrics.resume }
  { r with machine := { r.machine with metrics := r.machine.metrics.stop } }

/-- Runs until the program is done or fails. There is no answer if neither has come about after
`patience` instructions: a program may run forever. -/
def runToEnd? (m : Machine) (patience : Nat) : Option Run :=
  let r := m.run patience
  if r.isFinal then some r else none

end Machine

end AccumulatorMachine
