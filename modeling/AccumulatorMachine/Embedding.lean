import AccumulatorMachine.Assembly.Listing
import AccumulatorMachine.Instruction.Control
import AccumulatorMachine.Json.Forms
import AccumulatorMachine.Json.Writer
import AccumulatorMachine.Session

/-! # Embedding

A session as another program holds it: numbers and texts go in and out, and a failed call gives
nothing but the fact that it failed. A half step here does the next half of the cycle whether the
program is done or not.
-/

namespace AccumulatorMachine
set_option autoImplicit false

/-- A session in the hands of another program. -/
structure Embedding where
  session : Session
deriving DecidableEq

namespace Embedding

def initial : Embedding := ⟨.ofSettings {}⟩

/-- Loads a program; the number of its instructions. -/
def load (e : Embedding) (text : String) : Embedding × Option Nat :=
  let (session, result) := e.session.load text
  (⟨session⟩, result.toOption.map fun p => p.instructions.length)

/-- A whole cycle; the text of the instruction. -/
def step (e : Embedding) : Option (String × Embedding) :=
  e.session.step.toOption.map fun (i, session) => (i.text, ⟨session⟩)

def halfStep (e : Embedding) : Option Embedding :=
  match e.session.machine.phase with
  | .idle => e.session.firstHalf.toOption.map fun (_, session) => ⟨session⟩
  | .firstPhaseDone => e.session.secondHalf.toOption.map Embedding.mk

/-- Runs for at most `budget` instructions; their number. -/
def run (e : Embedding) (budget : UInt32) : Embedding × Option Nat :=
  let (session, result) := e.session.run budget.toNat
  (⟨session⟩, result.toOption)

/-- Loads the program again; whether that succeeded. -/
def reset (e : Embedding) : Embedding × Bool :=
  let (session, result) := e.session.reset
  (⟨session⟩, result.isOk)

def isDone (e : Embedding) : Bool := e.session.machine.isDone

def pc (e : Embedding) : Word := e.session.machine.pc

def accumulator (e : Embedding) : Word := e.session.machine.accumulator

def instructions (e : Embedding) : UInt64 := e.session.machine.metrics.instructions

def memoryAt (e : Embedding) (a : Nat) : Option Word := (e.session.machine.memory.read a).toOption

def memoryAll (e : Embedding) : List Word :=
  (e.session.machine.memory.dump 0 e.session.machine.memory.size).map Prod.snd

def snapshotText (e : Embedding) : String := e.session.machine.snapshot.toJson.compact

def metricsText (e : Embedding) : String := e.session.machine.metrics.toJson.compact

def activeSignals (mnemonic : String) : Option (List String) :=
  (Kind.ofMnemonic? mnemonic).map fun k => k.activeSignals.map Signal.name

end Embedding

end AccumulatorMachine
