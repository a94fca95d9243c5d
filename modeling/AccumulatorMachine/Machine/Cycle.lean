import AccumulatorMachine.Machine.Basic

/-! # The cycle of an instruction

The first half of a cycle fetches, decodes and executes; the second half moves the program counter
on, unless a branch has set it, and retires the instruction. The operations change the machine in
place, one thing after the other (`InPlace`), and an error that stops one of them half way takes
back nothing. Seen from outside, an operation gives the machine after it or an error
(`InPlace.outcome`); what drives a machine goes on from the one that the operation leaves, also
where it fails (`InPlace.left`).
-/

namespace AccumulatorMachine
set_option autoImplicit false

/-! ## Operations on words -/

def AluOp.apply (op : AluOp) (accumulator operand : Word) : Word :=
  match op with
  | add => accumulator + operand
  | sub => accumulator - operand
  | or => accumulator ||| operand
  | and => accumulator &&& operand
  | xor => accumulator ^^^ operand

def AccuOp.apply (op : AccuOp) (accumulator : Word) : Word :=
  match op with
  | not => ~~~accumulator
  | inc => accumulator + 1
  | dec => accumulator - 1
  | zro => 0

/-! ## Errors -/

/-- Why a step of the machine failed. -/
inductive StepError
  /-- The halves of a cycle were asked for in the wrong order. -/
  | sequence (expected actual : Phase)
  /-- The instruction, or its operand, is outside memory. -/
  | memory (fault : AddressFault)
deriving DecidableEq

def StepError.message : StepError → String
  | sequence expected actual =>
    "cycle step called out of order: expected " ++ expected.name ++ " phase, was " ++ actual.name
  | memory fault => "memory error: " ++ fault.message

/-! ## Changes to a machine -/

namespace Machine

def withAccumulator (m : Machine) (w : Word) : Machine :=
  { m with registers := { m.registers with accumulator := w } }

def branchTo (m : Machine) (target : Word) : Machine :=
  { m with registers := m.registers.jump target, branched := true, metrics := m.metrics.countBranch }

def fetch (m : Machine) : Except AddressFault Instruction :=
  (m.memory.read m.pc.toNat).map Instruction.decode

/-- The machine with the instruction that it holds retired. -/
def retired (m : Machine) : Machine :=
  { m with
    registers := if m.branched then m.registers else m.registers.advance
    branched := false
    loaded? := none
    metrics := m.metrics.countCycle
    phase := .idle }

end Machine

/-! ## Operations in place -/

/-- An operation on a machine. It may fail, and then what it has changed by that time stays
changed. -/
abbrev InPlace (ε α : Type) := EStateM ε Machine α

namespace InPlace

def ofExcept {ε α : Type} : Except ε α → InPlace ε α
  | .ok a => pure a
  | .error e => throw e

def readCell (a : Word) : InPlace AddressFault Word := do
  let m ← get
  ofExcept (m.memory.read a.toNat)

def writeCell (a : Nat) (w : Word) : InPlace AddressFault Unit := do
  let m ← get
  let memory ← ofExcept (m.memory.write a w)
  set { m with memory }

/-- Does what `i` says, the accumulator being `before`, and tells what that was. -/
def carryOut (i : Instruction) (before : Word) : InPlace AddressFault Snapshot := do
  match i with
  | .sto a =>
    writeCell a.toNat before
    return { instruction := i, memoryValue := before }
  | .lda a =>
    let w ← readCell a
    modify (·.withAccumulator w)
    return { instruction := i, oldAccumulator := before, memoryValue := w }
  | .brz a =>
    let taken := before == 0
    if taken then modify (·.branchTo a)
    return { instruction := i, branchTaken := taken }
  | .alu op a =>
    let w ← readCell a
    let result := op.apply before w
    modify (·.withAccumulator result)
    return { instruction := i, oldAccumulator := before, aluResult := result, memoryValue := w }
  | .accu op =>
    let result := op.apply before
    modify (·.withAccumulator result)
    return { instruction := i, oldAccumulator := before, aluResult := result }
  | .nop => return { instruction := i }

/-- Executes an instruction outside any cycle. The program counter moves only if a branch is
taken, and the snapshot is replaced as a whole. -/
def execute (i : Instruction) : InPlace AddressFault Unit := do
  let m ← get
  let snapshot ← carryOut i.reduced m.accumulator
  modify ({ · with snapshot })

def expectPhase (expected : Phase) : InPlace StepError Unit := do
  let m ← get
  if m.phase ≠ expected then throw (.sequence expected m.phase)

/-- Fetches and executes the instruction at the program counter, and holds it. -/
def firstHalf : InPlace StepError Instruction := do
  expectPhase .idle
  let m ← get
  let i ← ofExcept (m.fetch.mapError .memory)
  EStateM.adaptExcept .memory (execute i)
  modify ({ · with loaded? := some i })
  modify ({ · with phase := .firstPhaseDone })
  return i

/-- Moves the program counter on and retires the instruction that the machine holds. -/
def secondHalf : InPlace StepError Unit := do
  expectPhase .firstPhaseDone
  let m ← get
  if !m.branched then modify fun m => { m with registers := m.registers.advance }
  modify ({ · with branched := false })
  modify ({ · with loaded? := none })
  modify fun m => { m with metrics := m.metrics.countCycle }
  modify ({ · with phase := .idle })

/-- A whole cycle. -/
def step : InPlace StepError Instruction := do
  let i ← firstHalf
  secondHalf
  return i

/-- What the operation comes to on the machine `m`, from outside. -/
def outcome {ε α : Type} (x : InPlace ε α) (m : Machine) : Except ε (α × Machine) :=
  match x m with
  | .ok a after => .ok (a, after)
  | .error e _ => .error e

/-- The machine that the operation leaves of `m`, whether it succeeds or fails. -/
def left {ε α : Type} (x : InPlace ε α) (m : Machine) : Machine :=
  match x m with
  | .ok _ after | .error _ after => after

end InPlace

/-! ## The operations from outside -/

namespace Machine

/-- The machine after an instruction has been executed outside any cycle. -/
def execute (m : Machine) (i : Instruction) : Except AddressFault Machine :=
  (InPlace.outcome (InPlace.execute i) m).map Prod.snd

/-- The instruction that the first half of a cycle executes, and the machine that holds it. -/
def firstHalf (m : Machine) : Except StepError (Instruction × Machine) :=
  InPlace.outcome InPlace.firstHalf m

/-- The machine after the second half of a cycle. -/
def secondHalf (m : Machine) : Except StepError Machine :=
  (InPlace.outcome InPlace.secondHalf m).map Prod.snd

/-- The instruction of a whole cycle, and the machine after it. -/
def step (m : Machine) : Except StepError (Instruction × Machine) :=
  InPlace.outcome InPlace.step m

end Machine

end AccumulatorMachine
