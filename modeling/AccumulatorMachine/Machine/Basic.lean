import AccumulatorMachine.Memory.Basic
import AccumulatorMachine.Registers

/-! # The machine

All that a machine holds: registers, memory, the address of the program's last instruction, the
counters, the instruction that it has executed but not yet retired, a snapshot of the last executed
instruction, and the phase of the cycle. The instruction and the phase are two fields, written one
after the other, and nothing here makes them agree.
-/

namespace AccumulatorMachine
set_option autoImplicit false

/-! ## What an instruction did -/

/-- What the last executed instruction did. A field that does not concern the instruction is
empty. -/
structure Snapshot where
  instruction : Option Instruction := none
  /-- The accumulator before, where the instruction replaces it. -/
  oldAccumulator : Option Word := none
  /-- What the arithmetic unit gave to the accumulator. -/
  aluResult : Option Word := none
  /-- The word that was read from memory or written to it. -/
  memoryValue : Option Word := none
  /-- Whether the branch was taken, of a branch. -/
  branchTaken : Option Bool := none
deriving DecidableEq, Inhabited

/-! ## Counters -/

/-- The counters of a program and the state of the watch that times its runs. There is no clock
here: of the time a run took, it is known only whether any has been measured. -/
structure Metrics where
  /-- The retired instructions. -/
  instructions : UInt64 := 0
  /-- The completed cycles, one for an instruction. -/
  cycles : UInt64 := 0
  /-- The branches that were taken. -/
  branches : UInt64 := 0
  /-- Whether the watch runs. -/
  running : Bool := false
  /-- Whether the watch has measured any time. -/
  measured : Bool := false
deriving DecidableEq, Inhabited

namespace Metrics

def resume (m : Metrics) : Metrics := { m with running := true }

/-- The watch stops; a watch that was running has measured something. -/
def stop (m : Metrics) : Metrics := { m with running := false, measured := m.measured || m.running }

def countCycle (m : Metrics) : Metrics :=
  { m with instructions := m.instructions + 1, cycles := m.cycles + 1 }

def countBranch (m : Metrics) : Metrics := { m with branches := m.branches + 1 }

end Metrics

/-! ## The cycle -/

/-- How far the machine is with its cycle. -/
inductive Phase
  /-- Ready to fetch. -/
  | idle
  /-- The instruction has been executed but not retired. -/
  | firstPhaseDone
deriving DecidableEq

def Phase.name : Phase → String
  | idle => "Idle"
  | firstPhaseDone => "FirstPhaseDone"

/-! ## The machine -/

structure Machine where
  registers : Registers := {}
  memory : Memory
  /-- The address of the last instruction, if there is a program. -/
  lastAddress : Option Word := none
  metrics : Metrics := {}
  /-- The instruction that waits to be retired. -/
  loaded? : Option Instruction := none
  snapshot : Snapshot := {}
  phase : Phase := .idle
  /-- Whether a branch has set the program counter since an instruction was last retired. -/
  branched : Bool := false
deriving DecidableEq

namespace Machine

def blank (size : Nat) : Machine := { memory := .zeros size }

def accumulator (m : Machine) : Word := m.registers.accumulator

def pc (m : Machine) : Word := m.registers.pc

/-- Whether the program counter is past the last instruction; without a program it always is. -/
def isDone (m : Machine) : Bool :=
  match m.lastAddress with
  | some last => last < m.pc
  | none => true

end Machine

end AccumulatorMachine
