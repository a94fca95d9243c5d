import AccumulatorMachine.Machine.Run

/-! # Diagnostics

The one-line summary of a machine, and the events that its operations are to be logged with. The
events of an operation are a function of the machine before it, so that the operations themselves
stay free of logging; a failed cycle has no events.
-/

namespace AccumulatorMachine
set_option autoImplicit false

def optionText {α : Type} (text : α → String) : Option α → String
  | some x => "Some(" ++ text x ++ ")"
  | none => "None"

namespace Machine

def summary (m : Machine) : String :=
  "ArchitecturalState \x7b phase: " ++ m.phase.name ++ ", regs: " ++ m.registers.summary ++
    ", max_pc: " ++ optionText (toString ·.toNat) m.lastAddress ++
    ", loaded_instruction: " ++ optionText Instruction.description m.loaded? ++
    ", mem: " ++ m.memory.summary ++ " \x7d"

end Machine

/-! ## Events -/

/-- What happened, as far as it is logged. -/
inductive Event
  /-- A source text was assembled and put into memory. -/
  | parsed (instructions data : Nat) (lastAddress : Option Word)
  /-- A program was loaded into a fresh machine. -/
  | loaded (lastAddress : Option Word)
  /-- An instruction was executed; the program counter is the one after it. -/
  | executed (pc : Word) (instruction : Instruction) (before after : Word)
  /-- What the machine held was retired; the program counter is the one after it. -/
  | retired (instruction : Option Instruction) (pc : Word)
  /-- A run ended. -/
  | ran (count : Nat) (pc : Word)

namespace Event
open Text

def level : Event → String
  | parsed .. | loaded .. | ran .. => "DEBUG"
  | executed .. | retired .. => "TRACE"

def target : Event → String
  | parsed .. => "toysim::asm::parser"
  | loaded .. | ran .. => "toysim::sim"
  | executed .. => "toysim::cpu::execute"
  | retired .. => "toysim::cpu::state"

/-- What an event has to say. The rate of a run depends on the clock and stands as `<rate>`. -/
def text : Event → String
  | parsed instructions data last =>
    "parsed " ++ toString instructions ++ " instructions, " ++ toString data ++
      " data words, max_pc " ++ optionText (toString ·.toNat) last
  | loaded last => "loaded program, max_pc " ++ optionText (toString ·.toNat) last
  | executed pc i before after =>
    padStart ' ' 4 (toString pc.toNat) ++ ": " ++ padEnd ' ' 8 i.text ++ " accu 0x" ++
      before.lowerHex ++ " -> 0x" ++ after.lowerHex
  | retired i? pc =>
    "retired " ++ optionText Instruction.description i? ++ ", pc " ++ toString pc.toNat
  | ran count pc =>
    "ran " ++ toString count ++ " instructions (<rate> instr/s), pc " ++ toString pc.toNat

def record (e : Event) : String := e.level ++ " " ++ e.target ++ ": " ++ e.text

/-- The event as a line of a log file, the time of day standing as `<time>`. -/
def logLine (e : Event) : String :=
  "[<time> " ++ padEnd ' ' 5 e.level ++ " " ++ e.target ++ "] " ++ e.text ++ "\n"

end Event

/-! ## The events of an operation -/

namespace Machine

def executeEvents (m : Machine) (i : Instruction) : List Event :=
  match m.execute i with
  | .ok after => [.executed after.pc i.reduced m.accumulator after.accumulator]
  | .error _ => []

def firstHalfEvents (m : Machine) : List Event :=
  match m.firstHalf with
  | .ok (i, _) => m.executeEvents i
  | .error _ => []

def secondHalfEvents (m : Machine) : List Event :=
  match m.secondHalf with
  | .ok after => [.retired m.loaded? after.pc]
  | .error _ => []

def stepEvents (m : Machine) : List Event :=
  match m.firstHalf with
  | .ok (_, half) => m.firstHalfEvents ++ half.secondHalfEvents
  | .error _ => []

/-- The events of at most `budget` cycles and of what was `earlier`, the last one first. -/
def advanceEvents : Nat → List Event → Machine → List Event
  | 0, earlier, _ => earlier
  | budget + 1, earlier, m =>
    if m.isDone then earlier
    else
      match m.step with
      | .ok (_, after) => advanceEvents budget (m.stepEvents.reverse ++ earlier) after
      | .error _ => earlier

def runEvents (m : Machine) (budget : Nat) : List Event :=
  let r := m.run budget
  (advanceEvents budget [] m).reverse ++ [.ran r.count r.machine.pc]

end Machine

end AccumulatorMachine
