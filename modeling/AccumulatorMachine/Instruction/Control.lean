import AccumulatorMachine.Instruction.Basic

/-! # Control lines

The control unit asserts a fixed set of twelve lines for each kind of instruction. The lines of
the arithmetic unit follow the 74181: `alumode` selects logic or arithmetic, `alu3` to `alu0` the
function, and `aluinc` is the carry input. Execution does not consult this table.
-/

namespace AccumulatorMachine
set_option autoImplicit false

/-- A line of the control unit. -/
inductive Signal
  | writeRam
  | incPc
  | setPc
  | addrIr
  | setIr
  | setAccu
  | aluInc
  | aluMode
  | alu3
  | alu2
  | alu1
  | alu0
deriving DecidableEq

structure UnknownSignal where
  name : String
deriving DecidableEq

def UnknownSignal.message (e : UnknownSignal) : String := "unknown control signal: " ++ e.name

namespace Signal

/-- All lines, the most significant bit of a control word first. -/
def all : List Signal :=
  [writeRam, incPc, setPc, addrIr, setIr, setAccu, aluInc, aluMode, alu3, alu2, alu1, alu0]

def name : Signal → String
  | writeRam => "write[ram]"
  | incPc => "inc[pc]"
  | setPc => "set[pc]"
  | addrIr => "addr=ir"
  | setIr => "set[ir]"
  | setAccu => "set[accu]"
  | aluInc => "aluinc"
  | aluMode => "alumode"
  | alu3 => "alu3"
  | alu2 => "alu2"
  | alu1 => "alu1"
  | alu0 => "alu0"

def ofName (name : String) : Except UnknownSignal Signal :=
  match all.find? fun s => s.name == name with
  | some s => .ok s
  | none => .error ⟨name⟩

/-- The bit of a line in a control word, counted from the most significant one. -/
def index (s : Signal) : Nat := all.idxOf s

end Signal

namespace Kind

/-- The control word of a kind. In order of the bits: write memory, increment and set the program
counter, take the address from the instruction, set the instruction and the accumulator, carry,
mode, and four bits for the function. -/
def controlWord : Kind → BitVec 12
  | sto => 0b110110000000#12
  | lda => 0b010111011010#12
  | brz => 0b011110000000#12
  | alu .add => 0b010111001001#12
  | alu .sub => 0b010111100110#12
  | alu .or => 0b010111011110#12
  | alu .and => 0b010111011011#12
  | alu .xor => 0b010111010110#12
  | accu .not => 0b010011010000#12
  | accu .inc => 0b010011100000#12
  | accu .dec => 0b010011001111#12
  | accu .zro => 0b010011010011#12
  | nop => 0b010010000000#12

/-- Whether the control unit asserts the line `s` for this kind. -/
def asserts (k : Kind) (s : Signal) : Bool := k.controlWord.getMsbD s.index

def activeSignals (k : Kind) : List Signal := Signal.all.filter k.asserts

end Kind

end AccumulatorMachine
