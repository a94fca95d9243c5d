import AccumulatorMachine.Assembly.Line
import AccumulatorMachine.Assembly.Symbols
import AccumulatorMachine.Machine.Cycle
import AccumulatorMachine.Text.Lines

/-! # Programs

A source text is assembled in two passes. The first reads every line, defines the names, and
gives each instruction the next address (`Draft`). The second turns the operands into numbers
(`Program`). The error that is reported is that of the first bad line of the first pass, else a
program that is too long, else the first bad line of the second pass.

A program is put into memory instruction by instruction from address zero on, and then datum by
datum in the order of the source, so that a datum may replace an instruction or an earlier datum.
-/

namespace AccumulatorMachine
set_option autoImplicit false
open Text

/-! ## Errors -/

/-- Why a source text is no program. Lines count from one, and their text is the whole line. -/
inductive AssemblyError
  /-- The line has none of the forms, defines a name again, or has an operand without a value. -/
  | malformed (line : Nat) (text : String)
  /-- The line puts a datum outside memory. -/
  | dataOutOfRange (line : Nat) (text : String) (address : Int)
  /-- There are more instructions than memory or the program counter has room for. -/
  | tooLarge (size available : Nat)
  /-- The program cannot be put into memory. -/
  | memory (fault : AddressFault)
deriving DecidableEq

namespace AssemblyError

def message : AssemblyError → String
  | malformed line text => "syntax error on line " ++ toString line ++ ": " ++ text
  | dataOutOfRange line text address =>
    "data address " ++ toString address ++ " on line " ++ toString line ++ " is outside memory: " ++
      text
  | tooLarge size available =>
    "program size " ++ toString size ++ " exceeds available space " ++ toString available
  | memory fault => "memory error: " ++ fault.message

def line? : AssemblyError → Option Nat
  | malformed line _ | dataOutOfRange line _ _ => some line
  | tooLarge .. | memory _ => none

end AssemblyError

/-! ## The first pass -/

namespace Assembly

/-- What a line puts into memory. -/
inductive Statement
  | command (command : Command)
  | data (address value : Operand)
deriving DecidableEq

/-- A statement and the line it stands on. -/
structure Placed where
  line : Nat
  text : List Char
  statement : Statement
deriving DecidableEq

/-- The source as far as it has been read. -/
structure Draft where
  symbols : SymbolTable := {}
  /-- The number of instructions, which is the address of the next one. -/
  size : Nat := 0
  /-- The statements, the last one first. -/
  statements : List Placed := []

namespace Draft

def addStatement (d : Draft) (n : Nat) (text : List Char) (s : Statement) : Draft :=
  { d with statements := ⟨n, text, s⟩ :: d.statements }

def addCommand (d : Draft) (n : Nat) (text : List Char) (c : Command) : Draft :=
  { d.addStatement n text (.command c) with size := d.size + 1 }

def define? (d : Draft) (name : String) (definition : Definition) : Option Draft :=
  (d.symbols.define? name definition).map fun symbols => { d with symbols }

/-- The draft with the contents of line `n` added. -/
def add? (d : Draft) (n : Nat) (text : List Char) : Line → Option Draft
  | .blank => some d
  | .data address value => some (d.addStatement n text (.data address value))
  | .constant name value => d.define? name (.constant value)
  | .label name none => d.define? name (.label d.size)
  | .label name (some c) => (d.define? name (.label d.size)).map (·.addCommand n text c)
  | .command c => some (d.addCommand n text c)

/-- The draft with line `n` added, or the error on that line. -/
def addLine (d : Draft) (n : Nat) (text : List Char) : Except AssemblyError Draft :=
  match (readLine text).bind (d.add? n text) with
  | some d => .ok d
  | none => .error (.malformed n (String.ofList text))

def ofSource (source : String) : Except AssemblyError Draft :=
  ((lines source.toList).zipIdx 1).foldlM (fun d line => d.addLine line.2 line.1) {}

end Draft

end Assembly

/-! ## The second pass -/

/-- An assembled source text. -/
structure Program where
  /-- The instructions, from address zero on. -/
  instructions : List Instruction := []
  /-- The data with their addresses, in the order of the source. -/
  data : List (Nat × Word) := []
  /-- The names and their values, in alphabetical order. -/
  symbols : List (String × Int) := []
deriving DecidableEq

namespace Assembly

/-- The instruction that a command stands for; the operand must have a value that is not
negative. -/
def Command.resolve? (t : SymbolTable) (c : Command) : Option Instruction :=
  match c.operand with
  | none => some (.make c.kind 0)
  | some operand =>
    match t.resolve? operand with
    | some (.ofNat n) => some (.make c.kind (UInt16.ofNat n))
    | _ => none

/-- The address and the word of a data directive in a memory of `memorySize` cells. -/
def resolveData (t : SymbolTable) (memorySize line : Nat) (text : List Char)
    (address value : Operand) : Except AssemblyError (Nat × Word) :=
  match t.resolve? address, t.resolve? value with
  | some a, some v =>
    if 0 ≤ a ∧ a < memorySize then .ok (a.toNat, UInt16.ofInt v)
    else .error (.dataOutOfRange line (String.ofList text) a)
  | _, _ => .error (.malformed line (String.ofList text))

/-- The program with the contents of one more statement, put before those that follow it. -/
def Placed.addTo (t : SymbolTable) (memorySize : Nat) (p : Program) (s : Placed) :
    Except AssemblyError Program :=
  match s.statement with
  | .command c =>
    match c.resolve? t with
    | some i => .ok { p with instructions := i :: p.instructions }
    | none => .error (.malformed s.line (String.ofList s.text))
  | .data address value => do
    let datum ← resolveData t memorySize s.line s.text address value
    return { p with data := datum :: p.data }

def Draft.program (d : Draft) (memorySize : Nat) : Except AssemblyError Program := do
  let available := min memorySize fullSize
  if available < d.size then throw (.tooLarge d.size available)
  let p ← d.statements.reverse.foldlM (Placed.addTo d.symbols memorySize) {}
  return { instructions := p.instructions.reverse, data := p.data.reverse, symbols := d.symbols.values }

end Assembly

namespace Program

/-- The program of a source text, for a memory of `memorySize` cells. -/
def assemble (source : String) (memorySize : Nat) : Except AssemblyError Program := do
  let d ← Assembly.Draft.ofSource source
  d.program memorySize

def lastAddress (p : Program) : Option Word :=
  match p.instructions.length with
  | 0 => none
  | n + 1 => some (UInt16.ofNat n)

/-- The cells that the program sets, in the order in which they are set. -/
def image (p : Program) : List (Nat × Word) :=
  (p.instructions.zipIdx.map fun i => (i.2, i.1.encode)) ++ p.data

end Program

/-! ## Loading -/

namespace InPlace

/-- Writes cell after cell. The first one that memory does not have ends it, and those before stay
written. -/
def writeCells : List (Nat × Word) → InPlace AddressFault Unit
  | [], m => .ok () m
  | cell :: rest, m =>
    match writeCell cell.1 cell.2 m with
    | .ok _ after => writeCells rest after
    | .error e after => .error e after

/-- Puts the program into memory and notes where it ends. -/
def place (p : Program) : InPlace AddressFault Unit := do
  writeCells p.image
  modify ({ · with lastAddress := p.lastAddress })

/-- Puts the program of a source text into memory. All else of the machine stays. -/
def load (source : String) : InPlace AssemblyError Program := do
  let m ← get
  let p ← ofExcept (Program.assemble source m.memory.size)
  EStateM.adaptExcept .memory (place p)
  return p

end InPlace

/-- The program of a source text and the machine that it has been loaded into. -/
def Machine.load (m : Machine) (source : String) : Except AssemblyError (Program × Machine) :=
  InPlace.outcome (InPlace.load source) m

end AccumulatorMachine
