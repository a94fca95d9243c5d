import AccumulatorMachine.Instruction.Basic
import AccumulatorMachine.Memory.Basic

/-! # Listings

Machine code as text: the listing of a program, one instruction a line, and the listing of memory
cells, which is assembly text again once the addresses are cut off.
-/

namespace AccumulatorMachine
set_option autoImplicit false
open Text

inductive CodeFormat
  | binary
  | hex
deriving DecidableEq

namespace Instruction

def code (i : Instruction) : CodeFormat → String
  | .binary => i.binary
  | .hex => i.hex

/-- The line of an instruction at an address: address, machine code and assembly text. -/
def listingLine (i : Instruction) (address : Nat) (format : CodeFormat) : String :=
  decimal4 address ++ ": " ++ i.code format ++ "  " ++ i.text ++ "\n"

/-- The listing of instructions from address zero on. -/
def listing (is : List Instruction) (format : CodeFormat) : String :=
  String.join (is.zipIdx.map fun i => i.1.listingLine i.2 format)

end Instruction

def Word.disassembly (w : Word) : String := (Instruction.decode w).text

namespace Memory

/-- The data directive for the word `w` at the address `a`. -/
def dataLine (a : Nat) (w : Word) : String := ":" ++ decimal4 a ++ ":" ++ toString w.toNat

/-- The line of a cell: address, assembly text, and the word itself as a comment. -/
def cellLine (a : Nat) (w : Word) : String :=
  decimal4 a ++ ": " ++ padEnd ' ' 10 w.disassembly ++ " # " ++ w.hex ++ "\n"

def cellLines (m : Memory) (start : Nat) : Nat → Except AddressFault (List String)
  | 0 => .ok []
  | count + 1 => do
    let w ← m.read start
    let rest ← m.cellLines (start + 1) count
    return cellLine start w :: rest

def listingHead : String := "# Toy Disassembly\n# ---------------\n\n"

/-- The listing of the cells from `start` up to `stop`. -/
def disassembly (m : Memory) (start stop : Nat) : Except AddressFault String := do
  let body ← m.cellLines start (stop - start)
  return listingHead ++ String.join body

end Memory

end AccumulatorMachine
