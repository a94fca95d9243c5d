import AccumulatorMachine.Assembly.Operand
import AccumulatorMachine.Instruction.Basic

/-! # Lines of assembly text

What one line of a source says. The part before the first `#` counts, without blanks at its ends.
If it starts with a colon it is a data directive; else if it holds an equals sign it is the
definition of a constant; else if it holds a colon it is a label, which an instruction may follow;
else it is an instruction.

    :ADDRESS:VALUE      a word of data
    NAME = OPERAND      a constant
    LABEL: INSTRUCTION  a label for the next instruction
    MNEMONIC OPERAND    an instruction with an operand
    MNEMONIC            an instruction without
-/

namespace AccumulatorMachine.Assembly
set_option autoImplicit false
open Text

/-- An instruction as it is written. There is an operand exactly if the kind has an address. -/
structure Command where
  kind : Kind
  operand : Option Operand
deriving DecidableEq

/-- What a line says. -/
inductive Line
  | blank
  | data (address value : Operand)
  | constant (name : String) (value : Operand)
  | label (name : String) (command : Option Command)
  | command (command : Command)
deriving DecidableEq

/-- The part of a line that counts. -/
def code (line : List Char) : List Char := trim (line.takeWhile (· ≠ '#'))

/-- The instruction that a text without blanks at its ends writes. -/
def readCommand (cs : List Char) : Option Command := do
  let kind ← Kind.ofMnemonic? (String.ofList (cs.takeWhile (!isBlank ·)))
  let rest := trim (cs.dropWhile (!isBlank ·))
  if kind.hasAddress then
    let operand ← readOperand rest
    return ⟨kind, some operand⟩
  else if rest.isEmpty then return ⟨kind, none⟩
  else none

/-- The data directive whose first colon has been read. -/
def readData (cs : List Char) : Option Line := do
  let (address, value) ← cutAt ':' cs
  return .data (← readOperand (trim address)) (← readOperand (trim value))

/-- The definition of a constant, cut at its equals sign. -/
def readConstant (name value : List Char) : Option Line := do
  return .constant (← readName (trim name)) (← readOperand (trim value))

/-- The label and what follows it, cut at the colon. -/
def readLabel (name rest : List Char) : Option Line := do
  let name ← readName (trim name)
  match trim rest with
  | [] => return .label name none
  | cs => return .label name (some (← readCommand cs))

/-- What the part of a line that counts says, if it has one of the forms. -/
def readCode (cs : List Char) : Option Line :=
  match cs with
  | [] => some .blank
  | ':' :: rest => readData rest
  | _ =>
    match cutAt '=' cs with
    | some (name, value) => readConstant name value
    | none =>
      match cutAt ':' cs with
      | some (name, rest) => readLabel name rest
      | none => (readCommand cs).map .command

def readLine (line : List Char) : Option Line := readCode (code line)

end AccumulatorMachine.Assembly
