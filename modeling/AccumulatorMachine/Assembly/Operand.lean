import AccumulatorMachine.Text.Blank
import AccumulatorMachine.Text.Digits

/-! # Operands

An operand of assembly text is a number or a name. A number is an optional minus sign and a
magnitude: hexadecimal digits after `$` or `0x`, binary digits after `0b`, or decimal digits, with
a value below 2^63. A name starts with a letter or an underscore, goes on with letters, digits and
underscores, and is the same in letters of either case. Letters and digits are those of ASCII.
-/

namespace AccumulatorMachine.Assembly
set_option autoImplicit false
open Text

/-- A number, or a name that stands for one. The name is in capital letters. -/
inductive Operand
  | number (value : Int)
  | name (name : String)
deriving DecidableEq

/-- The first magnitude that a number cannot have, 2^63. -/
def magnitudeLimit : Nat := 0x8000000000000000

/-- The number that digits write, with the mark of their base before them. -/
def readDigits : List Char → Option Nat
  | '$' :: cs => numeral? 16 cs
  | '0' :: 'x' :: cs => numeral? 16 cs
  | '0' :: 'X' :: cs => numeral? 16 cs
  | '0' :: 'b' :: cs => numeral? 2 cs
  | '0' :: 'B' :: cs => numeral? 2 cs
  | cs => numeral? 10 cs

def readMagnitude (cs : List Char) : Option Nat := (readDigits cs).filter (· < magnitudeLimit)

def readNumber : List Char → Option Int
  | '-' :: cs => (readMagnitude cs).map fun n : Nat => -(n : Int)
  | cs => (readMagnitude cs).map fun n : Nat => (n : Int)

def startsName (c : Char) : Bool := c.isAlpha || c == '_'

def continuesName (c : Char) : Bool := c.isAlphanum || c == '_'

/-- The name that a token writes, in capital letters. -/
def readName : List Char → Option String
  | [] => none
  | c :: cs =>
    if startsName c && cs.all continuesName then some (String.ofList ((c :: cs).map Char.toUpper))
    else none

def readOperand (cs : List Char) : Option Operand :=
  match readNumber cs with
  | some n => some (.number n)
  | none => (readName cs).map .name

end AccumulatorMachine.Assembly
