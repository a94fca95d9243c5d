import AccumulatorMachine.Text.Column
import AccumulatorMachine.Text.Digits

/-! # Words

A word is 16 bits: the contents of a memory cell and of the accumulator. Here are the forms in
which listings, tables and screens show one.
-/

namespace AccumulatorMachine
set_option autoImplicit false

/-- The unit of memory, 16 bits. -/
abbrev Word := UInt16

namespace Word
open Text

/-- The sixteen binary digits of `w`. -/
def binary (w : Word) : String := String.ofList (fixedDigits upperDigit 2 16 w.toNat)

/-- The four hexadecimal digits of `w`, with capital letters. -/
def hex (w : Word) : String := String.ofList (fixedDigits upperDigit 16 4 w.toNat)

/-- The four hexadecimal digits of `w`, with small letters. -/
def lowerHex (w : Word) : String := String.ofList (fixedDigits lowerDigit 16 4 w.toNat)

/-- The high and the low byte of `w`, two hexadecimal digits each. -/
def bytes (w : Word) : String :=
  String.ofList (fixedDigits upperDigit 16 2 (w.toNat / 256)) ++ " " ++
    String.ofList (fixedDigits upperDigit 16 2 (w.toNat % 256))

/-- The number that `w` stands for in two's complement. -/
def signed (w : Word) : Int := w.toInt16.toInt

end Word

end AccumulatorMachine
