/-! # Columns

Filling a text up to the width of a column. A text that is already as wide stays as it is, and
widths count characters.
-/

namespace AccumulatorMachine.Text
set_option autoImplicit false

/-- `s` at the right end of a column, with `fill` before it. -/
def padStart (fill : Char) (width : Nat) (s : String) : String :=
  String.ofList (s.toList.leftpad width fill)

/-- `s` at the left end of a column, with `fill` after it. -/
def padEnd (fill : Char) (width : Nat) (s : String) : String :=
  String.ofList (s.toList.rightpad width fill)

/-- `s` in the middle of a column of blanks; of an odd number of blanks the larger half follows. -/
def centre (width : Nat) (s : String) : String :=
  let before := (width - s.length) / 2
  padEnd ' ' width (padStart ' ' (s.length + before) s)

/-- `n` in decimal digits, filled with zeros to four. -/
def decimal4 (n : Nat) : String := padStart '0' 4 (toString n)

end AccumulatorMachine.Text
