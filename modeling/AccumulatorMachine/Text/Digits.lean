/-! # Digits

Reading and writing of natural numbers in a base up to 36. Reading takes letters of either case;
writing of a fixed width (`fixedDigits`) keeps the leading zeros, so the text of a word has the
same length whatever its value.
-/

namespace AccumulatorMachine.Text
set_option autoImplicit false

/-! ## Reading -/

/-- The value of a digit: `0` to `9`, then the letters of the Latin alphabet from ten on. -/
def digitValue (c : Char) : Option Nat :=
  if '0' ≤ c ∧ c ≤ '9' then some (c.toNat - '0'.toNat)
  else if 'a' ≤ c ∧ c ≤ 'z' then some (c.toNat - 'a'.toNat + 10)
  else if 'A' ≤ c ∧ c ≤ 'Z' then some (c.toNat - 'A'.toNat + 10)
  else none

/-- The value of `c` as a digit of `base`. -/
def digitIn (base : Nat) (c : Char) : Option Nat :=
  (digitValue c).filter (· < base)

/-- The number that `cs` continues, its digits so far having the value `high`. -/
def numeralFrom (base high : Nat) : List Char → Option Nat
  | [] => some high
  | c :: cs => (digitIn base c).bind fun d => numeralFrom base (base * high + d) cs

/-- The number that `cs` writes in `base`: one digit or more and nothing else. -/
def numeral? (base : Nat) (cs : List Char) : Option Nat :=
  if cs.isEmpty then none else numeralFrom base 0 cs

/-! ## Writing -/

/-- The character of a digit, with capital letters from ten on. -/
def upperDigit (d : Nat) : Char := if d < 10 then Char.ofNat (48 + d) else Char.ofNat (55 + d)

/-- The character of a digit, with small letters from ten on. -/
def lowerDigit (d : Nat) : Char := if d < 10 then Char.ofNat (48 + d) else Char.ofNat (87 + d)

/-- The last `width` digits of `n` in `base`, each written by `digit`. -/
def fixedDigits (digit : Nat → Char) (base : Nat) : Nat → Nat → List Char
  | 0, _ => []
  | width + 1, n => fixedDigits digit base width (n / base) ++ [digit (n % base)]

end AccumulatorMachine.Text
