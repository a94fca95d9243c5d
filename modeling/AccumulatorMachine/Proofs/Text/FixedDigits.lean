import AccumulatorMachine.Proofs.Assembly.Token

/-! # Digits of a fixed width

What is written in digits of a fixed width is read back, up to the digits that the width cuts off
(`numeralFrom_fixedDigits`), and has the length of the width.
-/

namespace AccumulatorMachine.Text
set_option autoImplicit false

theorem digitIn_upperDigit {base d : Nat} (hd : d < base) (hb : base ≤ 36) :
    digitIn base (upperDigit d) = some d :=
  (digitIn_eq_some_iff hb).2 ⟨hd, .inl rfl⟩

theorem numeralFrom_append (base high : Nat) (cs ds : List Char) :
    numeralFrom base high (cs ++ ds) =
      (numeralFrom base high cs).bind fun n => numeralFrom base n ds := by
  induction cs generalizing high with
  | nil => rfl
  | cons c cs ih => cases h : digitIn base c <;> simp [numeralFrom, h, ih]

@[simp] theorem length_fixedDigits (digit : Nat → Char) (base width n : Nat) :
    (fixedDigits digit base width n).length = width := by
  induction width generalizing n with
  | zero => rfl
  | succ width ih => simp [fixedDigits, ih]

theorem numeralFrom_fixedDigits {digit : Nat → Char} {base : Nat} (hb : 0 < base)
    (hdigit : ∀ d < base, digitIn base (digit d) = some d) (width n high : Nat) :
    numeralFrom base high (fixedDigits digit base width n) =
      some (high * base ^ width + n % base ^ width) := by
  induction width generalizing n with
  | zero => simp [fixedDigits, numeralFrom, Nat.mod_one]
  | succ width ih =>
    have hlast := hdigit (n % base) (Nat.mod_lt n hb)
    rw [fixedDigits, numeralFrom_append, ih]
    simp only [Option.bind_some, numeralFrom, hlast, Option.some.injEq]
    rw [Nat.pow_succ', Nat.mod_mul, Nat.mul_add, Nat.mul_left_comm, Nat.add_assoc]
    omega

end AccumulatorMachine.Text
