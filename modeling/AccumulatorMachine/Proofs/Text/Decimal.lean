import AccumulatorMachine.Proofs.Assembly.Token
import AccumulatorMachine.Text.Column

/-! # Printed numerals

The digits of a number in a base up to sixteen are a numeral for it (`isNumeral_toDigits`), and stay
one with zeros before them (`IsNumeral.zeros`). So the decimal digits of a number are a numeral
(`isNumeral_toString`, `isNumeral_decimal4`), and those of an integer are a number
(`isNumber_toString`).
-/

namespace AccumulatorMachine.Text
set_option autoImplicit false

theorem isDigit_digitChar {base d : Nat} (hb : base ≤ 16) (h : d < base) :
    IsDigit base d.digitChar d :=
  ⟨h, .inr ((by decide : ∀ d < 16, d.digitChar = lowerDigit d) d (by omega))⟩

theorem IsDigit.isNumeral {base d : Nat} {c : Char} (h : IsDigit base c d) : IsNumeral base [c] d :=
  ⟨List.cons_ne_nil c [], [d], .cons h .nil, (Nat.ofDigits_singleton).symm⟩

theorem IsNumeral.concat {base n d : Nat} {cs : List Char} {c : Char} (h : IsNumeral base cs n)
    (hd : IsDigit base c d) : IsNumeral base (cs ++ [c]) (base * n + d) := by
  obtain ⟨-, ds, hds, rfl⟩ := h
  refine ⟨by simp, ds ++ [d], List.rel_append hds (.cons hd .nil), ?_⟩
  rw [List.reverse_concat, Nat.ofDigits_cons, Nat.add_comm]

theorem IsNumeral.zeros {base n : Nat} {cs : List Char} (hb : 0 < base) (h : IsNumeral base cs n)
    (k : Nat) : IsNumeral base (List.replicate k '0' ++ cs) n := by
  induction k with
  | zero => exact h
  | succ k ih =>
    obtain ⟨-, ds, hds, hn⟩ := ih
    refine ⟨by simp [List.replicate_succ], 0 :: ds, .cons ⟨hb, .inl rfl⟩ hds, ?_⟩
    rw [List.reverse_cons, Nat.ofDigits_append, Nat.ofDigits_singleton, Nat.mul_zero, Nat.add_zero,
      hn]

theorem isNumeral_toDigits {base : Nat} (hb : 1 < base) (hb' : base ≤ 16) (n : Nat) :
    IsNumeral base (Nat.toDigits base n) n := by
  induction n using Nat.strong_induction_on with
  | _ n ih =>
    rw [Nat.toDigits_eq_if hb]
    by_cases h : n < base
    · rw [if_pos h]
      exact (isDigit_digitChar hb' h).isNumeral
    · rw [if_neg h]
      have hhigh := ih (n / base) (Nat.div_lt_self (by omega) hb)
      have hlast := hhigh.concat (isDigit_digitChar hb' (Nat.mod_lt n (by omega)))
      rwa [Nat.div_add_mod] at hlast

theorem isNumeral_toString (n : Nat) : IsNumeral 10 (toString n).toList n := by
  have htext : (toString n).toList = Nat.toDigits 10 n := Nat.toList_repr
  rw [htext]
  exact isNumeral_toDigits (by decide) (by decide) n

theorem numeral?_toString (n : Nat) : numeral? 10 (toString n).toList = some n :=
  (numeral?_eq_some_iff (by decide)).2 (isNumeral_toString n)

/-- No zero stands before the digits of a number. -/
theorem head?_toString {n : Nat} (h : 0 < n) : (toString n).toList.head? ≠ some '0' := by
  have htext : (toString n).toList = Nat.toDigits 10 n := Nat.toList_repr
  rw [htext]
  induction n using Nat.strong_induction_on with
  | _ n ih =>
    rw [Nat.toDigits_eq_if (by decide)]
    by_cases hn : n < 10
    · rw [if_pos hn]
      exact (by decide : ∀ d < 10, 0 < d → [d.digitChar].head? ≠ some '0') n hn h
    · have hhigh : IsNumeral 10 (Nat.toDigits 10 (n / 10)) (n / 10) :=
        isNumeral_toDigits (by decide) (by decide) (n / 10)
      rw [if_neg hn, List.head?_append_of_ne_nil _ hhigh.1]
      exact ih (n / 10) (by omega) (by omega) Nat.toList_repr

theorem isNumeral_decimal4 (n : Nat) : IsNumeral 10 (decimal4 n).toList n := by
  rw [decimal4, padStart, String.toList_ofList, List.leftpad]
  exact (isNumeral_toString n).zeros (by decide) _

section
variable {c : Char} (h : ¬(48 ≤ c.toNat ∧ c.toNat ≤ 57)) (n : Nat)
include h

theorem not_mem_toString : c ∉ (toString n).toList := fun hc =>
  Assembly.not_isNumeral_of_mem hc h (isNumeral_toString n)

theorem not_mem_decimal4 : c ∉ (decimal4 n).toList := fun hc =>
  Assembly.not_isNumeral_of_mem hc h (isNumeral_decimal4 n)

end

/-- The decimal digits of an integer, with a minus sign if it is negative, are a number. -/
theorem isNumber_toString {v : Int} (h : v.natAbs < Assembly.magnitudeLimit) :
    Assembly.IsNumber (toString v).toList v := by
  cases v with
  | ofNat n => exact .plain (.decimal (isNumeral_toString n)) h
  | negSucc n =>
    have htext : (toString (Int.negSucc n)).toList = '-' :: (toString (n + 1)).toList := by
      show ("-" ++ toString (n + 1)).toList = _
      rw [String.toList_append]
      rfl
    rw [htext]
    exact .minus (.decimal (isNumeral_toString (n + 1))) h

end AccumulatorMachine.Text
