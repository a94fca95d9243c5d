import AccumulatorMachine.Proofs.Text.FixedDigits
import AccumulatorMachine.Word
import Mathlib.Algebra.Group.Nat.Defs

/-! # The forms of a word

Each form in which a word is shown is read as that word and as no other: four hexadecimal digits
(`isHex_iff`), sixteen binary ones (`isBinary_iff`), two bytes (`isBytes_iff`), and the number in
two's complement (`isSigned_iff`).
-/

namespace AccumulatorMachine
set_option autoImplicit false
open Text

namespace Text

theorem isNumeral_fixedDigits {base width n : Nat} (hb : 0 < base) (hb' : base ≤ 36)
    (hw : 0 < width) (hn : n < base ^ width) :
    IsNumeral base (fixedDigits upperDigit base width n) n := by
  have hdigit : ∀ d < base, digitIn base (upperDigit d) = some d := fun d hd =>
    digitIn_upperDigit hd hb'
  have hne : (fixedDigits upperDigit base width n).isEmpty = false := by
    rw [← Bool.not_eq_true, List.isEmpty_iff_length_eq_zero, length_fixedDigits]
    omega
  rw [← numeral?_eq_some_iff hb', numeral?, hne, if_neg Bool.false_ne_true,
    numeralFrom_fixedDigits hb hdigit, Nat.mod_eq_of_lt hn, Nat.zero_mul, Nat.zero_add]

theorem isNumeral_fixedDigits_iff {base width m n : Nat} (hb : 0 < base) (hb' : base ≤ 36)
    (hw : 0 < width) (hm : m < base ^ width) :
    IsNumeral base (fixedDigits upperDigit base width m) n ↔ n = m := by
  have hread := isNumeral_fixedDigits hb hb' hw hm
  refine ⟨fun h => ?_, fun h => h ▸ hread⟩
  rw [← numeral?_eq_some_iff hb'] at h hread
  exact Option.some.inj (h.symm.trans hread)

end Text

namespace Word
variable {v w : Word}

/-- `cs` is four hexadecimal digits that write `w`. -/
def IsHex (cs : List Char) (w : Word) : Prop := cs.length = 4 ∧ IsNumeral 16 cs w.toNat

/-- `cs` is sixteen binary digits that write `w`. -/
def IsBinary (cs : List Char) (w : Word) : Prop := cs.length = 16 ∧ IsNumeral 2 cs w.toNat

/-- `cs` is the high and the low byte of `w`, each in two hexadecimal digits. -/
def IsBytes (cs : List Char) (w : Word) : Prop :=
  ∃ high low, cs = high ++ ' ' :: low ∧ high.length = 2 ∧ low.length = 2 ∧
    IsNumeral 16 high (w.toNat / 256) ∧ IsNumeral 16 low (w.toNat % 256)

/-- `n` is `w` in two's complement. -/
def IsSigned (n : Int) (w : Word) : Prop := -32768 ≤ n ∧ n < 32768 ∧ n % 65536 = w.toNat

theorem isHex_iff : IsHex v.hex.toList w ↔ w = v := by
  have hv : v.toNat < 65536 := v.toNat_lt
  rw [IsHex, hex, String.toList_ofList, length_fixedDigits,
    isNumeral_fixedDigits_iff (by decide) (by decide) (by decide) hv, UInt16.toNat_inj]
  exact and_iff_right rfl

theorem hex_injective (h : v.hex = w.hex) : v = w := by
  have hread : IsHex w.hex.toList v := h ▸ isHex_iff.2 rfl
  exact isHex_iff.1 hread

theorem isBinary_iff : IsBinary v.binary.toList w ↔ w = v := by
  have hv : v.toNat < 65536 := v.toNat_lt
  rw [IsBinary, binary, String.toList_ofList, length_fixedDigits,
    isNumeral_fixedDigits_iff (by decide) (by decide) (by decide) hv, UInt16.toNat_inj]
  exact and_iff_right rfl

theorem isBytes_iff : IsBytes v.bytes.toList w ↔ w = v := by
  have hv : v.toNat < 65536 := v.toNat_lt
  have hbyte {m n : Nat} (hm : m < 256) :
      IsNumeral 16 (fixedDigits upperDigit 16 2 m) n ↔ n = m :=
    isNumeral_fixedDigits_iff (by decide) (by decide) (by decide) hm
  have hhigh : v.toNat / 256 < 256 := by omega
  have hlow : v.toNat % 256 < 256 := by omega
  have htext : v.bytes.toList = fixedDigits upperDigit 16 2 (v.toNat / 256) ++
      ' ' :: fixedDigits upperDigit 16 2 (v.toNat % 256) := by
    simp [bytes, String.toList_append]
  rw [IsBytes, htext]
  constructor
  · rintro ⟨high, low, heq, hlength, -, h, h'⟩
    -- the bytes have a fixed width, so there is one place for the blank
    obtain ⟨rfl, hrest⟩ := List.append_inj heq (by rw [length_fixedDigits, hlength])
    obtain ⟨-, rfl⟩ := List.cons.inj hrest
    rw [hbyte hhigh] at h
    rw [hbyte hlow] at h'
    apply UInt16.toNat_inj.1
    omega
  · rintro rfl
    exact ⟨_, _, rfl, length_fixedDigits .., length_fixedDigits .., (hbyte hhigh).2 rfl,
      (hbyte hlow).2 rfl⟩

theorem isSigned_iff : IsSigned v.signed w ↔ w = v := by
  have hv : v.toNat < 65536 := v.toNat_lt
  have hw : w.toNat < 65536 := w.toNat_lt
  have hsigned : v.signed = if 2 * v.toNat < 65536 then (v.toNat : Int) else v.toNat - 65536 := by
    rw [signed, ← Int16.toInt_toBitVec, UInt16.toBitVec_toInt16, BitVec.toInt_eq_toNat_cond,
      UInt16.toNat_toBitVec]
    rfl
  have hinj : w = v ↔ w.toNat = v.toNat := UInt16.toNat_inj.symm
  rw [IsSigned, hsigned, hinj]
  split <;> omega

end Word
end AccumulatorMachine
