import AccumulatorMachine.Proofs.Assembly.LetterCase
import AccumulatorMachine.Proofs.Text.Decimal

/-! # Number literals

A number is written in three parts: a minus sign or none, the mark of a base or none, and digits of
that base. `Literal` is a text in these parts, `Literal.Denotes` says which number it stands for, and
`literals_exact` that reading finds that number and no other.

Reading adds up the digits without a bound and compares with the bound in the end. A reader in
integers of 64 bits has to look for an overflow at each digit, and finds the same
(`numeral64From_eq`): digits only make a number greater, so what overflows on the way is out of
bounds in the end.
-/

namespace AccumulatorMachine.Assembly
set_option autoImplicit false
open Text

/-! ## The parts of a literal -/

/-- What names the base of the digits after it. Decimal digits have no mark. -/
inductive Mark
  | decimal
  | dollar
  | smallX
  | capitalX
  | smallB
  | capitalB
deriving DecidableEq

namespace Mark

def text : Mark → List Char
  | decimal => []
  | dollar => ['$']
  | smallX => ['0', 'x']
  | capitalX => ['0', 'X']
  | smallB => ['0', 'b']
  | capitalB => ['0', 'B']

def base : Mark → Nat
  | decimal => 10
  | dollar | smallX | capitalX => 16
  | smallB | capitalB => 2

theorem one_lt_base (m : Mark) : 1 < m.base := by cases m <;> decide

theorem base_le (m : Mark) : m.base ≤ 16 := by cases m <;> decide

theorem isMagnitude {m : Mark} {digits : List Char} {n : Nat} (h : IsNumeral m.base digits n) :
    IsMagnitude (m.text ++ digits) n := by
  cases m with
  | decimal => exact .decimal h
  | dollar => exact .dollar h
  | smallX => exact .hex (.inl rfl) h
  | capitalX => exact .hex (.inr rfl) h
  | smallB => exact .binary (.inl rfl) h
  | capitalB => exact .binary (.inr rfl) h

end Mark

structure Literal where
  negative : Bool
  mark : Mark
  digits : List Char

namespace Literal

def text (l : Literal) : List Char :=
  (if l.negative then ['-'] else []) ++ (l.mark.text ++ l.digits)

def signed (l : Literal) (n : Nat) : Int := if l.negative then -n else n

/-- The digits are one or more of the base, and `v` is their value with the sign. -/
def Denotes (l : Literal) (v : Int) : Prop :=
  ∃ n, IsNumeral l.mark.base l.digits n ∧ n ≤ 2 ^ 63 - 1 ∧ v = l.signed n

/-- What `v` is printed as in the base of `mark`, with zeros before its digits. -/
def printed (mark : Mark) (zeros : Nat) (v : Int) : Literal where
  negative := v < 0
  mark := mark
  digits := List.replicate zeros '0' ++ Nat.toDigits mark.base v.natAbs

variable {l : Literal} {v : Int}

theorem lt_magnitudeLimit_iff {n : Nat} : n < magnitudeLimit ↔ n ≤ 2 ^ 63 - 1 := by
  rw [magnitudeLimit]
  omega

theorem Denotes.isNumber (h : l.Denotes v) : IsNumber l.text v := by
  obtain ⟨n, hn, hle, rfl⟩ := h
  have hlt := lt_magnitudeLimit_iff.2 hle
  cases hsign : l.negative with
  | false =>
    rw [text, signed, hsign]
    exact .plain (Mark.isMagnitude hn) hlt
  | true =>
    rw [text, signed, hsign]
    exact .minus (Mark.isMagnitude hn) hlt

theorem denotes_printed (mark : Mark) (zeros : Nat) (h : v.natAbs ≤ 2 ^ 63 - 1) :
    (printed mark zeros v).Denotes v := by
  have hbase := mark.one_lt_base
  have hdigits := isNumeral_toDigits hbase mark.base_le v.natAbs
  refine ⟨v.natAbs, hdigits.zeros (by omega) zeros, h, ?_⟩
  simp only [signed, printed, decide_eq_true_eq]
  split <;> omega

/-! ## Cutting a text into the parts of a literal -/

def cutSign : List Char → Bool × List Char
  | '-' :: cs => (true, cs)
  | cs => (false, cs)

def cutMark : List Char → Mark × List Char
  | '$' :: cs => (.dollar, cs)
  | '0' :: 'x' :: cs => (.smallX, cs)
  | '0' :: 'X' :: cs => (.capitalX, cs)
  | '0' :: 'b' :: cs => (.smallB, cs)
  | '0' :: 'B' :: cs => (.capitalB, cs)
  | cs => (.decimal, cs)

/-- The parts in which `cs` is read, whether they make a number or not. -/
def cut (cs : List Char) : Literal where
  negative := (cutSign cs).1
  mark := (cutMark (cutSign cs).2).1
  digits := (cutMark (cutSign cs).2).2

theorem text_cutMark (cs : List Char) : (cutMark cs).1.text ++ (cutMark cs).2 = cs := by
  unfold cutMark
  split <;> rfl

theorem text_cut (cs : List Char) : (cut cs).text = cs := by
  rw [text, cut, text_cutMark]
  unfold cutSign
  split <;> rfl

theorem readDigits_eq (cs : List Char) :
    readDigits cs = numeral? (cutMark cs).1.base (cutMark cs).2 := by
  fun_cases cutMark cs with
  | case6 => rw [readDigits, Mark.base] <;> assumption
  | _ => rfl

theorem readNumber_eq (cs : List Char) :
    readNumber cs = (readMagnitude (cutSign cs).2).map (cut cs).signed := by
  unfold signed cut
  fun_cases cutSign cs with
  | case1 => rfl
  | case2 cs hminus =>
    rw [readNumber]
    · rfl
    · exact hminus

theorem readNumber_eq_numeral (cs : List Char) : readNumber cs =
    ((numeral? (cut cs).mark.base (cut cs).digits).filter (· < magnitudeLimit)).map
      (cut cs).signed := by
  rw [readNumber_eq, readMagnitude, readDigits_eq]
  rfl

theorem denotes_cut {cs : List Char} (h : readNumber cs = some v) : (cut cs).Denotes v := by
  rw [readNumber_eq_numeral] at h
  obtain ⟨n, hn, rfl⟩ := Option.map_eq_some_iff.1 h
  rw [Option.filter_eq_some_iff, decide_eq_true_eq,
    numeral?_eq_some_iff ((cut cs).mark.base_le.trans (by decide))] at hn
  exact ⟨n, hn.1, lt_magnitudeLimit_iff.1 hn.2, rfl⟩

theorem readNumber_eq_some_iff_denotes {cs : List Char} :
    readNumber cs = some v ↔ ∃ l : Literal, l.text = cs ∧ l.Denotes v := by
  constructor
  · intro h
    exact ⟨cut cs, text_cut cs, denotes_cut h⟩
  · rintro ⟨l, rfl, h⟩
    exact readNumber_eq_some_iff.2 h.isNumber

/-! ## Integers of 64 bits -/

/-- The product, unless it overflows. -/
def mul64? (a b : Int64) : Option Int64 :=
  if a.toBitVec.smulOverflow b.toBitVec then none else some (a * b)

/-- The sum, unless it overflows. -/
def add64? (a b : Int64) : Option Int64 :=
  if a.toBitVec.saddOverflow b.toBitVec then none else some (a + b)

/-- What one more digit makes of `high`. -/
def next64? (base : Nat) (high : Int64) (d : Nat) : Option Int64 :=
  (mul64? (.ofNat base) high).bind fun shifted => add64? shifted (.ofNat d)

/-- The number that `cs` continues, its digits so far having the value `high`. The first overflow
is the end of it. -/
def numeral64From (base : Nat) (high : Int64) : List Char → Option Int64
  | [] => some high
  | c :: cs =>
    (digitIn base c).bind fun d =>
      (next64? base high d).bind fun next => numeral64From base next cs

def magnitude64? (l : Literal) : Option Int64 :=
  if l.digits.isEmpty then none else numeral64From l.mark.base 0 l.digits

/-- The number that the literal stands for, if there is one. A minus sign negates the magnitude in
64 bits. -/
def number64? (l : Literal) : Option Int64 :=
  l.magnitude64?.map fun n => if l.negative then -n else n

/-- The test for an overflow, of a result that is not negative. -/
theorem overflows_iff (n : Nat) :
    (decide ((n : Int) ≥ 2 ^ (64 - 1)) || decide ((n : Int) < -2 ^ (64 - 1))) = true ↔
      ¬n < magnitudeLimit := by
  rw [Bool.or_eq_true, decide_eq_true_eq, decide_eq_true_eq, magnitudeLimit]
  omega

section
variable {a b : Nat} (ha : a < magnitudeLimit) (hb : b < magnitudeLimit)
include ha hb

theorem mul64?_ofNat : mul64? (.ofNat a) (.ofNat b) =
    if a * b < magnitudeLimit then some (.ofNat (a * b)) else none := by
  rw [mul64?, BitVec.smulOverflow, Int64.toInt_toBitVec, Int64.toInt_toBitVec,
    Int64.toInt_ofNat_of_lt ha, Int64.toInt_ofNat_of_lt hb, ← Int.natCast_mul]
  simp only [overflows_iff, ite_not, Int64.ofNat_mul]

theorem add64?_ofNat : add64? (.ofNat a) (.ofNat b) =
    if a + b < magnitudeLimit then some (.ofNat (a + b)) else none := by
  rw [add64?, BitVec.saddOverflow, Int64.toInt_toBitVec, Int64.toInt_toBitVec,
    Int64.toInt_ofNat_of_lt ha, Int64.toInt_ofNat_of_lt hb, ← Int.natCast_add]
  simp only [overflows_iff, ite_not, Int64.ofNat_add]

end

theorem next64?_ofNat {base high d : Nat} (hb : base < magnitudeLimit)
    (hhigh : high < magnitudeLimit) (hd : d < magnitudeLimit) :
    next64? base (.ofNat high) d =
      if base * high + d < magnitudeLimit then some (.ofNat (base * high + d)) else none := by
  rw [next64?, mul64?_ofNat hb hhigh]
  by_cases hmul : base * high < magnitudeLimit
  · rw [if_pos hmul, Option.bind_some, add64?_ofNat hmul hd]
  · rw [if_neg hmul, if_neg (by omega), Option.bind_none]

/-- More digits make no number less. -/
theorem le_of_numeralFrom {base high n : Nat} {cs : List Char} (hb : 0 < base)
    (h : numeralFrom base high cs = some n) : high ≤ n := by
  induction cs generalizing high with
  | nil => exact (Option.some.inj h).le
  | cons c cs ih =>
    obtain ⟨d, -, hrest⟩ := Option.bind_eq_some_iff.1 h
    have hle : high ≤ base * high := Nat.le_mul_of_pos_left high hb
    exact (hle.trans (Nat.le_add_right _ d)).trans (ih hrest)

/-- Reading in 64 bits finds the number if it is below the limit, and nothing otherwise. -/
theorem numeral64From_eq {base high : Nat} (hb : 0 < base) (hb' : base < magnitudeLimit)
    (hhigh : high < magnitudeLimit) (cs : List Char) :
    numeral64From base (.ofNat high) cs =
      ((numeralFrom base high cs).filter (· < magnitudeLimit)).map Int64.ofNat := by
  induction cs generalizing high with
  | nil => simp [numeral64From, numeralFrom, hhigh]
  | cons c cs ih =>
    rw [numeral64From, numeralFrom]
    cases hc : digitIn base c with
    | none => rfl
    | some d =>
      have hd : d < base := of_decide_eq_true (Option.filter_eq_some_iff.1 hc).2
      rw [Option.bind_some, Option.bind_some, next64?_ofNat hb' hhigh (hd.trans hb')]
      by_cases hnext : base * high + d < magnitudeLimit
      · rw [if_pos hnext, Option.bind_some, ih hnext]
      · have hnone : (numeralFrom base (base * high + d) cs).filter (· < magnitudeLimit) = none := by
          rw [Option.filter_eq_none_iff]
          intro n hn
          have hle := le_of_numeralFrom hb hn
          rw [decide_eq_true_eq]
          omega
        rw [if_neg hnext, hnone]
        rfl

theorem magnitude64?_eq (l : Literal) : l.magnitude64? =
    ((numeral? l.mark.base l.digits).filter (· < magnitudeLimit)).map Int64.ofNat := by
  have hbase := l.mark.one_lt_base
  have hbase' : l.mark.base < magnitudeLimit := l.mark.base_le.trans_lt (by decide)
  rw [magnitude64?, numeral?]
  cases l.digits.isEmpty with
  | true => rfl
  | false => exact numeral64From_eq (by omega) hbase' (by decide) l.digits

/-- The one integer of 64 bits without a negative is below zero, so it is no magnitude. -/
theorem negOverflow_of_magnitude64? {w : Int64} (h : l.magnitude64? = some w) :
    w.toBitVec.negOverflow = false := by
  rw [magnitude64?_eq, Option.map_eq_some_iff] at h
  obtain ⟨n, hn, rfl⟩ := h
  have hlt : n < magnitudeLimit := of_decide_eq_true (Option.filter_eq_some_iff.1 hn).2
  rw [BitVec.negOverflow, Int64.toInt_toBitVec, Int64.toInt_ofNat_of_lt hlt, beq_eq_false_iff_ne]
  omega

theorem readNumber_eq_number64? (cs : List Char) :
    readNumber cs = (cut cs).number64?.map Int64.toInt := by
  rw [readNumber_eq_numeral, number64?, magnitude64?_eq, Option.map_map, Option.map_map]
  refine Option.map_congr fun n hn => ?_
  have hlt : n < magnitudeLimit := of_decide_eq_true (Option.filter_eq_some_iff.1 hn).2
  simp only [signed, Function.comp_apply]
  split
  · exact (Int64.toInt_neg_ofNat_of_le hlt.le).symm
  · exact (Int64.toInt_ofNat_of_lt hlt).symm

end Literal

/-! ## Exactness -/

/-- **Reading a number is exact.** A text is read as `v` just if it is a literal for `v`: a minus sign
or none, the mark of a base or none, and digits with a value up to `2 ^ 63 - 1`. Reading in integers
of 64 bits finds the same, and negates no magnitude with an overflow. What `v` is printed as is read
as `v`, whatever the mark of the base, the zeros before the digits and the case of letters. No number
is a name. -/
theorem literals_exact (cs : List Char) :
    (∀ v, readNumber cs = some v ↔ ∃ l : Literal, l.text = cs ∧ l.Denotes v) ∧
    readNumber cs = (Literal.cut cs).number64?.map Int64.toInt ∧
    (∀ n, (Literal.cut cs).magnitude64? = some n → n.toBitVec.negOverflow = false) ∧
    (∀ (mark : Mark) (zeros : Nat) (v : Int), v.natAbs ≤ 2 ^ 63 - 1 →
      capitals cs = capitals (Literal.printed mark zeros v).text → readNumber cs = some v) ∧
    ∀ v, readNumber cs = some v → readName cs = none := by
  refine ⟨fun v => Literal.readNumber_eq_some_iff_denotes, Literal.readNumber_eq_number64? cs,
    fun n => Literal.negOverflow_of_magnitude64?, ?_, ?_⟩
  · intro mark zeros v hv hcs
    rw [← readNumber_capitals, hcs, readNumber_capitals]
    exact Literal.readNumber_eq_some_iff_denotes.2 ⟨_, rfl, Literal.denotes_printed mark zeros hv⟩
  · intro v hv
    refine Option.eq_none_iff_forall_ne_some.2 fun s hs => ?_
    exact (readNumber_eq_some_iff.1 hv).not_isName s (readName_eq_some_iff.1 hs)

example : readNumber "-0x7fffFFFFffffFFFF".toList = some (-9223372036854775807) := by decide

/-- The least integer of 64 bits has no literal. -/
example : readNumber "-9223372036854775808".toList = none := by decide

end AccumulatorMachine.Assembly
