import AccumulatorMachine.Assembly.Operand
import Mathlib.Data.List.Forall2
import Mathlib.Data.Nat.Digits.Defs

/-! # The grammar of tokens

Numbers, names and operands as relations between a text and what it writes, and for each of them
the theorem that its reader finds exactly what the relation allows. A text writes at most one
operand, since no number is a name (`IsNumber.not_isName`).
-/

namespace AccumulatorMachine.Text
set_option autoImplicit false

/-! ## Characters by their code points -/

theorem le_iff_toNat_le {a b : Char} : a ≤ b ↔ a.toNat ≤ b.toNat := by
  rw [Char.le_def, UInt32.le_iff_toNat_le]
  rfl

theorem isAlpha_iff_toNat {c : Char} :
    c.isAlpha = true ↔ 65 ≤ c.toNat ∧ c.toNat ≤ 90 ∨ 97 ≤ c.toNat ∧ c.toNat ≤ 122 := by
  have hval : c.val.toNat = c.toNat := rfl
  show (decide ('A'.val ≤ c.val ∧ c.val ≤ 'Z'.val) ||
    (decide ('a'.val ≤ c.val) && decide (c.val ≤ 'z'.val))) = true ↔ _
  simp [UInt32.le_iff_toNat_le, hval]

theorem isAlphanum_iff_toNat {c : Char} :
    c.isAlphanum = true ↔ c.isAlpha = true ∨ 48 ≤ c.toNat ∧ c.toNat ≤ 57 := by
  rw [Char.isAlphanum, Bool.or_eq_true, Char.isDigit_iff_toNat]
  rfl

theorem isBlank_iff_toNat {c : Char} :
    isBlank c = true ↔ ∃ r ∈ blankRanges, r.1 ≤ c.toNat ∧ c.toNat ≤ r.2 := by
  simp [isBlank]

/-- Of the characters of ASCII, none above the blank is one. -/
theorem isBlank_eq_false {c : Char} (h : 33 ≤ c.toNat) (h' : c.toNat ≤ 127) : isBlank c = false := by
  rw [← Bool.not_eq_true, isBlank_iff_toNat]
  simp [blankRanges]
  omega

/-! ## Numerals -/

/-- `c` is the digit of value `d` in `base`, a letter of either case from ten on. -/
def IsDigit (base : Nat) (c : Char) (d : Nat) : Prop :=
  d < base ∧ (c = upperDigit d ∨ c = lowerDigit d)

/-- `cs` writes `n` in `base`: one digit or more and nothing else, the highest one first. -/
def IsNumeral (base : Nat) (cs : List Char) (n : Nat) : Prop :=
  cs ≠ [] ∧ ∃ ds, List.Forall₂ (IsDigit base) cs ds ∧ n = Nat.ofDigits base ds.reverse

theorem digitValue_upperDigit {d : Nat} (h : d < 36) : digitValue (upperDigit d) = some d :=
  (by decide : ∀ d < 36, digitValue (upperDigit d) = some d) d h

theorem digitValue_lowerDigit {d : Nat} (h : d < 36) : digitValue (lowerDigit d) = some d :=
  (by decide : ∀ d < 36, digitValue (lowerDigit d) = some d) d h

theorem eq_digit_of_digitValue {c : Char} {d : Nat} (h : digitValue c = some d) :
    c = upperDigit d ∨ c = lowerDigit d := by
  have hc : Char.ofNat c.toNat = c := Char.ofNat_toNat c
  simp only [digitValue, le_iff_toNat_le] at h
  split at h
  · next hd =>
    obtain ⟨h0, h9⟩ := hd
    have h0' : 48 ≤ c.toNat := h0
    have h9' : c.toNat ≤ 57 := h9
    have hd : c.toNat - 48 = d := Option.some.inj h
    left
    rw [upperDigit, if_pos (by omega), ← hd, Nat.add_sub_cancel' h0', hc]
  · split at h
    · next hd =>
      obtain ⟨ha, hz⟩ := hd
      have ha' : 97 ≤ c.toNat := ha
      have hd : c.toNat - 97 + 10 = d := Option.some.inj h
      right
      rw [lowerDigit, if_neg (by omega), ← hd, show 87 + (c.toNat - 97 + 10) = c.toNat by omega, hc]
    · split at h
      · next hd =>
        obtain ⟨ha, hz⟩ := hd
        have ha' : 65 ≤ c.toNat := ha
        have hd : c.toNat - 65 + 10 = d := Option.some.inj h
        left
        rw [upperDigit, if_neg (by omega), ← hd, show 55 + (c.toNat - 65 + 10) = c.toNat by omega, hc]
      · simp at h

theorem digitIn_eq_some_iff {base d : Nat} {c : Char} (hb : base ≤ 36) :
    digitIn base c = some d ↔ IsDigit base c d := by
  rw [digitIn, Option.filter_eq_some_iff, decide_eq_true_eq]
  constructor
  · rintro ⟨hv, hd⟩
    exact ⟨hd, eq_digit_of_digitValue hv⟩
  · rintro ⟨hd, rfl | rfl⟩
    · exact ⟨digitValue_upperDigit (by omega), hd⟩
    · exact ⟨digitValue_lowerDigit (by omega), hd⟩

theorem numeralFrom_eq_some_iff {base high n : Nat} {cs : List Char} (hb : base ≤ 36) :
    numeralFrom base high cs = some n ↔ ∃ ds, List.Forall₂ (IsDigit base) cs ds ∧
      n = high * base ^ ds.length + Nat.ofDigits base ds.reverse := by
  induction cs generalizing high with
  | nil => simp [numeralFrom, eq_comm]
  | cons c cs ih =>
    simp only [numeralFrom, Option.bind_eq_some_iff, digitIn_eq_some_iff hb, ih,
      List.forall₂_cons_left_iff]
    -- both sides name the same digits; only the value of the first one moves
    have hvalue (d : Nat) (ds : List Nat) :
        (base * high + d) * base ^ ds.length + Nat.ofDigits base ds.reverse =
          high * base ^ (d :: ds).length + Nat.ofDigits base (d :: ds).reverse := by
      rw [List.reverse_cons, Nat.ofDigits_append, Nat.ofDigits_singleton, List.length_reverse,
        List.length_cons, Nat.pow_succ]
      ring
    constructor
    · rintro ⟨d, hd, ds, hds, rfl⟩
      exact ⟨d :: ds, ⟨d, ds, hd, hds, rfl⟩, hvalue d ds⟩
    · rintro ⟨_, ⟨d, ds, hd, hds, rfl⟩, rfl⟩
      exact ⟨d, hd, ds, hds, (hvalue d ds).symm⟩

theorem numeral?_eq_some_iff {base n : Nat} {cs : List Char} (hb : base ≤ 36) :
    numeral? base cs = some n ↔ IsNumeral base cs n := by
  cases cs with
  | nil => simp [numeral?, IsNumeral]
  | cons c cs =>
    rw [numeral?, List.isEmpty_cons, if_neg Bool.false_ne_true, numeralFrom_eq_some_iff hb]
    simp [IsNumeral]

theorem IsNumeral.exists_digit {base n : Nat} {cs : List Char} (h : IsNumeral base cs n) {c : Char}
    (hc : c ∈ cs) : ∃ d, IsDigit base c d := by
  obtain ⟨-, ds, hds, -⟩ := h
  induction hds with
  | nil => simp at hc
  | cons hd _ ih =>
    rcases List.mem_cons.1 hc with rfl | hmem
    · exact ⟨_, hd⟩
    · exact ih hmem

theorem IsDigit.toNat_le {base d : Nat} {c : Char} (h : IsDigit base c d) (hb : base ≤ 16) :
    48 ≤ c.toNat ∧ c.toNat ≤ 102 := by
  obtain ⟨hd, rfl | rfl⟩ := h
  · exact (by decide : ∀ d < 16, 48 ≤ (upperDigit d).toNat ∧ (upperDigit d).toNat ≤ 102) d (by omega)
  · exact (by decide : ∀ d < 16, 48 ≤ (lowerDigit d).toNat ∧ (lowerDigit d).toNat ≤ 102) d (by omega)

theorem IsDigit.toNat_le_nine {base d : Nat} {c : Char} (h : IsDigit base c d) (hb : base ≤ 10) :
    48 ≤ c.toNat ∧ c.toNat ≤ 57 := by
  obtain ⟨hd, rfl | rfl⟩ := h
  · exact (by decide : ∀ d < 10, 48 ≤ (upperDigit d).toNat ∧ (upperDigit d).toNat ≤ 57) d (by omega)
  · exact (by decide : ∀ d < 10, 48 ≤ (lowerDigit d).toNat ∧ (lowerDigit d).toNat ≤ 57) d (by omega)

theorem IsNumeral.toNat_le {base n : Nat} {cs : List Char} (h : IsNumeral base cs n)
    (hb : base ≤ 16) : ∀ c ∈ cs, 48 ≤ c.toNat ∧ c.toNat ≤ 102 := by
  intro c hc
  obtain ⟨d, hd⟩ := h.exists_digit hc
  exact hd.toNat_le hb

end AccumulatorMachine.Text

namespace AccumulatorMachine.Assembly
set_option autoImplicit false
open Text

/-! ## Numbers -/

/-- `cs` writes the magnitude `n`: digits after the mark of their base, or decimal ones without. -/
inductive IsMagnitude : List Char → Nat → Prop
  | decimal {cs : List Char} {n : Nat} : IsNumeral 10 cs n → IsMagnitude cs n
  | dollar {cs : List Char} {n : Nat} : IsNumeral 16 cs n → IsMagnitude ('$' :: cs) n
  | hex {x : Char} {cs : List Char} {n : Nat} :
      x = 'x' ∨ x = 'X' → IsNumeral 16 cs n → IsMagnitude ('0' :: x :: cs) n
  | binary {x : Char} {cs : List Char} {n : Nat} :
      x = 'b' ∨ x = 'B' → IsNumeral 2 cs n → IsMagnitude ('0' :: x :: cs) n

/-- `cs` writes the number `v`: a magnitude below the limit, after a minus sign or not. -/
inductive IsNumber : List Char → Int → Prop
  | plain {cs : List Char} {n : Nat} : IsMagnitude cs n → n < magnitudeLimit → IsNumber cs n
  | minus {cs : List Char} {n : Nat} :
      IsMagnitude cs n → n < magnitudeLimit → IsNumber ('-' :: cs) (-(n : Int))

theorem not_isNumeral_of_mem {cs : List Char} {n : Nat} {c : Char} (hc : c ∈ cs)
    (hn : ¬(48 ≤ c.toNat ∧ c.toNat ≤ 57)) : ¬IsNumeral 10 cs n := by
  intro h
  obtain ⟨d, hd⟩ := h.exists_digit hc
  exact hn (hd.toNat_le_nine (Nat.le_refl 10))

theorem readDigits_eq_some_iff {cs : List Char} {n : Nat} :
    readDigits cs = some n ↔ IsMagnitude cs n := by
  constructor
  · intro h
    unfold readDigits at h
    split at h
    · exact .dollar ((numeral?_eq_some_iff (by decide)).1 h)
    · exact .hex (.inl rfl) ((numeral?_eq_some_iff (by decide)).1 h)
    · exact .hex (.inr rfl) ((numeral?_eq_some_iff (by decide)).1 h)
    · exact .binary (.inl rfl) ((numeral?_eq_some_iff (by decide)).1 h)
    · exact .binary (.inr rfl) ((numeral?_eq_some_iff (by decide)).1 h)
    · exact .decimal ((numeral?_eq_some_iff (by decide)).1 h)
  · intro h
    cases h with
    | decimal h =>
      unfold readDigits
      -- the mark of another base is no decimal digit
      split
      · exact absurd h (not_isNumeral_of_mem (c := '$') (by simp) (by decide))
      · exact absurd h (not_isNumeral_of_mem (c := 'x') (by simp) (by decide))
      · exact absurd h (not_isNumeral_of_mem (c := 'X') (by simp) (by decide))
      · exact absurd h (not_isNumeral_of_mem (c := 'b') (by simp) (by decide))
      · exact absurd h (not_isNumeral_of_mem (c := 'B') (by simp) (by decide))
      · exact (numeral?_eq_some_iff (by decide)).2 h
    | dollar h => exact (numeral?_eq_some_iff (by decide)).2 h
    | hex hx h =>
      rcases hx with rfl | rfl
      · exact (numeral?_eq_some_iff (by decide)).2 h
      · exact (numeral?_eq_some_iff (by decide)).2 h
    | binary hx h =>
      rcases hx with rfl | rfl
      · exact (numeral?_eq_some_iff (by decide)).2 h
      · exact (numeral?_eq_some_iff (by decide)).2 h

theorem readMagnitude_eq_some_iff {cs : List Char} {n : Nat} :
    readMagnitude cs = some n ↔ IsMagnitude cs n ∧ n < magnitudeLimit := by
  rw [readMagnitude, Option.filter_eq_some_iff, readDigits_eq_some_iff, decide_eq_true_eq]

theorem not_isMagnitude_minus {cs : List Char} {n : Nat} : ¬IsMagnitude ('-' :: cs) n := by
  intro h
  cases h with
  | decimal h => exact not_isNumeral_of_mem (c := '-') (by simp) (by decide) h

theorem readNumber_eq_some_iff {cs : List Char} {v : Int} :
    readNumber cs = some v ↔ IsNumber cs v := by
  constructor
  · intro h
    unfold readNumber at h
    split at h
    · obtain ⟨n, hn, rfl⟩ := Option.map_eq_some_iff.1 h
      obtain ⟨hm, hlt⟩ := readMagnitude_eq_some_iff.1 hn
      exact .minus hm hlt
    · obtain ⟨n, hn, rfl⟩ := Option.map_eq_some_iff.1 h
      obtain ⟨hm, hlt⟩ := readMagnitude_eq_some_iff.1 hn
      exact .plain hm hlt
  · intro h
    cases h with
    | minus hm hlt =>
      exact Option.map_eq_some_iff.2 ⟨_, readMagnitude_eq_some_iff.2 ⟨hm, hlt⟩, rfl⟩
    | plain hm hlt =>
      unfold readNumber
      split
      · exact absurd hm not_isMagnitude_minus
      · exact Option.map_eq_some_iff.2 ⟨_, readMagnitude_eq_some_iff.2 ⟨hm, hlt⟩, rfl⟩

/-! ## Names -/

/-- `cs` writes the name `s`: a letter or an underscore, then letters, digits and underscores, all
of them in capitals in `s`. -/
def IsName (cs : List Char) (s : String) : Prop :=
  ∃ c rest, cs = c :: rest ∧ startsName c = true ∧ (∀ d ∈ rest, continuesName d = true) ∧
    s = String.ofList (cs.map Char.toUpper)

theorem readName_eq_some_iff {cs : List Char} {s : String} : readName cs = some s ↔ IsName cs s := by
  cases cs with
  | nil => simp [readName, IsName]
  | cons c rest =>
    rw [readName, Option.ite_none_right_eq_some, Bool.and_eq_true, List.all_eq_true,
      Option.some.injEq]
    constructor
    · rintro ⟨⟨hc, hrest⟩, rfl⟩
      exact ⟨c, rest, rfl, hc, hrest, rfl⟩
    · rintro ⟨_, _, heq, hc, hrest, rfl⟩
      obtain ⟨rfl, rfl⟩ := List.cons.inj heq
      exact ⟨⟨hc, hrest⟩, rfl⟩

/-! ## Operands -/

/-- `cs` writes the operand `o`. -/
inductive IsOperand : List Char → Operand → Prop
  | number {cs : List Char} {v : Int} : IsNumber cs v → IsOperand cs (.number v)
  | name {cs : List Char} {s : String} : IsName cs s → IsOperand cs (.name s)

/-- No name starts with a digit, the mark of a base or a minus sign. -/
theorem startsName_eq_false {c : Char} (h : c.toNat ≤ 57) : startsName c = false := by
  rw [startsName, Bool.or_eq_false_iff]
  constructor
  · rw [← Bool.not_eq_true, isAlpha_iff_toNat]
    omega
  · rw [beq_eq_false_iff_ne]
    rintro rfl
    exact absurd h (by decide)

theorem IsMagnitude.head_le {c : Char} {cs : List Char} {n : Nat} (h : IsMagnitude (c :: cs) n) :
    c.toNat ≤ 57 := by
  cases h with
  | decimal h =>
    obtain ⟨d, hd⟩ := h.exists_digit List.mem_cons_self
    exact (hd.toNat_le_nine (Nat.le_refl 10)).2
  | dollar h => decide
  | hex _ h => decide
  | binary _ h => decide

theorem IsNumber.not_isName {cs : List Char} {v : Int} (h : IsNumber cs v) (s : String) :
    ¬IsName cs s := by
  rintro ⟨c, rest, rfl, hc, -⟩
  have hle : c.toNat ≤ 57 := by
    cases h with
    | plain hm => exact hm.head_le
    | minus => decide
  rw [startsName_eq_false hle] at hc
  exact Bool.false_ne_true hc

theorem readOperand_eq_some_iff {cs : List Char} {o : Operand} :
    readOperand cs = some o ↔ IsOperand cs o := by
  unfold readOperand
  cases hv : readNumber cs with
  | some v =>
    have hnum := readNumber_eq_some_iff.1 hv
    constructor
    · rintro h
      cases h
      exact .number hnum
    · intro h
      cases h with
      | number h => rw [← hv, readNumber_eq_some_iff.2 h]
      | name h => exact absurd h (hnum.not_isName _)
  | none =>
    simp only [Option.map_eq_some_iff, readName_eq_some_iff]
    constructor
    · rintro ⟨s, hs, rfl⟩
      exact .name hs
    · intro h
      cases h with
      | number h => simp [readNumber_eq_some_iff.2 h] at hv
      | name h => exact ⟨_, h, rfl⟩

/-! ## The characters of operands -/

/-- Whatever its base, a number is written with characters from the dollar sign to a small `x`. -/
theorem IsNumber.toNat_le {cs : List Char} {v : Int} (h : IsNumber cs v) :
    ∀ c ∈ cs, 36 ≤ c.toNat ∧ c.toNat ≤ 120 := by
  have hdigits {base n : Nat} {ds : List Char} (hd : IsNumeral base ds n) (hb : base ≤ 16) :
      ∀ c ∈ ds, 36 ≤ c.toNat ∧ c.toNat ≤ 120 := by
    intro c hc
    have hrange := hd.toNat_le hb c hc
    omega
  have hmagnitude {ds : List Char} {n : Nat} (hm : IsMagnitude ds n) :
      ∀ c ∈ ds, 36 ≤ c.toNat ∧ c.toNat ≤ 120 := by
    cases hm with
    | decimal h => exact hdigits h (by decide)
    | dollar h =>
      rw [List.forall_mem_cons]
      exact ⟨by decide, hdigits h (by decide)⟩
    | hex hx h =>
      rw [List.forall_mem_cons, List.forall_mem_cons]
      refine ⟨by decide, ?_, hdigits h (by decide)⟩
      rcases hx with rfl | rfl <;> decide
    | binary hx h =>
      rw [List.forall_mem_cons, List.forall_mem_cons]
      refine ⟨by decide, ?_, hdigits h (by decide)⟩
      rcases hx with rfl | rfl <;> decide
  cases h with
  | plain hm => exact hmagnitude hm
  | minus hm =>
    rw [List.forall_mem_cons]
    exact ⟨by decide, hmagnitude hm⟩

theorem IsName.not_blank {cs : List Char} {s : String} (h : IsName cs s) :
    ∀ c ∈ cs, isBlank c = false := by
  obtain ⟨c, rest, rfl, hc, hrest, -⟩ := h
  have hname (d : Char) (hd : d.isAlphanum = true ∨ d = '_') : isBlank d = false := by
    rcases hd with hd | rfl
    · rw [isAlphanum_iff_toNat, isAlpha_iff_toNat] at hd
      exact isBlank_eq_false (by omega) (by omega)
    · decide
  rw [List.forall_mem_cons]
  constructor
  · rw [startsName, Bool.or_eq_true, beq_iff_eq] at hc
    exact hname c (hc.imp_left fun h => isAlphanum_iff_toNat.2 (.inl h))
  · intro d hd
    have hcont := hrest d hd
    rw [continuesName, Bool.or_eq_true, beq_iff_eq] at hcont
    exact hname d hcont

theorem IsOperand.not_blank {cs : List Char} {o : Operand} (h : IsOperand cs o) :
    ∀ c ∈ cs, isBlank c = false := by
  cases h with
  | number h =>
    intro c hc
    have hrange := h.toNat_le c hc
    exact isBlank_eq_false (by omega) (by omega)
  | name h => exact h.not_blank

theorem IsOperand.ne_nil {cs : List Char} {o : Operand} (h : IsOperand cs o) : cs ≠ [] := by
  rintro rfl
  cases h with
  | number h =>
    cases h with
    | plain hm =>
      cases hm with
      | decimal h => exact h.1 rfl
  | name h =>
    obtain ⟨_, _, heq, -⟩ := h
    exact List.cons_ne_nil _ _ heq.symm

end AccumulatorMachine.Assembly
