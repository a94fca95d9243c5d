import AccumulatorMachine.Proofs.Assembly.Form

/-! # Letter case

A text means the same in letters of either case. Case is given up in four places: mnemonics are
compared in capitals, names are kept in capitals, and digits and the marks of bases are read in
either case. Everything else that a reader looks at is no letter, so it finds the same in the
capitals of a text (`capitals`) as in the text, at the same places. Main statements:
`lines_capitals`, `code_capitals` and `readCode_capitals`.
-/

namespace AccumulatorMachine.Text
set_option autoImplicit false

/-! ## Characters -/

theorem toNat_toUpper (c : Char) :
    c.toUpper.toNat = if 97 ≤ c.toNat ∧ c.toNat ≤ 122 then c.toNat - 32 else c.toNat := by
  have hval : c.val.toNat = c.toNat := rfl
  have hsmall : ('a'.val ≤ c.val ∧ c.val ≤ 'z'.val) ↔ 97 ≤ c.toNat ∧ c.toNat ≤ 122 := by
    rw [UInt32.le_iff_toNat_le, UInt32.le_iff_toNat_le, hval]
    rfl
  delta Char.toUpper
  by_cases h : 97 ≤ c.toNat ∧ c.toNat ≤ 122
  · rw [dif_pos (hsmall.2 h), if_pos h]
    show (c.val + ('A'.val - 'a'.val)).toNat = c.toNat - 32
    rw [UInt32.toNat_add, hval, show ('A'.val - 'a'.val).toNat = 2 ^ 32 - 32 from rfl]
    omega
  · rw [dif_neg (mt hsmall.1 h), if_neg h]

theorem eq_of_toUpper {c d : Char} (h : c.toUpper = d) : c = d ∨ c = Char.ofNat (d.toNat + 32) := by
  have hd := toNat_toUpper c
  rw [h] at hd
  split at hd
  · right
    rw [hd, Nat.sub_add_cancel (by omega), Char.ofNat_toNat]
  · left
    rw [← Char.ofNat_toNat c, ← hd, Char.ofNat_toNat]

/-- A character that is no letter is no other's capital. -/
theorem toUpper_eq_iff {c d : Char} (hd : d.isAlpha = false) : c.toUpper = d ↔ c = d := by
  rw [← Bool.not_eq_true, isAlpha_iff_toNat] at hd
  have hc := toNat_toUpper c
  constructor
  · intro h
    rw [h] at hc
    split at hc
    · omega
    · rw [← Char.ofNat_toNat c, ← hc, Char.ofNat_toNat]
  · rintro rfl
    rw [if_neg (by omega)] at hc
    rw [← Char.ofNat_toNat c.toUpper, hc, Char.ofNat_toNat]

@[simp] theorem isBlank_toUpper (c : Char) : isBlank c.toUpper = isBlank c := by
  rw [Bool.eq_iff_iff, isBlank_iff_toNat, isBlank_iff_toNat, toNat_toUpper]
  split
  · simp [blankRanges]
    omega
  · rfl

@[simp] theorem isAlpha_toUpper (c : Char) : c.toUpper.isAlpha = c.isAlpha := by
  rw [Bool.eq_iff_iff, isAlpha_iff_toNat, isAlpha_iff_toNat, toNat_toUpper]
  split <;> omega

@[simp] theorem isAlphanum_toUpper (c : Char) : c.toUpper.isAlphanum = c.isAlphanum := by
  rw [Bool.eq_iff_iff, isAlphanum_iff_toNat, isAlphanum_iff_toNat, isAlpha_toUpper,
    isAlpha_iff_toNat, toNat_toUpper]
  split <;> omega

@[simp] theorem digitValue_toUpper (c : Char) : digitValue c.toUpper = digitValue c := by
  have hc := toNat_toUpper c
  simp only [digitValue, le_iff_toNat_le, hc, show '0'.toNat = 48 from rfl,
    show '9'.toNat = 57 from rfl, show 'a'.toNat = 97 from rfl, show 'z'.toNat = 122 from rfl,
    show 'A'.toNat = 65 from rfl, show 'Z'.toNat = 90 from rfl]
  by_cases h : 97 ≤ c.toNat ∧ c.toNat ≤ 122
  · rw [if_pos h, if_neg (by omega), if_neg (by omega), if_pos (by omega), if_neg (by omega),
      if_pos h]
    exact congrArg some (by omega)
  · rw [if_neg h]

@[simp] theorem toUpper_toUpper (c : Char) : c.toUpper.toUpper = c.toUpper := by
  have hnot : ¬(97 ≤ c.toUpper.toNat ∧ c.toUpper.toNat ≤ 122) := by
    rw [toNat_toUpper]
    split <;> omega
  rw [← Char.ofNat_toNat c.toUpper.toUpper, toNat_toUpper, if_neg hnot, Char.ofNat_toNat]

/-! ## Texts -/

/-- The text with capitals for its small letters. -/
def capitals (cs : List Char) : List Char := cs.map Char.toUpper

theorem capitals_cons (c : Char) (cs : List Char) :
    capitals (c :: cs) = c.toUpper :: capitals cs :=
  rfl

theorem capitals_eq_iff {cs ds : List Char} :
    capitals cs = capitals ds ↔ List.Forall₂ (fun c d => c.toUpper = d.toUpper) cs ds := by
  rw [capitals, capitals, ← List.forall₂_eq_eq_eq, List.forall₂_map_left_iff,
    List.forall₂_map_right_iff]

@[simp] theorem capitals_capitals (cs : List Char) : capitals (capitals cs) = capitals cs := by
  simp [capitals, Function.comp_def]

@[simp] theorem capitals_eq_nil_iff {cs : List Char} : capitals cs = [] ↔ cs = [] :=
  List.map_eq_nil_iff

/-- Where the capitals of a text start with no letter, the text starts with the same. -/
theorem eq_cons_of_capitals {cs rest : List Char} {d : Char} (hd : d.isAlpha = false)
    (h : capitals cs = d :: rest) : ∃ ds, cs = d :: ds ∧ capitals ds = rest := by
  obtain ⟨c, ds, rfl, hc, hds⟩ := List.map_eq_cons_iff.1 h
  exact ⟨ds, (toUpper_eq_iff hd).1 hc ▸ rfl, hds⟩

theorem head?_capitals_iff {cs : List Char} {d : Char} (hd : d.isAlpha = false) :
    (capitals cs).head? = some d ↔ cs.head? = some d := by
  cases cs with
  | nil => rfl
  | cons c cs => simpa [capitals] using toUpper_eq_iff hd

theorem takeWhile_capitals {p : Char → Bool} (hp : ∀ c, p c.toUpper = p c) (cs : List Char) :
    (capitals cs).takeWhile p = capitals (cs.takeWhile p) := by
  rw [capitals, List.takeWhile_map, Function.comp_def, funext hp]
  rfl

theorem dropWhile_capitals {p : Char → Bool} (hp : ∀ c, p c.toUpper = p c) (cs : List Char) :
    (capitals cs).dropWhile p = capitals (cs.dropWhile p) := by
  rw [capitals, List.dropWhile_map, Function.comp_def, funext hp]
  rfl

theorem trim_capitals (cs : List Char) : trim (capitals cs) = capitals (trim cs) := by
  have hreverse (ds : List Char) : (capitals ds).reverse = capitals ds.reverse :=
    List.map_reverse.symm
  rw [trim, trimStart, trimEnd, dropWhile_capitals isBlank_toUpper, hreverse,
    dropWhile_capitals isBlank_toUpper, hreverse]
  rfl

theorem cutAt_capitals {mark : Char} (hmark : mark.isAlpha = false) (cs : List Char) :
    cutAt mark (capitals cs) =
      (cutAt mark cs).map fun parts => (capitals parts.1, capitals parts.2) := by
  induction cs with
  | nil => rfl
  | cons c cs ih =>
    rw [capitals_cons, cutAt, cutAt, ih]
    by_cases hc : c = mark
    · rw [if_pos ((toUpper_eq_iff hmark).2 hc), if_pos hc]
      rfl
    · rw [if_neg (mt (toUpper_eq_iff hmark).1 hc), if_neg hc, Option.map_map, Option.map_map]
      rfl

theorem lines_capitals (cs : List Char) : lines (capitals cs) = (lines cs).map capitals := by
  have hstep (c : Char) (after : Option Char × List (List Char)) :
      addChar c.toUpper (after.1.map Char.toUpper, after.2.map capitals) =
        ((addChar c after).1.map Char.toUpper, (addChar c after).2.map capitals) := by
    obtain ⟨next, ls⟩ := after
    have hfeed : c.toUpper = '\n' ↔ c = '\n' := toUpper_eq_iff (by decide)
    have hreturn : c.toUpper = '\r' ↔ c = '\r' := toUpper_eq_iff (by decide)
    have hnext : next.map Char.toUpper = some '\n' ↔ next = some '\n' := by
      cases next with
      | none => simp
      | some d => simpa using toUpper_eq_iff (by decide)
    simp only [addChar, hfeed, hreturn, hnext]
    split
    · rfl
    · split
      · rfl
      · cases ls <;> rfl
  rw [lines, lines, capitals, List.foldr_map]
  exact congrArg Prod.snd (@List.foldr_hom _ _ _
    (fun after => (after.1.map Char.toUpper, after.2.map capitals)) _ _ cs (none, []) hstep)

theorem numeralFrom_capitals (base high : Nat) (cs : List Char) :
    numeralFrom base high (capitals cs) = numeralFrom base high cs := by
  induction cs generalizing high with
  | nil => rfl
  | cons c cs ih =>
    simp only [capitals_cons, numeralFrom, digitIn, digitValue_toUpper, ih]

@[simp] theorem numeral?_capitals (base : Nat) (cs : List Char) :
    numeral? base (capitals cs) = numeral? base cs := by
  rw [numeral?, numeral?, numeralFrom_capitals, capitals, List.isEmpty_map]

end AccumulatorMachine.Text

namespace AccumulatorMachine.Assembly
set_option autoImplicit false
open Text

/-! ## Operands -/

theorem readDigits_capitals (cs : List Char) : readDigits (capitals cs) = readDigits cs := by
  rw [readDigits.eq_def cs]
  split
  · exact numeral?_capitals 16 _
  · exact numeral?_capitals 16 _
  · exact numeral?_capitals 16 _
  · exact numeral?_capitals 2 _
  · exact numeral?_capitals 2 _
  · next hdollar hx hX hb hB =>
    -- the mark of a base in the capitals would be one in the text, in one case or the other
    have hmark {m : Char} {rest : List Char} (h : capitals cs = '0' :: m :: rest) :
        ∃ c ds, cs = '0' :: c :: ds ∧ (c = m ∨ c = Char.ofNat (m.toNat + 32)) := by
      obtain ⟨ds, rfl, hds⟩ := eq_cons_of_capitals (by decide) h
      obtain ⟨c, ds, rfl, hc, -⟩ := List.map_eq_cons_iff.1 hds
      exact ⟨c, ds, rfl, eq_of_toUpper hc⟩
    unfold readDigits
    split
    · next h =>
      obtain ⟨ds, rfl, -⟩ := eq_cons_of_capitals (by decide) h
      exact (hdollar ds rfl).elim
    · next h =>
      obtain ⟨c, ds, rfl, rfl | rfl⟩ := hmark h
      · exact (hx ds rfl).elim
      · simp [capitals] at h
    · next h =>
      obtain ⟨c, ds, rfl, rfl | rfl⟩ := hmark h
      · exact (hX ds rfl).elim
      · exact (hx ds rfl).elim
    · next h =>
      obtain ⟨c, ds, rfl, rfl | rfl⟩ := hmark h
      · exact (hb ds rfl).elim
      · simp [capitals] at h
    · next h =>
      obtain ⟨c, ds, rfl, rfl | rfl⟩ := hmark h
      · exact (hB ds rfl).elim
      · exact (hb ds rfl).elim
    · exact numeral?_capitals 10 cs

theorem readNumber_capitals (cs : List Char) : readNumber (capitals cs) = readNumber cs := by
  have hmagnitude (ds : List Char) : readMagnitude (capitals ds) = readMagnitude ds := by
    rw [readMagnitude, readMagnitude, readDigits_capitals]
  rw [readNumber.eq_def cs]
  split
  · next ds => exact congrArg (Option.map _) (hmagnitude ds)
  · next hminus =>
    unfold readNumber
    split
    · next h =>
      obtain ⟨ds, rfl, -⟩ := eq_cons_of_capitals (by decide) h
      exact (hminus ds rfl).elim
    · rw [hmagnitude]

theorem readName_capitals (cs : List Char) : readName (capitals cs) = readName cs := by
  cases cs with
  | nil => rfl
  | cons c cs =>
    have hunderscore (d : Char) : (d.toUpper == '_') = (d == '_') := by
      rw [Bool.eq_iff_iff, beq_iff_eq, beq_iff_eq, toUpper_eq_iff (by decide)]
    have hcontinues (d : Char) : continuesName d.toUpper = continuesName d := by
      rw [continuesName, continuesName, isAlphanum_toUpper, hunderscore]
    have hall : (capitals cs).all continuesName = cs.all continuesName := by
      rw [capitals, List.all_map]
      exact congrArg cs.all (funext hcontinues)
    have hname : (c.toUpper :: capitals cs).map Char.toUpper = (c :: cs).map Char.toUpper :=
      capitals_capitals (c :: cs)
    rw [capitals_cons, readName, readName, hall, hname, startsName, startsName, isAlpha_toUpper,
      hunderscore]

@[simp] theorem readOperand_capitals (cs : List Char) :
    readOperand (capitals cs) = readOperand cs := by
  rw [readOperand, readOperand, readNumber_capitals, readName_capitals]

/-! ## Lines -/

theorem ofMnemonic?_capitals (cs : List Char) :
    Kind.ofMnemonic? (String.ofList (capitals cs)) = Kind.ofMnemonic? (String.ofList cs) := by
  have hname : (capitals cs).map Char.toUpper = cs.map Char.toUpper := capitals_capitals cs
  rw [Kind.ofMnemonic?, Kind.ofMnemonic?, String.toList_ofList, String.toList_ofList, hname]

theorem readCommand_capitals (cs : List Char) : readCommand (capitals cs) = readCommand cs := by
  have hblank (c : Char) : (!isBlank c.toUpper) = !isBlank c := by rw [isBlank_toUpper]
  have hempty (ds : List Char) : (capitals ds).isEmpty = ds.isEmpty := List.isEmpty_map
  have htake := takeWhile_capitals (p := (!isBlank ·)) hblank cs
  have hdrop := dropWhile_capitals (p := (!isBlank ·)) hblank cs
  simp only [readCommand, htake, hdrop, trim_capitals, ofMnemonic?_capitals, readOperand_capitals,
    hempty]

theorem readData_capitals (cs : List Char) : readData (capitals cs) = readData cs := by
  rw [readData, readData, cutAt_capitals (by decide)]
  cases cutAt ':' cs with
  | none => rfl
  | some parts => simp [trim_capitals]

theorem readConstant_capitals (n v : List Char) :
    readConstant (capitals n) (capitals v) = readConstant n v := by
  simp only [readConstant, trim_capitals, readName_capitals, readOperand_capitals]

theorem readLabel_capitals (n r : List Char) :
    readLabel (capitals n) (capitals r) = readLabel n r := by
  simp only [readLabel, trim_capitals, readName_capitals]
  cases trim r with
  | nil => rfl
  | cons c cs =>
    have hcommand := readCommand_capitals (c :: cs)
    simp only [capitals_cons] at hcommand ⊢
    rw [hcommand]

/-- A line in capitals says what it says in letters of any case. -/
theorem readCode_capitals (cs : List Char) : readCode (capitals cs) = readCode cs := by
  by_cases h0 : cs = []
  · rw [h0]
    rfl
  by_cases hhead : cs.head? = some ':'
  · obtain ⟨rest, rfl⟩ := List.head?_eq_some_iff.1 hhead
    exact readData_capitals rest
  rw [readCode_of_not_data (mt capitals_eq_nil_iff.1 h0)
      (mt (head?_capitals_iff (by decide)).1 hhead), readCode_of_not_data h0 hhead,
    cutAt_capitals (by decide), cutAt_capitals (by decide)]
  cases cutAt '=' cs with
  | some parts => exact readConstant_capitals parts.1 parts.2
  | none =>
    cases cutAt ':' cs with
    | some parts => exact readLabel_capitals parts.1 parts.2
    | none => exact congrArg (Option.map _) (readCommand_capitals cs)

theorem code_capitals (text : List Char) : code (capitals text) = capitals (code text) := by
  have hmark (c : Char) : decide (c.toUpper ≠ '#') = decide (c ≠ '#') := by
    rw [decide_eq_decide, ne_eq, ne_eq, toUpper_eq_iff (by decide)]
  rw [code, code, takeWhile_capitals hmark, trim_capitals]

end AccumulatorMachine.Assembly
