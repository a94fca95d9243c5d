import AccumulatorMachine.Json.Reader
import AccumulatorMachine.Json.Writer
import AccumulatorMachine.Proofs.Text.Decimal
import AccumulatorMachine.Proofs.Text.FixedDigits
import Mathlib.Data.List.TakeWhile

/-! # Compact texts read back

The compact text of a value is read as that value (`read?_compact`), whatever its strings are and
however deep it is. Only its numbers have to be numbers: a number is kept as a text, and that text
has to be one (`Sound`).
-/

namespace AccumulatorMachine.Json
set_option autoImplicit false
open Text

/-! ## Strings -/

/-- How a character is written: with a named escape, with its code point, or as it is. -/
theorem escape_cases (c : Char) :
    (∃ e, namedEscape e = some c ∧ e ≠ 'u' ∧ escape c = ['\\', e]) ∨
    (c.toNat < 0x20 ∧ escape c = '\\' :: 'u' :: fixedDigits lowerDigit 16 4 c.toNat) ∨
    (0x20 ≤ c.toNat ∧ c ≠ '"' ∧ c ≠ '\\' ∧ escape c = [c]) := by
  unfold escape
  split
  · next h => exact .inl ⟨'"', by rw [h]; rfl, by decide, rfl⟩
  split
  · next h => exact .inl ⟨'\\', by rw [h]; rfl, by decide, rfl⟩
  split
  · next h => exact .inl ⟨'b', by rw [h]; rfl, by decide, rfl⟩
  split
  · next h => exact .inl ⟨'t', by rw [h]; rfl, by decide, rfl⟩
  split
  · next h => exact .inl ⟨'n', by rw [h]; rfl, by decide, rfl⟩
  split
  · next h => exact .inl ⟨'f', by rw [h]; rfl, by decide, rfl⟩
  split
  · next h => exact .inl ⟨'r', by rw [h]; rfl, by decide, rfl⟩
  split
  · next h => exact .inr (.inl ⟨h, rfl⟩)
  · next hquote hslash _ _ _ _ _ h => exact .inr (.inr ⟨Nat.le_of_not_lt h, hquote, hslash, rfl⟩)

section
variable (cs : List Char)

theorem readPieces_named {c e : Char} (he : namedEscape e = some c) (hu : e ≠ 'u') :
    readPieces ('\\' :: e :: cs) = (readPieces cs).map fun (ps, rest) => (.char c :: ps, rest) := by
  rw [readPieces.eq_def]
  cases h : readPieces cs <;> simp_all

theorem readPieces_plain {c : Char} (h : 0x20 ≤ c.toNat) (hquote : c ≠ '"') (hslash : c ≠ '\\') :
    readPieces (c :: cs) = (readPieces cs).map fun (ps, rest) => (.char c :: ps, rest) := by
  rw [readPieces.eq_def]
  cases hcs : readPieces cs <;> simp_all

theorem readPieces_unit {n : Nat} (h : n < 0x10000) :
    readPieces ('\\' :: 'u' :: (fixedDigits lowerDigit 16 4 n ++ cs)) =
      (readPieces cs).map fun (ps, rest) => (.unit n :: ps, rest) := by
  obtain ⟨a, b, c, d, hdigits⟩ : ∃ a b c d, fixedDigits lowerDigit 16 4 n = [a, b, c, d] :=
    ⟨_, _, _, _, rfl⟩
  have hdigit : ∀ d < 16, digitIn 16 (lowerDigit d) = some d :=
    fun d hd => (digitIn_eq_some_iff (by decide)).2 ⟨hd, .inr rfl⟩
  have hnumber := numeralFrom_fixedDigits (by decide) hdigit 4 n 0
  have hvalue : numeral? 16 [a, b, c, d] = some n := by
    rw [← hdigits, numeral?, hnumber]
    simp [hdigits]
    omega
  rw [hdigits]
  cases hcs : readPieces cs <;> simp [readPieces, hvalue, hcs]

end

theorem join_unit {c : Char} (h : c.toNat < 0x20) (ps : List Piece) :
    join (.unit c.toNat :: ps) = (join ps).map (c :: ·) := by
  have hhigh : isHighHalf c.toNat = false := by simp [isHighHalf]; omega
  have hlow : isLowHalf c.toNat = false := by simp [isLowHalf]; omega
  rw [join.eq_def]
  simp [hhigh, hlow, Char.ofNat_toNat]

/-- A character as the writer writes it is one piece, and stands for itself. -/
theorem exists_piece (c : Char) : ∃ p : Piece,
    (∀ cs, readPieces (escape c ++ cs) = (readPieces cs).map fun (ps, rest) => (p :: ps, rest)) ∧
    ∀ ps, join (p :: ps) = (join ps).map (c :: ·) := by
  obtain ⟨e, he, hu, hescape⟩ | ⟨h, hescape⟩ | ⟨h, hquote, hslash, hescape⟩ := escape_cases c
  · rw [hescape]
    exact ⟨.char c, fun cs => readPieces_named cs he hu, fun _ => rfl⟩
  · rw [hescape]
    exact ⟨.unit c.toNat, fun cs => readPieces_unit cs (by omega), join_unit h⟩
  · rw [hescape]
    exact ⟨.char c, fun cs => readPieces_plain cs h hquote hslash, fun _ => rfl⟩

theorem exists_pieces (cs rest : List Char) : ∃ ps,
    readPieces (cs.flatMap escape ++ '"' :: rest) = some (ps, rest) ∧ join ps = some cs := by
  induction cs with
  | nil => exact ⟨[], by simp [readPieces], rfl⟩
  | cons c cs ih =>
    obtain ⟨ps, hps, hjoin⟩ := ih
    obtain ⟨p, hp, hpjoin⟩ := exists_piece c
    refine ⟨p :: ps, ?_, by rw [hpjoin, hjoin]; rfl⟩
    rw [List.flatMap_cons, List.append_assoc, hp, hps]
    rfl

/-- A string literal is read back, the one of no text as well. -/
theorem exists_quote (s : Option String) : ∃ body, quote s = '"' :: body ∧
    ∀ rest, readString (body ++ rest) = some (s, rest) := by
  cases s with
  | none =>
    refine ⟨_, rfl, fun rest => ?_⟩
    have hunit : numeral? 16 ['d', '8', '0', '0'] = some 0xD800 := by decide
    simp [readString, readPieces, hunit, join, isHighHalf]
  | some s =>
    refine ⟨_, rfl, fun rest => ?_⟩
    obtain ⟨ps, hps, hjoin⟩ := exists_pieces s.toList rest
    rw [readString, List.append_assoc]
    simp [hps, hjoin]

/-! ## Numbers -/

/-- Digits are read as far as they go. -/
theorem readDigits_eq_some_iff {cs out left : List Char} : readDigits cs = some (out, left) ↔
    cs = out ++ left ∧ out ≠ [] ∧ (∀ c ∈ out, c.isDigit = true) ∧
      ∀ c ∈ left.head?, c.isDigit = false := by
  rw [readDigits]
  constructor
  · intro h
    simp only [Option.ite_none_left_eq_some, List.isEmpty_iff, Option.some.injEq,
      Prod.mk.injEq] at h
    obtain ⟨hne, rfl, rfl⟩ := h
    refine ⟨List.takeWhile_append_dropWhile.symm, hne, fun c => List.mem_takeWhile_imp, ?_⟩
    intro c hc
    simpa [Option.mem_def.1 hc] using List.head?_dropWhile_not Char.isDigit cs
  · rintro ⟨rfl, hne, hdigits, hstop⟩
    have hleft : left.takeWhile Char.isDigit = [] ∧ left.dropWhile Char.isDigit = left := by
      cases left with
      | nil => exact ⟨rfl, rfl⟩
      | cons c left => simp [hstop c rfl]
    rw [List.takeWhile_append_of_pos hdigits, List.dropWhile_append_of_pos hdigits, hleft.1,
      hleft.2]
    simp [hne]

/-- No character that could continue a number comes first. -/
def Ends (rest : List Char) : Prop :=
  ∀ c ∈ rest.head?, c.isDigit = false ∧ c ≠ '.' ∧ c ≠ 'e' ∧ c ≠ 'E'

/-- What is read does not depend on what follows, if that does not continue a number. -/
def Extends (read : List Char → Option (List Char × List Char)) : Prop :=
  ∀ cs out left rest, Ends rest → read cs = some (out, left) →
    read (cs ++ rest) = some (out, left ++ rest)

theorem Extends.mark {read : List Char → Option (List Char × List Char)} (h : Extends read)
    (m : Char) : Extends fun cs => (read cs).map fun (out, left) => (m :: out, left) := by
  intro cs out left rest hrest hread
  obtain ⟨⟨out, left⟩, hout, heq⟩ := Option.map_eq_some_iff.1 hread
  cases heq
  simp [h cs out left rest hrest hout]

theorem Extends.after {read : List Char → Option (List Char × List Char)} (h : Extends read)
    (c : Char) : Extends fun cs => read (c :: cs) :=
  fun cs => h (c :: cs)

/-- A reader that reads nothing from an empty text is looked at by what comes first. -/
theorem Extends.of_cons {read : List Char → Option (List Char × List Char)} (hnil : read [] = none)
    (h : ∀ c, Extends fun cs => read (c :: cs)) : Extends read := by
  intro cs out left rest hrest hread
  cases cs with
  | nil =>
    rw [hnil] at hread
    cases hread
  | cons c cs => exact h c cs out left rest hrest hread

theorem extends_readDigits : Extends readDigits := by
  intro cs out left rest hrest h
  obtain ⟨rfl, hne, hdigits, hstop⟩ := readDigits_eq_some_iff.1 h
  refine readDigits_eq_some_iff.2 ⟨List.append_assoc .., hne, hdigits, fun c hc => ?_⟩
  cases left with
  | nil => exact (hrest c hc).1
  | cons => exact hstop c hc

theorem extends_readWhole : Extends readWhole := by
  refine .of_cons rfl fun c => ?_
  by_cases hc : c = '0'
  · subst hc
    intro cs out left rest _ h
    cases h
    rfl
  · have hread : (fun cs => readWhole (c :: cs)) = fun cs => readDigits (c :: cs) := by
      simp [readWhole, hc]
    rw [hread]
    exact extends_readDigits.after c

theorem extends_readFraction : Extends readFraction := by
  intro cs out left rest hrest h
  have hnone {cs : List Char} (hcs : '.' ∉ cs.head?) : readFraction cs = some ([], cs) := by
    rw [readFraction.eq_def]
    split <;> simp_all
  cases cs with
  | nil =>
    cases h
    exact hnone fun hdot => (hrest '.' hdot).2.1 rfl
  | cons c cs =>
    by_cases hc : c = '.'
    · subst hc
      exact extends_readDigits.mark '.' cs out left rest hrest h
    · rw [hnone (by simpa using hc)] at h
      cases h
      exact hnone (by simpa using hc)

theorem extends_readSigned : Extends readSigned := by
  refine .of_cons rfl fun c => ?_
  by_cases hplus : c = '+'
  · subst hplus
    exact extends_readDigits.mark '+'
  by_cases hminus : c = '-'
  · subst hminus
    exact extends_readDigits.mark '-'
  have hread : (fun cs => readSigned (c :: cs)) = fun cs => readDigits (c :: cs) := by
    simp [readSigned, hplus, hminus]
  rw [hread]
  exact extends_readDigits.after c

theorem extends_readExponent : Extends readExponent := by
  intro cs out left rest hrest h
  have hnone {cs : List Char} (hcs : 'e' ∉ cs.head?) (hcs' : 'E' ∉ cs.head?) :
      readExponent cs = some ([], cs) := by
    rw [readExponent.eq_def]
    split <;> simp_all
  cases cs with
  | nil =>
    cases h
    exact hnone (fun he => (hrest 'e' he).2.2.1 rfl) fun he => (hrest 'E' he).2.2.2 rfl
  | cons c cs =>
    by_cases hsmall : c = 'e'
    · subst hsmall
      exact extends_readSigned.mark 'e' cs out left rest hrest h
    by_cases hcapital : c = 'E'
    · subst hcapital
      exact extends_readSigned.mark 'E' cs out left rest hrest h
    rw [hnone (by simpa using hsmall) (by simpa using hcapital)] at h
    cases h
    exact hnone (by simpa using hsmall) (by simpa using hcapital)

theorem extends_readUnsigned : Extends readUnsigned := by
  intro cs out left rest hrest h
  simp only [readUnsigned, Option.bind_eq_bind, Option.bind_eq_some_iff] at h
  obtain ⟨⟨whole, cs'⟩, hwhole, ⟨fraction, cs''⟩, hfraction, ⟨exponent, left'⟩, hexponent, heq⟩ := h
  cases heq
  simp [readUnsigned, extends_readWhole _ _ _ rest hrest hwhole,
    extends_readFraction _ _ _ rest hrest hfraction,
    extends_readExponent _ _ _ rest hrest hexponent]

theorem readNumber_of_ne {c : Char} (hc : c ≠ '-') (cs : List Char) :
    readNumber (c :: cs) = readUnsigned (c :: cs) := by
  simp [readNumber, hc]

theorem extends_readNumber : Extends readNumber := by
  refine .of_cons rfl fun c => ?_
  by_cases hc : c = '-'
  · subst hc
    exact extends_readUnsigned.mark '-'
  · simp only [readNumber_of_ne hc]
    exact extends_readUnsigned.after c

/-- A number begins with a digit or a minus sign. -/
theorem exists_head_of_readNumber {cs out left : List Char} (h : readNumber cs = some (out, left)) :
    ∃ c cs', cs = c :: cs' ∧ (c = '-' ∨ c.isDigit = true) := by
  cases cs with
  | nil => cases h
  | cons c cs =>
    refine ⟨c, cs, rfl, or_iff_not_imp_left.2 fun hc => ?_⟩
    rw [readNumber_of_ne hc, readUnsigned] at h
    obtain ⟨⟨whole, cs'⟩, hwhole, -⟩ := Option.bind_eq_some_iff.1 h
    by_cases hzero : c = '0'
    · subst hzero
      rfl
    · rw [readWhole.eq_def] at hwhole
      simp [hzero] at hwhole
      obtain ⟨heq, hne, hdigits, -⟩ := readDigits_eq_some_iff.1 hwhole
      obtain ⟨d, whole, rfl⟩ := List.exists_cons_of_ne_nil hne
      rw [(List.cons.inj heq).1]
      exact hdigits d (List.mem_cons_self ..)

theorem readNumber_toString (n : Nat) :
    readNumber (toString n).toList = some ((toString n).toList, []) := by
  have hdigits : ∀ c ∈ (toString n).toList, c.isDigit = true := by
    intro c hc
    obtain ⟨d, hd⟩ := (isNumeral_toString n).exists_digit hc
    exact Char.isDigit_iff_toNat.2 (hd.toNat_le_nine (by decide))
  have hread : readDigits (toString n).toList = some ((toString n).toList, []) :=
    readDigits_eq_some_iff.2
      ⟨(List.append_nil _).symm, (isNumeral_toString n).1, hdigits, by simp⟩
  have hwhole : readWhole (toString n).toList = some ((toString n).toList, []) := by
    by_cases hn : n = 0
    · subst hn
      rfl
    · have hhead := head?_toString (Nat.pos_of_ne_zero hn)
      rw [readWhole.eq_def]
      split
      · next heq =>
        rw [heq] at hhead
        exact absurd rfl hhead
      · exact hread
  obtain ⟨c, cs, hcs⟩ := List.exists_cons_of_ne_nil (isNumeral_toString n).1
  have hc : c ≠ '-' := by
    rintro rfl
    exact absurd (hdigits '-' (hcs ▸ List.mem_cons_self ..)) (by decide)
  rw [hcs] at hwhole ⊢
  rw [readNumber_of_ne hc, readUnsigned, hwhole]
  simp [readFraction, readExponent]

/-! ## Values -/

/-- A value that has a text: every number in it is one. -/
inductive Proper : Json → Prop
  | null : Proper .null
  | bool (b : Bool) : Proper (.bool b)
  | number {text : String} (h : readNumber text.toList = some (text.toList, [])) :
      Proper (.number text)
  | string (s : Option String) : Proper (.string s)
  | array {items : List Json} (h : ∀ item ∈ items, Proper item) : Proper (.array items)
  | object {members : List (Option String × Json)} (h : ∀ member ∈ members, Proper member.2) :
      Proper (.object members)

theorem proper_nat (n : Nat) : Proper (.nat n) := .number (readNumber_toString n)

theorem skip_cons {c : Char} (h : isSpace c = false) (cs : List Char) : skip (c :: cs) = c :: cs := by
  simp [skip, h]

/-- A number begins with nothing that begins another value or ends an array. -/
theorem head_number {c : Char} (h : c = '-' ∨ c.isDigit = true) :
    isSpace c = false ∧ c ∉ [']', 'n', 't', 'f', '"', '[', '\x7b'] := by
  obtain rfl | hdigit := h
  · decide
  · have hother : ([' ', '\t', '\n', '\r', ']', 'n', 't', 'f', '"', '[', '\x7b'].all
        fun d => !d.isDigit) = true := by decide
    have hne (d : Char) (hd : d ∈ _) : c ≠ d := fun hcd => by
      have hd' := List.all_eq_true.1 hother d hd
      rw [← hcd, hdigit] at hd'
      cases hd'
    simp [isSpace, hne]

/-- The text of a value begins with something that no array ends with. -/
theorem Proper.exists_cons {j : Json} (h : Proper j) :
    ∃ c cs, j.compactChars = c :: cs ∧ isSpace c = false ∧ c ≠ ']' := by
  cases h with
  | null => exact ⟨'n', _, rfl, by decide, by decide⟩
  | bool b =>
    cases b with
    | true => exact ⟨'t', _, rfl, by decide, by decide⟩
    | false => exact ⟨'f', _, rfl, by decide, by decide⟩
  | number h =>
    obtain ⟨c, cs, hcs, hc⟩ := exists_head_of_readNumber h
    obtain ⟨hspace, hne⟩ := head_number hc
    exact ⟨c, cs, hcs, hspace, fun hclose => hne (by simp [hclose])⟩
  | string s =>
    obtain ⟨body, hbody, -⟩ := exists_quote s
    exact ⟨'"', body, hbody, by decide, by decide⟩
  | array => exact ⟨'[', _, rfl, by decide, by decide⟩
  | object => exact ⟨'\x7b', _, rfl, by decide, by decide⟩

theorem readValue_number {c : Char} (h : c = '-' ∨ c.isDigit = true) (fuel : Nat) (cs : List Char) :
    readValue (fuel + 1) (c :: cs) =
      (readNumber (c :: cs)).map fun (digits, rest) => (.number (String.ofList digits), rest) := by
  obtain ⟨hspace, hne⟩ := head_number h
  rw [readValue, skip_cons hspace]
  split <;> simp_all

theorem readValue_items {c : Char} (hspace : isSpace c = false) (hclose : c ≠ ']') (fuel : Nat)
    (cs : List Char) : readValue (fuel + 1) ('[' :: c :: cs) =
      (readItems fuel (c :: cs)).map fun (items, rest) => (.array items, rest) := by
  rw [readValue, skip_cons (by decide)]
  simp only [skip_cons hspace]
  split
  · next heq => exact absurd (List.cons.inj heq).1 hclose
  · rfl

theorem readValue_members (fuel : Nat) (cs : List Char) :
    readValue (fuel + 1) ('\x7b' :: '"' :: cs) =
      (readMembers fuel ('"' :: cs)).map fun (members, rest) => (.object members, rest) := by
  rw [readValue, skip_cons (by decide)]
  rfl

/-- The value is read from its text, whatever follows that does not continue it as a number. -/
def ReadsBack (j : Json) : Prop :=
  ∀ fuel rest, 2 * j.compactChars.length ≤ fuel → Ends rest →
    readValue fuel (j.compactChars ++ rest) = some (j, rest)

theorem ends_cons {c : Char} (h : c ∈ [',', ']', '\x7d']) (cs : List Char) : Ends (c :: cs) := by
  intro d hd
  obtain rfl : c = d := Option.some.inj hd
  simp only [List.mem_cons, List.not_mem_nil, or_false] at h
  obtain rfl | rfl | rfl := h <;> decide

theorem compactItems_cons (item next : Json) (items : List Json) :
    compactItems (item :: next :: items) = compactChars item ++ ',' :: compactItems (next :: items) := by
  simp [compactItems]

theorem compactMembers_cons (member next : Option String × Json)
    (members : List (Option String × Json)) : compactMembers (member :: next :: members) =
      compactMember member ++ ',' :: compactMembers (next :: members) := by
  simp [compactMembers]

theorem readItems_compact {item : Json} {items : List Json}
    (h : ∀ i ∈ item :: items, ReadsBack i) (rest : List Char) (fuel : Nat)
    (hfuel : 2 * (compactItems (item :: items)).length < fuel) :
    readItems fuel (compactItems (item :: items) ++ ']' :: rest) = some (item :: items, rest) := by
  induction items generalizing item fuel with
  | nil =>
    obtain ⟨fuel, rfl⟩ := Nat.exists_eq_add_one_of_ne_zero (Nat.ne_of_gt (Nat.zero_lt_of_lt hfuel))
    rw [compactItems] at hfuel ⊢
    have hitem := h item (List.mem_cons_self ..) fuel (']' :: rest) (by omega)
      (ends_cons (by decide) rest)
    simp [readItems, hitem, skip, isSpace]
  | cons next items ih =>
    obtain ⟨fuel, rfl⟩ := Nat.exists_eq_add_one_of_ne_zero (Nat.ne_of_gt (Nat.zero_lt_of_lt hfuel))
    rw [compactItems_cons] at hfuel ⊢
    rw [List.length_append, List.length_cons] at hfuel
    have hitem := h item (List.mem_cons_self ..) fuel
      (',' :: (compactItems (next :: items) ++ ']' :: rest)) (by omega) (ends_cons (by decide) _)
    have hitems := ih (fun i hi => h i (List.mem_cons_of_mem _ hi)) fuel (by omega)
    simp [readItems, hitem, skip, isSpace, hitems]

theorem length_compactMember (name : Option String) (value : Json) :
    value.compactChars.length < (compactMember (name, value)).length := by
  rw [compactMember, List.length_append, List.length_cons]
  omega

theorem readMembers_compact {member : Option String × Json} {members : List (Option String × Json)}
    (h : ∀ m ∈ member :: members, ReadsBack m.2) (rest : List Char) (fuel : Nat)
    (hfuel : 2 * (compactMembers (member :: members)).length < fuel) :
    readMembers fuel (compactMembers (member :: members) ++ '\x7d' :: rest) =
      some (member :: members, rest) := by
  induction members generalizing member fuel with
  | nil =>
    obtain ⟨fuel, rfl⟩ := Nat.exists_eq_add_one_of_ne_zero (Nat.ne_of_gt (Nat.zero_lt_of_lt hfuel))
    obtain ⟨name, value⟩ := member
    obtain ⟨body, hbody, hname⟩ := exists_quote name
    have hlength := length_compactMember name value
    rw [compactMembers] at hfuel ⊢
    have hback : ReadsBack value := h (name, value) (List.mem_cons_self ..)
    have hvalue := hback fuel ('\x7d' :: rest) (by omega) (ends_cons (by decide) rest)
    rw [compactMember, hbody]
    simp [readMembers, hname, hvalue, skip, isSpace]
  | cons next members ih =>
    obtain ⟨fuel, rfl⟩ := Nat.exists_eq_add_one_of_ne_zero (Nat.ne_of_gt (Nat.zero_lt_of_lt hfuel))
    obtain ⟨name, value⟩ := member
    obtain ⟨body, hbody, hname⟩ := exists_quote name
    have hlength := length_compactMember name value
    rw [compactMembers_cons] at hfuel ⊢
    rw [List.length_append, List.length_cons] at hfuel
    have hback : ReadsBack value := h (name, value) (List.mem_cons_self ..)
    have hvalue := hback fuel (',' :: (compactMembers (next :: members) ++ '\x7d' :: rest)) (by omega)
      (ends_cons (by decide) _)
    have hmembers := ih (fun m hm => h m (List.mem_cons_of_mem _ hm)) fuel (by omega)
    rw [compactMember, hbody]
    simp [readMembers, hname, hvalue, skip, isSpace, hmembers]

/-- A text that is not empty leaves the reader a call. -/
theorem ReadsBack.of_succ {j : Json} (hne : j.compactChars ≠ [])
    (h : ∀ fuel rest, 2 * j.compactChars.length ≤ fuel + 1 → Ends rest →
      readValue (fuel + 1) (j.compactChars ++ rest) = some (j, rest)) : ReadsBack j := by
  intro fuel rest hfuel hrest
  have hlength : 0 < j.compactChars.length := List.length_pos_iff.2 hne
  obtain ⟨fuel, rfl⟩ := Nat.exists_eq_add_one_of_ne_zero (n := fuel) (by omega)
  exact h fuel rest hfuel hrest

theorem readsBack_array {items : List Json} (hproper : ∀ item ∈ items, Proper item)
    (h : ∀ item ∈ items, ReadsBack item) : ReadsBack (.array items) := by
  refine .of_succ (by simp [compactChars]) fun fuel rest hfuel _ => ?_
  cases items with
  | nil => rfl
  | cons item items =>
    have hread := readItems_compact h rest fuel (by simp [compactChars] at hfuel; omega)
    obtain ⟨c, cs, hcs, hspace, hclose⟩ := (hproper item (List.mem_cons_self ..)).exists_cons
    obtain ⟨tail, htail⟩ : ∃ tail, compactItems (item :: items) = c :: tail := by
      cases items <;> simp [compactItems, hcs]
    rw [htail] at hread
    rw [compactChars, htail]
    simpa [readValue_items hspace hclose] using hread

theorem readsBack_object {members : List (Option String × Json)}
    (h : ∀ member ∈ members, ReadsBack member.2) : ReadsBack (.object members) := by
  refine .of_succ (by simp [compactChars]) fun fuel rest hfuel _ => ?_
  cases members with
  | nil => rfl
  | cons member members =>
    have hread := readMembers_compact h rest fuel (by simp [compactChars] at hfuel; omega)
    obtain ⟨name, value⟩ := member
    obtain ⟨body, hbody, -⟩ := exists_quote name
    obtain ⟨tail, htail⟩ : ∃ tail, compactMembers ((name, value) :: members) = '"' :: tail := by
      cases members <;> simp [compactMembers, compactMember, hbody]
    rw [htail] at hread
    rw [compactChars, htail]
    simpa [readValue_members] using hread

theorem Proper.readsBack {j : Json} (h : Proper j) : ReadsBack j := by
  induction h with
  | null => exact .of_succ (by simp [compactChars]) fun fuel rest _ _ => rfl
  | bool b =>
    cases b with
    | true => exact .of_succ (by simp [compactChars]) fun fuel rest _ _ => rfl
    | false => exact .of_succ (by simp [compactChars]) fun fuel rest _ _ => rfl
  | @number text h =>
    obtain ⟨c, cs, hcs, hc⟩ := exists_head_of_readNumber h
    refine .of_succ (by simp [compactChars, hcs]) fun fuel rest _ hrest => ?_
    have hread := extends_readNumber _ _ _ rest hrest h
    rw [hcs, List.cons_append] at hread
    rw [compactChars, hcs, List.cons_append, readValue_number hc, hread]
    simp [← hcs]
  | string s =>
    obtain ⟨body, hbody, hread⟩ := exists_quote s
    refine .of_succ (by simp [compactChars, hbody]) fun fuel rest _ _ => ?_
    rw [compactChars, hbody]
    simp [readValue, skip, isSpace, hread]
  | array hitems ih => exact readsBack_array hitems ih
  | object hmembers ih => exact readsBack_object ih

theorem ends_nil : Ends [] := fun _ hc => by cases hc

/-- **The compact text of a value reads as that value.** -/
theorem read?_compact {j : Json} (h : Proper j) : read? (compact j) = some j := by
  have hread := h.readsBack (2 * j.compactChars.length + 2) [] (by omega) ends_nil
  rw [List.append_nil] at hread
  rw [read?, compact, String.toList_ofList]
  simp only [hread]
  rfl

end AccumulatorMachine.Json
