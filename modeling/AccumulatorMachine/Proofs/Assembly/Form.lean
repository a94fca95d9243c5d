import AccumulatorMachine.Assembly.Line
import AccumulatorMachine.Proofs.Assembly.Token
import AccumulatorMachine.Proofs.Text.Layout

/-! # The grammar of lines

The forms of a line as a relation between its text and what it says: `IsCommand` for instructions,
`IsForm` for the part of a line that counts, `IsLine` for a line with its comment and its blanks.
Main statement: `readLine_eq_some_iff`, a line is read exactly as the grammar allows, so it has at
most one meaning (`IsLine.unique`).
-/

namespace AccumulatorMachine.Assembly
set_option autoImplicit false
open Text

/-! ## The grammar -/

/-- `cs` writes `x` in the way of `P`, with blanks at its ends or none. -/
def Padded {α : Type} (P : List Char → α → Prop) (cs : List Char) (x : α) : Prop :=
  ∃ t, Trims cs t ∧ P t x

/-- `cs` writes the mnemonic of `k`, in letters of either case. -/
def IsMnemonic (cs : List Char) (k : Kind) : Prop := cs.map Char.toUpper = k.mnemonic.toList

/-- `cs` writes the instruction `c`: a mnemonic, and after blanks an operand exactly if the kind has
an address. -/
inductive IsCommand : List Char → Command → Prop
  | bare {cs : List Char} {k : Kind} :
      IsMnemonic cs k → k.hasAddress = false → IsCommand cs ⟨k, none⟩
  | addressed {m gap t : List Char} {k : Kind} {o : Operand} :
      IsMnemonic m k → k.hasAddress = true → gap ≠ [] → Blanks gap → IsOperand t o →
      IsCommand (m ++ gap ++ t) ⟨k, some o⟩

/-- The part of a line that counts says `l`. A leading colon decides for a data directive, else the
first equals sign for a constant, else the first colon for a label. -/
inductive IsForm : List Char → Line → Prop
  | blank : IsForm [] .blank
  | data {a v : List Char} {x y : Operand} :
      ':' ∉ a → Padded IsOperand a x → Padded IsOperand v y →
      IsForm (':' :: (a ++ ':' :: v)) (.data x y)
  | constant {n v : List Char} {s : String} {x : Operand} :
      n.head? ≠ some ':' → '=' ∉ n → Padded IsName n s → Padded IsOperand v x →
      IsForm (n ++ '=' :: v) (.constant s x)
  | label {n r : List Char} {s : String} :
      '=' ∉ n ++ ':' :: r → ':' ∉ n → Padded IsName n s → Blanks r →
      IsForm (n ++ ':' :: r) (.label s none)
  | labelled {n r : List Char} {s : String} {c : Command} :
      '=' ∉ n ++ ':' :: r → ':' ∉ n → Padded IsName n s → Padded IsCommand r c →
      IsForm (n ++ ':' :: r) (.label s (some c))
  | command {cs : List Char} {c : Command} :
      '=' ∉ cs → ':' ∉ cs → IsCommand cs c → IsForm cs (.command c)

/-- `cs` is the part of `text` that counts: what stands before the first `#`, without the blanks at
its ends. -/
def IsCode (text cs : List Char) : Prop :=
  ∃ before comment, text = before ++ comment ∧ '#' ∉ before ∧ (∀ c ∈ comment.head?, c = '#') ∧
    Trims before cs

/-- The line with this text says `l`. -/
def IsLine (text : List Char) (l : Line) : Prop := ∃ cs, IsCode text cs ∧ IsForm cs l

/-! ## Padding and comments -/

theorem padded_iff {α : Type} {P : List Char → α → Prop} {cs : List Char} {x : α} :
    Padded P cs x ↔ P (trim cs) x := by
  simp [Padded, trims_iff]

theorem isCode_iff {text cs : List Char} : IsCode text cs ↔ code text = cs := by
  constructor
  · rintro ⟨before, comment, rfl, hbefore, hcomment, htrim⟩
    have hkeep : ∀ c ∈ before, decide (c ≠ '#') = true := by
      intro c hc
      rw [decide_eq_true_eq]
      rintro rfl
      exact hbefore hc
    have hstop : comment.takeWhile (· ≠ '#') = [] := by
      cases comment with
      | nil => rfl
      | cons c _ => exact List.takeWhile_cons_of_neg (by simp [hcomment c rfl])
    rw [code, List.takeWhile_append_of_pos hkeep, hstop, List.append_nil]
    exact htrim.trim_eq
  · rintro rfl
    refine ⟨text.takeWhile (· ≠ '#'), text.dropWhile (· ≠ '#'), ?_, ?_, ?_, trims_trim _⟩
    · exact List.takeWhile_append_dropWhile.symm
    · intro hmem
      simpa using List.all_eq_true.1 List.all_takeWhile _ hmem
    · intro c hc
      have hhead := List.head?_dropWhile_not (· ≠ '#') text
      rw [Option.mem_def.1 hc] at hhead
      simpa using hhead

/-! ## Mnemonics -/

theorem toUpper_of_isBlank {c : Char} (h : isBlank c = true) : c.toUpper = c := by
  rw [isBlank_iff_toNat] at h
  have hval : c.val.toNat = c.toNat := rfl
  have hnot : ¬('a'.val ≤ c.val ∧ c.val ≤ 'z'.val) := by
    rw [UInt32.le_iff_toNat_le, UInt32.le_iff_toNat_le, hval,
      show 'a'.val.toNat = 97 from rfl, show 'z'.val.toNat = 122 from rfl]
    simp [blankRanges] at h
    omega
  exact dif_neg hnot

theorem mem_mnemonic {k : Kind} {c : Char} (h : c ∈ k.mnemonic.toList) :
    65 ≤ c.toNat ∧ c.toNat ≤ 90 := by
  have hall : (k.mnemonic.toList.all fun c => decide (65 ≤ c.toNat ∧ c.toNat ≤ 90)) = true := by
    cases k with
    | alu op => cases op <;> decide
    | accu op => cases op <;> decide
    | _ => decide
  exact of_decide_eq_true (List.all_eq_true.1 hall c h)

theorem not_blank_mnemonic (k : Kind) : ∀ c ∈ k.mnemonic.toList, isBlank c = false := by
  intro c hc
  have hcapital := mem_mnemonic hc
  exact isBlank_eq_false (by omega) (by omega)

theorem map_toUpper_mnemonic (k : Kind) : k.mnemonic.toList.map Char.toUpper = k.mnemonic.toList := by
  cases k with
  | alu op => cases op <;> decide
  | accu op => cases op <;> decide
  | _ => decide

theorem IsMnemonic.not_blank {cs : List Char} {k : Kind} (h : IsMnemonic cs k) :
    ∀ c ∈ cs, isBlank c = false := by
  intro c hc
  rw [← Bool.not_eq_true]
  intro hblank
  -- capitals do not change a blank, so it would stand in the mnemonic itself
  have hmem : c ∈ k.mnemonic.toList := by
    rw [← h, ← toUpper_of_isBlank hblank]
    exact List.mem_map_of_mem hc
  rw [not_blank_mnemonic k c hmem] at hblank
  exact Bool.false_ne_true hblank

theorem IsMnemonic.ne_nil {cs : List Char} {k : Kind} (h : IsMnemonic cs k) : cs ≠ [] := by
  rintro rfl
  have hlen : k.mnemonic.toList = [] := h.symm
  revert hlen
  cases k with
  | alu op => cases op <;> decide
  | accu op => cases op <;> decide
  | _ => decide

theorem ofMnemonic?_eq_some_iff {cs : List Char} {k : Kind} :
    Kind.ofMnemonic? (String.ofList cs) = some k ↔ IsMnemonic cs k := by
  constructor
  · intro h
    have hfound := List.find?_some h
    rw [beq_iff_eq, String.toList_ofList] at hfound
    exact hfound.symm
  · intro h
    have hsame : Kind.ofMnemonic? (String.ofList cs) = Kind.ofMnemonic? k.mnemonic := by
      rw [Kind.ofMnemonic?, Kind.ofMnemonic?, String.toList_ofList, map_toUpper_mnemonic, h]
    rw [hsame, Kind.ofMnemonic?_mnemonic]

/-! ## Instructions -/

theorem readCommand_append {m rest : List Char} (hm : ∀ c ∈ m, isBlank c = false)
    (hrest : ∀ c ∈ rest.head?, isBlank c = true) :
    (m ++ rest).takeWhile (!isBlank ·) = m ∧ (m ++ rest).dropWhile (!isBlank ·) = rest := by
  have hkeep : ∀ c ∈ m, (!isBlank c) = true := fun c hc => by rw [hm c hc, Bool.not_false]
  rw [List.takeWhile_append_of_pos hkeep, List.dropWhile_append_of_pos hkeep]
  cases rest with
  | nil => simp
  | cons c cs => simp [hrest c rfl]

theorem IsCommand.readCommand_eq {cs : List Char} {c : Command} (h : IsCommand cs c) :
    readCommand cs = some c := by
  cases h with
  | @bare _ k hm hk =>
    have hcut : (cs ++ []).takeWhile (!isBlank ·) = cs ∧ (cs ++ []).dropWhile (!isBlank ·) = [] :=
      readCommand_append hm.not_blank (by simp)
    rw [List.append_nil] at hcut
    rw [readCommand, hcut.1, hcut.2, ofMnemonic?_eq_some_iff.2 hm]
    simp [hk]
  | @addressed m gap t k o hm hk hgap hblank ht =>
    have hhead : ∀ c ∈ (gap ++ t).head?, isBlank c = true := by
      intro c hc
      rw [List.head?_append_of_ne_nil _ hgap] at hc
      exact hblank c (List.mem_of_mem_head? hc)
    have hcut := readCommand_append hm.not_blank hhead
    have htrim : trim (gap ++ t) = t :=
      Trims.trim_eq ⟨gap, [], by simp, hblank, by simp [Blanks], Tight.of_forall ht.not_blank⟩
    rw [List.append_assoc, readCommand, hcut.1, hcut.2, ofMnemonic?_eq_some_iff.2 hm, htrim]
    simp [hk, readOperand_eq_some_iff.2 ht]

theorem isCommand_of_readCommand {cs : List Char} {c : Command} (htight : Tight cs)
    (h : readCommand cs = some c) : IsCommand cs c := by
  have hsplit : cs.takeWhile (!isBlank ·) ++ cs.dropWhile (!isBlank ·) = cs :=
    List.takeWhile_append_dropWhile
  have hstop := List.head?_dropWhile_not (!isBlank ·) cs
  simp only [readCommand, Option.bind_eq_bind, Option.bind_eq_some_iff] at h
  obtain ⟨k, hk, h⟩ := h
  have hm := ofMnemonic?_eq_some_iff.1 hk
  obtain ⟨gap, after, hrest, hgap, hafter, ht⟩ := trims_trim (cs.dropWhile (!isBlank ·))
  rw [hrest, ← List.append_assoc] at hsplit
  obtain rfl : after = [] := Tight.eq_nil_of_append (hsplit ▸ htight) hafter
  rw [List.append_nil] at hrest hsplit
  cases hka : k.hasAddress with
  | true =>
    simp only [hka, ↓reduceIte, Option.pure_def, Option.bind_eq_some_iff, Option.some.injEq] at h
    obtain ⟨o, ho, rfl⟩ := h
    have hoperand := readOperand_eq_some_iff.1 ho
    have hgap0 : gap ≠ [] := by
      rintro rfl
      -- without a gap the operand would still belong to the mnemonic
      rw [List.nil_append] at hrest
      rw [hrest] at hstop
      cases hhead : (trim (cs.dropWhile (!isBlank ·))).head? with
      | none => exact hoperand.ne_nil (List.head?_eq_none_iff.1 hhead)
      | some b =>
        rw [hhead] at hstop
        simp [ht.head b hhead] at hstop
    rw [← hsplit, ← List.append_assoc]
    exact .addressed hm hka hgap0 hgap hoperand
  | false =>
    simp only [hka, Bool.false_eq_true, ↓reduceIte, Option.ite_none_right_eq_some,
      List.isEmpty_iff, Option.pure_def, Option.some.injEq] at h
    obtain ⟨hempty, rfl⟩ := h
    rw [hempty, List.append_nil] at hsplit
    obtain rfl : gap = [] := Tight.eq_nil_of_append (hsplit ▸ htight) hgap
    rw [List.append_nil] at hsplit
    rw [← hsplit]
    exact .bare hm hka

theorem readCommand_eq_some_iff {cs : List Char} {c : Command} (htight : Tight cs) :
    readCommand cs = some c ↔ IsCommand cs c :=
  ⟨isCommand_of_readCommand htight, IsCommand.readCommand_eq⟩

theorem IsCommand.ne_nil {cs : List Char} {c : Command} (h : IsCommand cs c) : cs ≠ [] := by
  cases h with
  | bare hm => exact hm.ne_nil
  | addressed hm _ hgap _ ht => simp [hgap]

/-! ## Lines -/

theorem readData_eq_some_iff {cs : List Char} {l : Line} :
    readData cs = some l ↔ ∃ a v x y, cs = a ++ ':' :: v ∧ ':' ∉ a ∧ Padded IsOperand a x ∧
      Padded IsOperand v y ∧ l = .data x y := by
  simp only [readData, Option.bind_eq_bind, Option.bind_eq_some_iff, Option.pure_def,
    Option.some.injEq, readOperand_eq_some_iff, Prod.exists, padded_iff]
  constructor
  · rintro ⟨a, v, hcut, x, hx, y, hy, rfl⟩
    obtain ⟨rfl, ha⟩ := eq_append_of_cutAt hcut
    exact ⟨a, v, x, y, rfl, ha, hx, hy, rfl⟩
  · rintro ⟨a, v, x, y, rfl, ha, hx, hy, rfl⟩
    exact ⟨a, v, cutAt_append ha, x, hx, y, hy, rfl⟩

theorem readConstant_eq_some_iff {n v : List Char} {l : Line} :
    readConstant n v = some l ↔
      ∃ s x, Padded IsName n s ∧ Padded IsOperand v x ∧ l = .constant s x := by
  simp only [readConstant, Option.bind_eq_bind, Option.bind_eq_some_iff, Option.pure_def,
    Option.some.injEq, readOperand_eq_some_iff, readName_eq_some_iff, padded_iff]
  constructor
  · rintro ⟨s, hs, x, hx, rfl⟩
    exact ⟨s, x, hs, hx, rfl⟩
  · rintro ⟨s, x, hs, hx, rfl⟩
    exact ⟨s, hs, x, hx, rfl⟩

theorem readLabel_eq_some_iff {n r : List Char} {l : Line} :
    readLabel n r = some l ↔ ∃ s, Padded IsName n s ∧
      (Blanks r ∧ l = .label s none ∨ ∃ c, Padded IsCommand r c ∧ l = .label s (some c)) := by
  have hblanks : Blanks r ↔ trim r = [] := by
    refine ⟨trim_blanks, fun h => ?_⟩
    obtain ⟨before, after, hr, hb, ha, -⟩ := trims_trim r
    rw [h, List.append_nil] at hr
    rw [hr]
    intro c hc
    exact (List.mem_append.1 hc).elim (hb c) (ha c)
  simp only [readLabel, Option.bind_eq_bind, Option.bind_eq_some_iff, readName_eq_some_iff,
    padded_iff, hblanks]
  refine exists_congr fun s => and_congr_right fun _ => ?_
  cases hr : trim r with
  | nil =>
    have hno (c : Command) : ¬IsCommand [] c := fun hc => hc.ne_nil rfl
    simp [hno, eq_comm]
  | cons c cs =>
    have htight : Tight (c :: cs) := hr ▸ tight_trim r
    simp only [reduceCtorEq, false_and, false_or, Option.bind_eq_some_iff, Option.pure_def,
      Option.some.injEq, readCommand_eq_some_iff htight, eq_comm (b := l)]

theorem readCode_of_not_data {cs : List Char} (h0 : cs ≠ []) (h : cs.head? ≠ some ':') :
    readCode cs =
      match cutAt '=' cs with
      | some (name, value) => readConstant name value
      | none =>
        match cutAt ':' cs with
        | some (name, rest) => readLabel name rest
        | none => (readCommand cs).map .command := by
  unfold readCode
  split
  · exact absurd rfl h0
  · simp at h
  · rfl

theorem Padded.ne_nil {n : List Char} {s : String} (h : Padded IsName n s) : n ≠ [] := by
  rintro rfl
  rw [padded_iff, trim_nil] at h
  obtain ⟨_, _, heq, -⟩ := h
  exact List.cons_ne_nil _ _ heq.symm

theorem Padded.head?_ne_colon {n : List Char} {s : String} (h : Padded IsName n s) (hn : ':' ∉ n)
    (r : List Char) : (n ++ ':' :: r).head? ≠ some ':' := by
  rw [List.head?_append_of_ne_nil _ h.ne_nil]
  exact fun hc => hn (List.mem_of_mem_head? hc)

theorem IsForm.readCode_eq {cs : List Char} {l : Line} (htight : Tight cs) (h : IsForm cs l) :
    readCode cs = some l := by
  cases h with
  | blank => rfl
  | data ha hx hy => exact readData_eq_some_iff.2 ⟨_, _, _, _, rfl, ha, hx, hy, rfl⟩
  | @constant n v s x hn heq hs hx =>
    have hhead : (n ++ '=' :: v).head? ≠ some ':' := by
      rwa [List.head?_append_of_ne_nil _ hs.ne_nil]
    rw [readCode_of_not_data (by simp) hhead, cutAt_append heq]
    exact readConstant_eq_some_iff.2 ⟨s, x, hs, hx, rfl⟩
  | @label n r s heq hn hs hr =>
    rw [readCode_of_not_data (by simp) (hs.head?_ne_colon hn r), cutAt_eq_none_iff.2 heq,
      cutAt_append hn]
    exact readLabel_eq_some_iff.2 ⟨s, hs, .inl ⟨hr, rfl⟩⟩
  | @labelled n r s c heq hn hs hc =>
    rw [readCode_of_not_data (by simp) (hs.head?_ne_colon hn r), cutAt_eq_none_iff.2 heq,
      cutAt_append hn]
    exact readLabel_eq_some_iff.2 ⟨s, hs, .inr ⟨c, hc, rfl⟩⟩
  | command heq hn hc =>
    have hhead : cs.head? ≠ some ':' := fun hc => hn (List.mem_of_mem_head? hc)
    rw [readCode_of_not_data hc.ne_nil hhead, cutAt_eq_none_iff.2 heq, cutAt_eq_none_iff.2 hn]
    exact Option.map_eq_some_iff.2 ⟨_, hc.readCommand_eq, rfl⟩

theorem isForm_of_readCode {cs : List Char} {l : Line} (htight : Tight cs)
    (h : readCode cs = some l) : IsForm cs l := by
  by_cases h0 : cs = []
  · subst h0
    cases h
    exact .blank
  by_cases hhead : cs.head? = some ':'
  · obtain ⟨rest, rfl⟩ := List.head?_eq_some_iff.1 hhead
    obtain ⟨a, v, x, y, rfl, ha, hx, hy, rfl⟩ := readData_eq_some_iff.1 h
    exact .data ha hx hy
  rw [readCode_of_not_data h0 hhead] at h
  cases heq : cutAt '=' cs with
  | some parts =>
    obtain ⟨n, v⟩ := parts
    rw [heq] at h
    obtain ⟨rfl, hn⟩ := eq_append_of_cutAt heq
    obtain ⟨s, x, hs, hx, rfl⟩ := readConstant_eq_some_iff.1 h
    rw [List.head?_append_of_ne_nil _ hs.ne_nil] at hhead
    exact .constant hhead hn hs hx
  | none =>
    rw [heq] at h
    have hno := cutAt_eq_none_iff.1 heq
    cases hcolon : cutAt ':' cs with
    | some parts =>
      obtain ⟨n, r⟩ := parts
      rw [hcolon] at h
      obtain ⟨rfl, hn⟩ := eq_append_of_cutAt hcolon
      obtain ⟨s, hs, ⟨hr, rfl⟩ | ⟨c, hc, rfl⟩⟩ := readLabel_eq_some_iff.1 h
      · exact .label hno hn hs hr
      · exact .labelled hno hn hs hc
    | none =>
      rw [hcolon] at h
      obtain ⟨c, hc, rfl⟩ := Option.map_eq_some_iff.1 h
      exact .command hno (cutAt_eq_none_iff.1 hcolon) (isCommand_of_readCommand htight hc)

/-- A line is read exactly as the grammar allows. -/
theorem readLine_eq_some_iff {text : List Char} {l : Line} :
    readLine text = some l ↔ IsLine text l := by
  have htight : Tight (code text) := tight_trim _
  rw [readLine]
  constructor
  · exact fun h => ⟨code text, isCode_iff.2 rfl, isForm_of_readCode htight h⟩
  · rintro ⟨cs, hcs, hl⟩
    obtain rfl := isCode_iff.1 hcs
    exact hl.readCode_eq htight

theorem IsLine.unique {text : List Char} {l l' : Line} (h : IsLine text l) (h' : IsLine text l') :
    l = l' := by
  have hl := readLine_eq_some_iff.2 h
  rw [readLine_eq_some_iff.2 h'] at hl
  exact (Option.some.inj hl).symm

end AccumulatorMachine.Assembly
