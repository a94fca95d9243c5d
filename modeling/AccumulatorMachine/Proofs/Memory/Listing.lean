import AccumulatorMachine.Proofs.Assembly.Edits
import AccumulatorMachine.Proofs.Assembly.RoundTrip
import AccumulatorMachine.Proofs.Memory.Views
import AccumulatorMachine.Proofs.Text.WordForms

/-! # Listings of memory

A listing has a line for every cell, from which the address and the word are read back: the word
stands in the comment, so that words which are no instructions are not lost. Without the addresses
the listing is a source text, and what it assembles to is the instructions of the words.
-/

namespace AccumulatorMachine
set_option autoImplicit false
open Text

/-! ## Cutting at a mark -/

namespace Text

/-- What stands before and after the first occurrence of `mark`, if there is one. -/
def cutAround (mark : List Char) : List Char → Option (List Char × List Char)
  | [] => none
  | c :: cs =>
    if mark.isPrefixOf (c :: cs) then some ([], (c :: cs).drop mark.length)
    else (cutAround mark cs).map fun parts => (c :: parts.1, parts.2)

/-- Before a mark nothing stands that begins like it. -/
theorem cutAround_append {c : Char} {mark before : List Char} (h : c ∉ before) (after : List Char) :
    cutAround (c :: mark) (before ++ (c :: mark ++ after)) = some (before, after) := by
  induction before with
  | nil => simp [cutAround]
  | cons d before ih =>
    simp only [List.mem_cons, not_or] at h
    rw [List.cons_append, cutAround, ih h.2]
    simp [h.1]

theorem ne_of_control {c d : Char} (h : c.toNat < 32) (hd : 32 ≤ d.toNat) : c ≠ d := by
  rintro rfl
  omega

theorem unlines_append (ls ls' : List String) : unlines (ls ++ ls') = unlines ls ++ unlines ls' := by
  simp [unlines, String.join_append]

theorem lines_unlines {ls : List String} (h : ∀ l ∈ ls, '\n' ∉ l.toList ∧ '\r' ∉ l.toList) :
    lines (unlines ls).toList = ls.map String.toList := by
  rw [toList_unlines]
  exact (splits_flatMap (by simpa using h)).lines_eq

end Text

namespace Memory

/-! ## The lines of a listing -/

def headLines : List String := ["# Toy Disassembly", "# ---------------", ""]

theorem lines_headed {ls : List String} (h : ∀ l ∈ ls, '\n' ∉ l.toList ∧ '\r' ∉ l.toList) :
    lines (unlines (headLines ++ ls)).toList = (headLines ++ ls).map String.toList := by
  refine lines_unlines fun l hl => ?_
  rcases List.mem_append.1 hl with hl | hl
  · exact (by decide : ∀ l ∈ headLines, '\n' ∉ l.toList ∧ '\r' ∉ l.toList) l hl
  · exact h l hl

/-- The line of a cell without its address. -/
def notedText (w : Word) : String := padEnd ' ' 10 w.disassembly ++ " # " ++ w.hex

def cellText (a : Nat) (w : Word) : String := decimal4 a ++ ": " ++ notedText w

theorem listingHead_eq : listingHead = unlines headLines := by decide

theorem cellLine_eq (a : Nat) (w : Word) : cellLine a w = cellText a w ++ "\n" := by
  rw [cellLine, cellText, notedText]
  simp only [String.append_assoc]

theorem cellLines_eq_gather (m : Memory) (start count : Nat) :
    m.cellLines start count = m.gather cellLine (List.range' start count) := by
  induction count generalizing start with
  | zero => rfl
  | succ count ih =>
    rw [cellLines, List.range'_succ, gather, ih]

theorem disassembly_eq (m : Memory) (start stop : Nat) :
    m.disassembly start stop =
      if start < stop ∧ m.size < stop then .error (m.faultAt (max start m.size))
      else .ok (unlines (headLines ++
        (List.range' start (stop - start)).map fun a => cellText a (m.word a))) := by
  rw [disassembly, cellLines_eq_gather, gather_eq, find?_range']
  by_cases h : start < stop ∧ m.size < stop
  · rw [if_pos h, if_pos (by omega)]
    rfl
  · rw [if_neg h, if_neg (by omega), unlines_append, ← listingHead_eq]
    simp [unlines, cellLine_eq, Function.comp_def]

theorem exists_toList_notedText (w : Word) : ∃ k, (notedText w).toList =
    w.disassembly.toList ++ List.replicate k ' ' ++ '#' :: ' ' :: w.hex.toList := by
  refine ⟨10 - w.disassembly.toList.length + 1, ?_⟩
  rw [notedText, padEnd, List.rightpad, List.replicate_succ', String.toList_append,
    String.toList_append, String.toList_ofList]
  simp

theorem toList_cellText (a : Nat) (w : Word) :
    (cellText a w).toList = (decimal4 a).toList ++ ':' :: ' ' :: (notedText w).toList := by
  simp [cellText, String.toList_append]

theorem not_mem_disassembly {c : Char} (h : c ≠ ' ' ∧ ¬(48 ≤ c.toNat ∧ c.toNat ≤ 90)) (w : Word) :
    c ∉ w.disassembly.toList :=
  (Instruction.decode w).not_mem_text ⟨h.1, by omega, by omega⟩

theorem not_mem_notedText {c : Char} (h : c.toNat < 32) (w : Word) : c ∉ (notedText w).toList := by
  obtain ⟨k, htext⟩ := exists_toList_notedText w
  have hblank : c ≠ ' ' := ne_of_control h (by decide)
  have hmark : c ≠ '#' := ne_of_control h (by decide)
  have hword : c ∉ w.disassembly.toList := not_mem_disassembly ⟨hblank, by omega⟩ w
  have hhex : c ∉ w.hex.toList := by
    intro hc
    have hread : w.IsHex w.hex.toList := Word.isHex_iff.2 rfl
    have hle := hread.2.toNat_le (Nat.le_refl 16) c hc
    omega
  rw [htext]
  simp [hblank, hmark, hword, hhex]

theorem not_mem_cellText {c : Char} (h : c.toNat < 32) (a : Nat) (w : Word) :
    c ∉ (cellText a w).toList := by
  have hblank : c ≠ ' ' := ne_of_control h (by decide)
  have hmark : c ≠ ':' := ne_of_control h (by decide)
  have hdigits := not_mem_decimal4 (c := c) (by omega) a
  rw [toList_cellText]
  simp [hblank, hmark, hdigits, not_mem_notedText h w]

/-! ## Reading a line -/

/-- The line gives the address `a` before the first colon with a blank, and in the comment the four
digits of `w`. -/
def TellsCell (line : String) (a : Nat) (w : Word) : Prop :=
  ∃ address source front digits,
    cutAround [':', ' '] line.toList = some (address, source) ∧ IsNumeral 10 address a ∧
      cutAround ['#', ' '] line.toList = some (front, digits) ∧ w.IsHex digits

theorem cutAround_address (a : Nat) (w : Word) :
    cutAround [':', ' '] (cellText a w).toList =
      some ((decimal4 a).toList, (notedText w).toList) := by
  rw [toList_cellText]
  exact cutAround_append (not_mem_decimal4 (by decide) a) _

theorem exists_cutAround_comment (a : Nat) (w : Word) : ∃ front,
    cutAround ['#', ' '] (cellText a w).toList = some (front, w.hex.toList) := by
  obtain ⟨k, htext⟩ := exists_toList_notedText w
  refine ⟨(decimal4 a).toList ++ ':' :: ' ' :: (w.disassembly.toList ++ List.replicate k ' '), ?_⟩
  have hline : (cellText a w).toList =
      ((decimal4 a).toList ++ ':' :: ' ' :: (w.disassembly.toList ++ List.replicate k ' ')) ++
        (['#', ' '] ++ w.hex.toList) := by
    rw [toList_cellText, htext]
    simp
  rw [hline]
  refine cutAround_append ?_ _
  have hdigits : '#' ∉ (decimal4 a).toList := not_mem_decimal4 (by decide) a
  have hword : '#' ∉ w.disassembly.toList := not_mem_disassembly (by decide) w
  simp [hdigits, hword]

theorem tellsCell_iff {a b : Nat} {v w : Word} : TellsCell (cellText a v) b w ↔ b = a ∧ w = v := by
  obtain ⟨front, hcomment⟩ := exists_cutAround_comment a v
  have hdigits := isNumeral_decimal4 a
  constructor
  · rintro ⟨address, source, front', digits, haddress, hb, hdigits', hw⟩
    rw [cutAround_address, Option.some.injEq, Prod.mk.injEq] at haddress
    rw [hcomment, Option.some.injEq, Prod.mk.injEq] at hdigits'
    rw [← haddress.1, ← numeral?_eq_some_iff (by decide)] at hb
    rw [← numeral?_eq_some_iff (by decide), hb] at hdigits
    rw [← hdigits'.2] at hw
    exact ⟨Option.some.inj hdigits, Word.isHex_iff.1 hw⟩
  · rintro ⟨rfl, rfl⟩
    exact ⟨_, _, front, _, cutAround_address b w, hdigits, hcomment, Word.isHex_iff.2 rfl⟩

/-! ## The listing as a source text -/

/-- The line after the first colon with a blank, or all of it if there is none. -/
def withoutAddress (line : String) : String :=
  match cutAround [':', ' '] line.toList with
  | some parts => String.ofList parts.2
  | none => line

theorem withoutAddress_cellText (a : Nat) (w : Word) : withoutAddress (cellText a w) = notedText w := by
  simp only [withoutAddress, cutAround_address, String.ofList_toList]

theorem code_notedText (w : Word) :
    Assembly.code (notedText w).toList = Assembly.code w.disassembly.toList := by
  obtain ⟨k, htext⟩ := exists_toList_notedText w
  have hgap : Blanks (List.replicate k ' ') := by
    intro c hc
    rw [List.eq_of_mem_replicate hc]
    decide
  have hcode : Assembly.IsCode w.disassembly.toList (Assembly.code w.disassembly.toList) :=
    Assembly.isCode_iff.2 rfl
  rw [htext]
  exact Assembly.isCode_iff.1 ((hcode.trail hgap).comment (' ' :: w.hex.toList))

theorem lines_disassembly (ws : List Word) :
    lines (unlines (ws.map Word.disassembly)).toList =
      (ws.map Word.disassembly).map String.toList := by
  refine lines_unlines fun l hl => ?_
  obtain ⟨w, -, rfl⟩ := List.mem_map.1 hl
  exact ⟨not_mem_disassembly (by decide) w, not_mem_disassembly (by decide) w⟩

theorem lines_noted (ws : List Word) :
    lines (unlines (headLines ++ ws.map notedText)).toList =
      headLines.map String.toList ++ (ws.map notedText).map String.toList := by
  rw [lines_headed, List.map_append]
  intro l hl
  obtain ⟨w, -, rfl⟩ := List.mem_map.1 hl
  exact ⟨not_mem_notedText (by decide) w, not_mem_notedText (by decide) w⟩

theorem substance_head : Assembly.substance (headLines.map String.toList) = [] := by
  refine Assembly.substance_eq_nil ?_
  decide

open Assembly in
theorem substance_listing (ws : List Word) :
    substance (lines (unlines (ws.map Word.disassembly)).toList) =
      substance (lines (unlines (headLines ++ ws.map notedText)).toList) := by
  have hessence (w : Word) : essence (notedText w).toList = essence w.disassembly.toList := by
    rw [essence, code_notedText, essence]
  have hsame : ((ws.map Word.disassembly).map String.toList).map essence =
      ((ws.map notedText).map String.toList).map essence := by
    simp [hessence]
  rw [lines_disassembly, lines_noted, substance_append, substance_head, List.nil_append, substance,
    hsame, substance]

theorem assemble_listing {ws : List Word} (h : ws.length ≤ fullSize) :
    Program.assemble (unlines (headLines ++ ws.map notedText)) fullSize =
      .ok { instructions := ws.map Instruction.decode } := by
  have hplain := Assembly.assemble_eq_ok_iff.1 (Program.assemble_disassembly h)
  have hsame := substance_listing ws
  have hnoted := Assembly.assembles_of_substance hsame hplain
  rw [Assembly.assemble_eq_ok_iff]
  exact hnoted

/-! ## The whole listing -/

/-- **A listing loses nothing and is source.** It fails at the first address without a cell, whose
number a fault shows as it is below 2^63. Otherwise its lines tell the cells of the range, each with
its word, and without the addresses they assemble to the instructions of the words. -/
theorem listing_exact (m : Memory) (start stop : Nat) :
    ((∃ e, m.disassembly start stop = .error e) ↔ start < stop ∧ m.size < stop) ∧
    (∀ e, stop < UInt64.size → m.disassembly start stop = .error e →
      e = ⟨shownAddress (max start m.size), m.size⟩ ∧
        (e.address = (max start m.size : Nat) ↔ max start m.size < signLimit)) ∧
    ∀ text, m.disassembly start stop = .ok text → ∃ cells,
      text = unlines (headLines ++ cells) ∧
      lines text.toList = (headLines ++ cells).map String.toList ∧
      List.Forall₂ (fun a line => ∃ w, m.read a = .ok w ∧ ∀ b v, TellsCell line b v ↔ b = a ∧ v = w)
        (List.range' start (stop - start)) cells ∧
      (cells.length ≤ fullSize → ∃ p,
        Program.assemble (unlines (headLines ++ cells.map withoutAddress)) fullSize = .ok p ∧
        List.Forall₂ (fun a i => ∃ w, m.read a = .ok w ∧ i = Instruction.decode w)
          (List.range' start (stop - start)) p.instructions ∧
        p.data = [] ∧ p.symbols = []) := by
  rw [disassembly_eq]
  split
  · next h =>
    refine ⟨iff_of_true ⟨_, rfl⟩ h, fun e h64 he => ?_, fun text htext => by cases htext⟩
    obtain rfl := Except.error.inj he
    rw [faultAt_eq m (show max start m.size < UInt64.size by omega)]
    exact ⟨rfl, shownAddress_eq_iff⟩
  · next h =>
    have hread : ∀ a ∈ List.range' start (stop - start), m.read a = .ok (m.word a) := by
      intro a ha
      rw [List.mem_range'_1] at ha
      rw [read_eq, if_pos (by omega)]
    refine ⟨iff_of_false (by simp) h, fun e _ he => (by cases he), fun text htext => ?_⟩
    obtain rfl := Except.ok.inj htext
    refine ⟨_, rfl, lines_headed fun l hl => ?_, ?_, fun hlength =>
      ⟨{ instructions := ((List.range' start (stop - start)).map m.word).map Instruction.decode },
        ?_, ?_, rfl, rfl⟩⟩
    · obtain ⟨a, -, rfl⟩ := List.mem_map.1 hl
      exact ⟨not_mem_cellText (by decide) a _, not_mem_cellText (by decide) a _⟩
    · rw [List.forall₂_map_right_iff, List.forall₂_same]
      exact fun a ha => ⟨m.word a, hread a ha, fun b v => tellsCell_iff⟩
    · have hcut : ((List.range' start (stop - start)).map fun a => cellText a (m.word a)).map
          withoutAddress = ((List.range' start (stop - start)).map m.word).map notedText := by
        simp [withoutAddress_cellText]
      rw [List.length_map, ← List.length_map m.word] at hlength
      rw [hcut]
      exact assemble_listing hlength
    · rw [List.map_map, List.forall₂_map_right_iff, List.forall₂_same]
      exact fun a ha => ⟨m.word a, hread a ha, rfl⟩

/-- An instruction, and a word of which only the first four bits count. -/
def twoWords : Memory := ⟨#[0x1003, 0xF123]⟩

theorem listing_exact_of_two_words :
    (∃ e, twoWords.disassembly 1 9 = .error e ∧ e.address = 2) ∧
      ∃ cells p, twoWords.disassembly 0 2 = .ok (unlines (headLines ++ cells)) ∧
        (∀ line ∈ cells[1]?, ∀ v, TellsCell line 1 v ↔ v = 0xF123) ∧
        Program.assemble (unlines (headLines ++ cells.map withoutAddress)) fullSize = .ok p ∧
        p.instructions = [.lda 3, .nop] := by
  obtain ⟨hfails, hfault, -⟩ := listing_exact twoWords 1 9
  obtain ⟨e, he⟩ := hfails.2 (by decide)
  obtain ⟨-, haddress⟩ := hfault e (by decide) he
  obtain ⟨-, -, hlisting⟩ := listing_exact twoWords 0 2
  have hlists : twoWords.disassembly 0 2 = .ok (unlines (headLines ++
      ["0000: LDA 3      # 1003", "0001: NOP        # F123"])) := by decide
  obtain ⟨cells, htext, -, hcells, hsource⟩ := hlisting _ hlists
  obtain ⟨first, rest, -, hrest, rfl⟩ := List.forall₂_cons_left_iff.1 hcells
  obtain ⟨second, none, ⟨w, hw, htells⟩, hnone, rfl⟩ := List.forall₂_cons_left_iff.1 hrest
  obtain rfl := List.forall₂_nil_left_iff.1 hnone
  obtain ⟨p, hp, hinstructions, -, -⟩ := hsource (by decide : (2 : Nat) ≤ fullSize)
  obtain ⟨i, is, ⟨v, hv, rfl⟩, his, hp'⟩ := List.forall₂_cons_left_iff.1 hinstructions
  obtain ⟨j, none, ⟨v', hv', rfl⟩, hnone, rfl⟩ := List.forall₂_cons_left_iff.1 his
  obtain rfl := List.forall₂_nil_left_iff.1 hnone
  obtain rfl : (0x1003 : Word) = v := Except.ok.inj hv
  obtain rfl : (0xF123 : Word) = v' := Except.ok.inj hv'
  obtain rfl : (0xF123 : Word) = w := Except.ok.inj hw
  refine ⟨⟨e, he, haddress.2 (by decide)⟩, _, p, ?_, ?_, hp, hp'⟩
  · rw [hlists, htext]
  · intro line hline v
    obtain rfl := Option.some.inj hline
    simpa using htells 1 v

/-- The range starts at 2^63, but the fault names a negative number. -/
theorem listing_fault_negative :
    ∃ e, (zeros 1).disassembly 9223372036854775808 9223372036854775809 = .error e ∧
      e.address ≠ (9223372036854775808 : Nat) ∧
      e.message = "memory address -9223372036854775808 out of range (memory size 1)" :=
  ⟨⟨-9223372036854775808, 1⟩, rfl, by decide, rfl⟩

end Memory
end AccumulatorMachine
