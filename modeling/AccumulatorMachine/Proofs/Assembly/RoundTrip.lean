import AccumulatorMachine.Assembly.Listing
import AccumulatorMachine.Proofs.Assembly.Image
import AccumulatorMachine.Proofs.Instruction.Encoding
import AccumulatorMachine.Proofs.Text.Decimal

/-! # Programs written as text

The instructions of a program, one a line, and its data as directives after them are a source text
again. It has no names, and it assembles to the same instructions and data (`assembles_written`).
-/

namespace AccumulatorMachine
set_option autoImplicit false
open Text Assembly

namespace Text

/-- The text of these lines, each with its end. -/
def unlines (ls : List String) : String := String.join (ls.map (· ++ "\n"))

theorem unlines_cons (l : String) (ls : List String) :
    unlines (l :: ls) = l ++ "\n" ++ unlines ls := by
  rw [unlines, List.map_cons, String.join_cons]
  rfl

theorem toList_unlines (ls : List String) :
    (unlines ls).toList = (ls.map String.toList).flatMap (· ++ ['\n']) := by
  rw [unlines, String.toList_join, List.flatMap_map, List.flatMap_map]
  refine List.flatMap_congr fun l _ => ?_
  rw [String.toList_append]
  rfl

end Text

/-! ## The line of an instruction -/

namespace Instruction

def command (i : Instruction) : Command := ⟨i.kind, i.operand?.map fun a => .number a.toNat⟩

theorem operand?_isSome (i : Instruction) : i.operand?.isSome = i.kind.hasAddress := by
  cases i <;> rfl

theorem toList_text {i : Instruction} {a : Word} (h : i.operand? = some a) :
    i.text.toList = i.kind.mnemonic.toList ++ [' '] ++ (toString a.toNat).toList := by
  rw [text, h, String.toList_append, String.toList_append]
  rfl

theorem isCommand_text (i : Instruction) : IsCommand i.text.toList i.command := by
  have hmnemonic : IsMnemonic i.kind.mnemonic.toList i.kind := map_toUpper_mnemonic i.kind
  have hsome := i.operand?_isSome
  rw [command]
  cases h : i.operand? with
  | none =>
    rw [h] at hsome
    rw [text, h]
    exact .bare hmnemonic hsome.symm
  | some a =>
    rw [h] at hsome
    rw [toList_text h]
    have hlt : a.toNat < magnitudeLimit := Nat.lt_trans a.toNat_lt (by decide)
    have hgap : Blanks [' '] := by
      rw [Blanks, List.forall_mem_singleton]
      decide
    exact .addressed hmnemonic hsome.symm (by decide) hgap
      (.number (.plain (.decimal (isNumeral_toString a.toNat)) hlt))

theorem not_mem_text {c : Char} (i : Instruction)
    (h : c ≠ ' ' ∧ ¬(48 ≤ c.toNat ∧ c.toNat ≤ 57) ∧ ¬(65 ≤ c.toNat ∧ c.toNat ≤ 90)) :
    c ∉ i.text.toList := by
  intro hc
  cases ho : i.operand? with
  | none =>
    rw [text, ho] at hc
    exact h.2.2 (mem_mnemonic hc)
  | some a =>
    rw [toList_text ho, List.mem_append, List.mem_append, List.mem_singleton] at hc
    obtain (hc | hc) | hc := hc
    · exact h.2.2 (mem_mnemonic hc)
    · exact h.1 hc
    · exact not_mem_toString h.2.1 a.toNat hc

end Instruction

/-! ## Lines that are all code -/

namespace Assembly

theorem IsCommand.tight {cs : List Char} {c : Command} (h : IsCommand cs c) : Tight cs := by
  cases h with
  | bare hm => exact .of_forall hm.not_blank
  | addressed hm _ _ _ ho =>
    exact (Tight.of_forall hm.not_blank).append (.of_forall ho.not_blank) hm.ne_nil ho.ne_nil _

theorem IsOperand.padded {cs : List Char} {o : Operand} (h : IsOperand cs o) :
    Padded IsOperand cs o :=
  ⟨cs, (Tight.of_forall h.not_blank).trims, h⟩

/-- A form without a comment or blanks around it is a line. -/
theorem IsForm.isLine {cs : List Char} {l : Line} (h : IsForm cs l) (htight : Tight cs)
    (hcomment : '#' ∉ cs) : IsLine cs l :=
  ⟨cs, ⟨cs, [], (List.append_nil cs).symm, hcomment, by simp, htight.trims⟩, h⟩

theorem isLine_text (i : Instruction) : IsLine i.text.toList (.command i.command) := by
  have hcommand := i.isCommand_text
  exact (IsForm.command (i.not_mem_text (by decide)) (i.not_mem_text (by decide)) hcommand).isLine
    hcommand.tight (i.not_mem_text (by decide))

/-! ## The line of a datum -/

theorem toList_dataLine (a : Nat) (w : Word) :
    (Memory.dataLine a w).toList =
      ':' :: ((decimal4 a).toList ++ ':' :: (toString w.toNat).toList) := by
  simp [Memory.dataLine, String.toList_append]

theorem not_mem_dataLine {c : Char} (a : Nat) (w : Word)
    (h : c ≠ ':' ∧ ¬(48 ≤ c.toNat ∧ c.toNat ≤ 57)) : c ∉ (Memory.dataLine a w).toList := by
  rw [toList_dataLine, List.mem_cons, List.mem_append, List.mem_cons]
  rintro (hc | hc | hc | hc)
  · exact h.1 hc
  · exact not_mem_decimal4 h.2 a hc
  · exact h.1 hc
  · exact not_mem_toString h.2 w.toNat hc

theorem isLine_data {a v : List Char} {x y : Operand} (hx : IsOperand a x) (hy : IsOperand v y)
    (hcolon : ':' ∉ a) (hcomment : '#' ∉ ':' :: (a ++ ':' :: v)) :
    IsLine (':' :: (a ++ ':' :: v)) (.data x y) := by
  have hmark : Tight [':'] := .of_forall (by
    rw [List.forall_mem_singleton]
    decide)
  have htight := hmark.append (.of_forall hy.not_blank) (List.cons_ne_nil _ _) hy.ne_nil
    (a ++ [':'])
  refine (IsForm.data hcolon hx.padded hy.padded).isLine ?_ hcomment
  simpa using htight

theorem isLine_dataLine {a : Nat} (ha : a < magnitudeLimit) (w : Word) :
    IsLine (Memory.dataLine a w).toList (.data (.number a) (.number w.toNat)) := by
  have hw : w.toNat < magnitudeLimit := Nat.lt_trans w.toNat_lt (by decide)
  have haddress : IsOperand (decimal4 a).toList (.number a) :=
    .number (.plain (.decimal (isNumeral_decimal4 a)) ha)
  have hvalue : IsOperand (toString w.toNat).toList (.number w.toNat) :=
    .number (.plain (.decimal (isNumeral_toString w.toNat)) hw)
  have hcolon : ':' ∉ (decimal4 a).toList := not_mem_decimal4 (by decide) a
  have hcomment := not_mem_dataLine (c := '#') a w (by decide)
  rw [toList_dataLine] at hcomment ⊢
  exact isLine_data haddress hvalue hcolon hcomment

/-! ## Written programs -/

theorem not_value_name {ls : List Line} (h : names ls = []) (s : String) (v : Int) :
    ¬Value ls (.name s) v := by
  have hnone : ∀ d, ¬Defines ls s d := by
    intro d hd
    have hmem := mem_names_iff.2 ⟨d, hd⟩
    rw [h] at hmem
    cases hmem
  intro hv
  cases hv with
  | label hd => exact hnone _ hd
  | constant hd => exact hnone _ hd

theorem commandMeans_command (ls : List Line) (i : Instruction) :
    CommandMeans ls i.command i.reduced := by
  rw [Instruction.command, Instruction.reduced, Instruction.make, ← Instruction.operand?_getD]
  cases h : i.operand? with
  | none => exact .bare
  | some a =>
    have hlt : a.toNat < 4096 := by
      have hoperand := i.toNat_operand_lt
      rwa [h] at hoperand
    have ha : a = UInt16.ofNat (a.toNat % 4096) := by
      rw [Nat.mod_eq_of_lt hlt, UInt16.ofNat_toNat]
    have hmeans : CommandMeans ls ⟨i.kind, some (.number a.toNat)⟩ _ := .addressed (.number a.toNat)
    rwa [← ha] at hmeans

/-- The lines of instructions and, after them, of data. -/
def written (is : List Instruction) (cells : List (Nat × Word)) : List String :=
  is.map Instruction.text ++ cells.map fun c => Memory.dataLine c.1 c.2

section
variable (is : List Instruction) (cells : List (Nat × Word))

def saying : List Line :=
  is.map (fun i => .command i.command) ++
    cells.map fun c => .data (.number c.1) (.number c.2.toNat)

theorem names_saying : names (saying is cells) = [] := by
  simp [names, saying, List.filterMap_eq_nil_iff, Line.name?]

theorem statements_saying :
    statements (saying is cells) = is.map (fun i => .command i.command) ++
      cells.map fun c => .data (.number c.1) (.number c.2.toNat) := by
  simp [statements, saying, Line.statement?, List.filterMap_map, Function.comp_def]

theorem commands_saying : commands (saying is cells) = is.map Instruction.command := by
  simp [commands, statements_saying, Statement.command?, List.filterMap_map, Function.comp_def]

theorem data_saying :
    data (saying is cells) = cells.map fun c => (.number c.1, .number c.2.toNat) := by
  simp [data, statements_saying, Statement.datum?, List.filterMap_map, Function.comp_def]

theorem splits_written :
    Splits (unlines (written is cells)).toList ((written is cells).map String.toList) := by
  rw [toList_unlines]
  refine splits_flatMap fun l hl => ?_
  obtain ⟨t, ht, rfl⟩ := List.mem_map.1 hl
  rcases List.mem_append.1 ht with hi | hc
  · obtain ⟨i, -, rfl⟩ := List.mem_map.1 hi
    exact ⟨i.not_mem_text (by decide), i.not_mem_text (by decide)⟩
  · obtain ⟨c, -, rfl⟩ := List.mem_map.1 hc
    exact ⟨not_mem_dataLine c.1 c.2 (by decide), not_mem_dataLine c.1 c.2 (by decide)⟩

end

variable {is : List Instruction} {cells : List (Nat × Word)}

theorem reads_written (hcells : ∀ c ∈ cells, c.1 < magnitudeLimit) :
    Reads (unlines (written is cells)) ((written is cells).map String.toList) (saying is cells) := by
  refine ⟨splits_written is cells, ?_, ?_⟩
  · rw [written, saying, List.map_append, List.map_map, List.map_map]
    refine List.rel_append ?_ ?_
    · rw [List.forall₂_map_left_iff, List.forall₂_map_right_iff, List.forall₂_same]
      exact fun i _ => isLine_text i
    · rw [List.forall₂_map_left_iff, List.forall₂_map_right_iff, List.forall₂_same]
      exact fun c hc => isLine_dataLine (hcells c hc) c.2
  · -- without names there is nothing to define twice
    rw [names_saying]
    exact List.nodup_nil

/-- Instructions and data that fit are assembled from their lines, and nothing else is. -/
theorem assembles_written {size : Nat} (hlength : is.length ≤ room size)
    (hcells : ∀ c ∈ cells, c.1 < size) (hsize : size ≤ magnitudeLimit) :
    Assembles (unlines (written is cells)) size
      { instructions := is.map Instruction.reduced, data := cells } := by
  refine ⟨_, _, reads_written fun c hc => Nat.lt_of_lt_of_le (hcells c hc) hsize, ?_, ?_, ?_,
    fun s v => ?_, .nil⟩
  · rw [commands_saying, List.length_map]
    exact hlength
  · rw [commands_saying, List.forall₂_map_left_iff, List.forall₂_map_right_iff, List.forall₂_same]
    exact fun i _ => commandMeans_command _ i
  · rw [data_saying, List.forall₂_map_left_iff, List.forall₂_same]
    intro c hc
    have hw : c.2.toNat < 65536 := c.2.toNat_lt
    refine ⟨.number c.1, hcells c hc, c.2.toNat, .number c.2.toNat, ?_⟩
    omega
  · exact iff_of_false (fun h => by cases h) (not_value_name (names_saying is cells) s v)

/-! ## The round trip -/

theorem CommandMeans.reduced_eq {ls : List Line} {c : Command} {i : Instruction}
    (h : CommandMeans ls c i) : i.reduced = i := by
  have hofKind (k : Kind) (n : Nat) :
      (Instruction.ofKind k (UInt16.ofNat (n % 4096))).reduced =
        .ofKind k (UInt16.ofNat (n % 4096)) := by
    rw [← ofNat_and_addressMask]
    exact Instruction.reduced_make k (UInt16.ofNat n)
  cases h with
  | @bare k => exact hofKind k 0
  | @addressed k _ n => exact hofKind k n

theorem map_reduced_eq {ls : List Line} {cs : List Command}
    (h : List.Forall₂ (CommandMeans ls) cs is) : is.map Instruction.reduced = is := by
  induction h with
  | nil => rfl
  | cons hi _ ih => rw [List.map_cons, hi.reduced_eq, ih]

end Assembly

namespace Program

/-- The operands of assembled instructions have twelve bits. -/
theorem reduced_of_assemble {source : String} {size : Nat} {p : Program}
    (h : assemble source size = .ok p) {i : Instruction} (hi : i ∈ p.instructions) :
    i.reduced = i := by
  obtain ⟨texts, ls, -, hp⟩ := assemble_eq_ok_iff.1 h
  have hmap := (map_reduced_eq hp.instructions).trans (List.map_id p.instructions).symm
  exact List.map_inj_left.1 hmap i hi

/-- The program as text, its data after its instructions. -/
def text (p : Program) : String := unlines (written p.instructions p.data)

/-- A program is assembled again from its text, but for the names. -/
theorem assemble_text {source : String} {size : Nat} {p : Program}
    (h : assemble source size = .ok p) (hsize : size ≤ magnitudeLimit) :
    assemble p.text size = .ok { p with symbols := [] } := by
  obtain ⟨texts, ls, -, hp⟩ := assemble_eq_ok_iff.1 h
  have hlength : p.instructions.length ≤ room size := length_le_of_assemble h
  have hcells : ∀ c ∈ p.data, c.1 < size := fun c hc =>
    image_inside h c (List.mem_append_right _ hc)
  have hwritten := assembles_written hlength hcells hsize
  rw [map_reduced_eq hp.instructions] at hwritten
  exact assemble_eq_ok_iff.2 hwritten

/-- As many words as the program counter can count are assembled from their disassembly. -/
theorem assemble_disassembly {ws : List Word} (h : ws.length ≤ fullSize) :
    assemble (unlines (ws.map Word.disassembly)) fullSize =
      .ok { instructions := ws.map Instruction.decode } := by
  have hlength : (ws.map Instruction.decode).length ≤ room fullSize := by
    rw [List.length_map]
    exact h
  have hnone : ∀ c ∈ ([] : List (Nat × Word)), c.1 < fullSize := by simp
  have hwritten := assembles_written hlength hnone (by decide)
  have hreduced : (ws.map Instruction.decode).map Instruction.reduced = ws.map Instruction.decode := by
    rw [List.map_map]
    exact List.map_congr_left fun w _ => Instruction.reduced_decode w
  rw [hreduced, written, List.map_nil, List.append_nil, List.map_map] at hwritten
  exact assemble_eq_ok_iff.2 hwritten

/-- **What is written as text is read again.** A program that has been assembled is assembled from
its own text, with the same instructions and data and without names. The disassembly of any words
is assembled too, into words that are what counts of the given ones. -/
theorem text_round_trip :
    (∀ source p, assemble source fullSize = .ok p → ∃ q, assemble p.text fullSize = .ok q ∧
      q.instructions = p.instructions ∧ q.data = p.data ∧ q.lastAddress = p.lastAddress ∧
      q.symbols = []) ∧
    ∀ ws : List Word, ws.length ≤ fullSize →
      ∃ q, assemble (unlines (ws.map Word.disassembly)) fullSize = .ok q ∧
        (q.instructions.map Instruction.encode = ws.map fun w =>
          if w.toNat / 4096 < 8 then w else if w.toNat / 4096 < 12 then w &&& 0xF000 else 0xC000) ∧
        q.data = [] ∧ q.symbols = [] := by
  refine ⟨fun source p h => ?_, fun ws h => ?_⟩
  · exact ⟨_, assemble_text h (by decide), rfl, rfl, rfl, rfl⟩
  · refine ⟨_, assemble_disassembly h, ?_, rfl, rfl⟩
    rw [List.map_map]
    exact List.map_congr_left fun w _ => Instruction.encode_decode w

/-- A program with a constant, a label and a datum, and three words of which two are more than
instructions. -/
theorem text_round_trip_of_counting_down :
    (∃ p q, assemble "N = 3\nLOOP: SUB N # down\nBRZ LOOP\n:$400:-1" fullSize = .ok p ∧
      p.text = "SUB 3\nBRZ 0\n:1024:65535\n" ∧ assemble p.text fullSize = .ok q ∧
      q.instructions = p.instructions ∧ q.data = p.data) ∧
    ∃ q, assemble (unlines (List.map Word.disassembly [0x3005, 0x9FFF, 0xF123])) fullSize = .ok q ∧
      q.instructions.map Instruction.encode = [0x3005, 0x9000, 0xC000] := by
  obtain ⟨htext, hwords⟩ := text_round_trip
  have hp : assemble "N = 3\nLOOP: SUB N # down\nBRZ LOOP\n:$400:-1" fullSize =
      .ok { instructions := [.alu .sub 3, .brz 0], data := [(1024, 65535)],
            symbols := [("LOOP", 0), ("N", 3)] } := rfl
  obtain ⟨q, hq, hinstructions, hdata, -⟩ := htext _ _ hp
  obtain ⟨q', hq', hencoded, -⟩ := hwords [0x3005, 0x9FFF, 0xF123] (by decide)
  exact ⟨⟨_, q, hp, rfl, hq, hinstructions, hdata⟩, q', hq', hencoded⟩

end Program
end AccumulatorMachine
