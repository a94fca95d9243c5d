import AccumulatorMachine.Proofs.Assembly.RoundTrip
import AccumulatorMachine.Proofs.Machine.InPlace
import AccumulatorMachine.Proofs.Text.WordForms

/-! # Equality of instructions

Two instructions count as equal if they encode to one word, whatever the bits of their operands that
do not count. Each class has one instruction with a twelve-bit operand, the reduced one
(`sameWord_iff`), and everything that is shown of an instruction, or done by it, only depends on
that one. The texts and the hexadecimal words tell the classes apart.
-/

namespace AccumulatorMachine
set_option autoImplicit false
open Text Assembly

namespace Instruction

/-! ## Reduced instructions stand for the classes -/

theorem sameWord_iff {i j : Instruction} : i.sameWord j = true ↔ i.reduced = j.reduced := by
  rw [sameWord, beq_iff_eq]
  constructor
  · intro h
    rw [← decode_encode i, ← decode_encode j, h]
  · intro h
    rw [← encode_reduced i, ← encode_reduced j, h]

theorem reduced_eq_ofKind (i : Instruction) : i.reduced = ofKind i.kind (i.operand?.getD 0) := by
  rw [operand?_getD]
  rfl

/-- The kind and the twelve bits that count are all there is to a reduced instruction. -/
theorem reduced_eq_iff {i j : Instruction} :
    i.reduced = j.reduced ↔ i.kind = j.kind ∧ i.operand? = j.operand? := by
  constructor
  · intro h
    constructor
    · rw [← kind_reduced i, ← kind_reduced j, h]
    · rw [← operand?_reduced i, ← operand?_reduced j, h]
  · rintro ⟨hkind, hoperand⟩
    rw [reduced_eq_ofKind, reduced_eq_ofKind, hkind, hoperand]

theorem reduced_reduced (i : Instruction) : i.reduced.reduced = i.reduced := by
  rw [reduced_eq_iff, kind_reduced, operand?_reduced]
  simp

/-! ## What is shown -/

@[simp] theorem text_reduced (i : Instruction) : i.reduced.text = i.text := by
  simp [text, mnemonic]

@[simp] theorem code_reduced (i : Instruction) (format : CodeFormat) :
    i.reduced.code format = i.code format := by
  cases format with
  | binary => simp [code, binary]
  | hex => simp [code, hex]

@[simp] theorem listingLine_reduced (i : Instruction) (address : Nat) (format : CodeFormat) :
    i.reduced.listingLine address format = i.listingLine address format := by
  simp [listingLine]

@[simp] theorem hashInto_reduced {σ : Type} (mix : σ → Word → σ) (state : σ) (i : Instruction) :
    hashInto mix state i.reduced = hashInto mix state i := by
  simp [hashInto]

theorem command_injective {i j : Instruction} (h : i.command = j.command) :
    i.reduced = j.reduced := by
  have hnumber : Function.Injective fun a : Word => Operand.number a.toNat := by
    intro a b hab
    simpa [UInt16.toNat_inj] using hab
  rw [reduced_eq_iff]
  simp only [command, Command.mk.injEq] at h
  exact ⟨h.1, Option.map_injective hnumber h.2⟩

/-- A text is read as one command only, so that it belongs to one class. -/
theorem text_eq_iff {i j : Instruction} : i.text = j.text ↔ i.reduced = j.reduced := by
  constructor
  · intro h
    have hi := i.isCommand_text.readCommand_eq
    have hj := j.isCommand_text.readCommand_eq
    rw [h, hj, Option.some.injEq] at hi
    exact command_injective hi.symm
  · intro h
    rw [← text_reduced i, ← text_reduced j, h]

theorem hex_eq_iff {i j : Instruction} : i.hex = j.hex ↔ i.sameWord j = true := by
  rw [sameWord, beq_iff_eq]
  constructor
  · exact Word.hex_injective
  · intro h
    rw [hex, hex, h]

/-! ## What is done -/

theorem execute_reduced (i : Instruction) : InPlace.execute i.reduced = InPlace.execute i := by
  funext m
  rw [InPlace.execute_eq, InPlace.execute_eq, reduced_reduced]

/-! ## Equality is a congruence -/

/-- **Equality of instructions is a congruence.** Instructions are equal exactly if they have the
same text, and exactly if they have the same hexadecimal word. What is equal is alike in kind,
address, hash, machine code and listing, and executed on any machine, it ends with the same result
and leaves the same machine. So an instruction does what the one does that its word decodes to. -/
theorem sameWord_congruence (i j : Instruction) :
    (i.sameWord j = true ↔ i.text = j.text) ∧ (i.sameWord j = true ↔ i.hex = j.hex) ∧
    (i.sameWord j = true →
      i.kind = j.kind ∧ i.operand? = j.operand? ∧
      (∀ (σ : Type) (mix : σ → Word → σ) (state : σ),
        hashInto mix state i = hashInto mix state j) ∧
      i.binary = j.binary ∧
      (∀ address format, i.listingLine address format = j.listingLine address format) ∧
      ∀ m : Machine, InPlace.execute i m = InPlace.execute j m) ∧
    ∀ m : Machine, InPlace.execute i m = InPlace.execute (decode i.encode) m := by
  refine ⟨sameWord_iff.trans text_eq_iff.symm, hex_eq_iff.symm, ?_, ?_⟩
  · intro h
    have hreduced := sameWord_iff.1 h
    obtain ⟨hkind, hoperand⟩ := reduced_eq_iff.1 hreduced
    refine ⟨hkind, hoperand, ?_, ?_, ?_, ?_⟩
    · intro σ mix state
      rw [← hashInto_reduced, hreduced, hashInto_reduced]
    · show i.code .binary = j.code .binary
      rw [← code_reduced, hreduced, code_reduced]
    · intro address format
      rw [← listingLine_reduced, hreduced, listingLine_reduced]
    · intro m
      rw [← execute_reduced i, hreduced, execute_reduced]
  · intro m
    rw [decode_encode, execute_reduced]

/-- An operand of thirteen bits and its twelve low ones, in an instruction that stores. -/
theorem sameWord_congruence_of_wide :
    (sto 4221).sameWord (sto 125) = true ∧ (sto 4221).text = (sto 125).text ∧
      (sto 4221).listingLine 7 .hex = (sto 125).listingLine 7 .hex ∧
      InPlace.execute (sto 4221) (.blank 200) = InPlace.execute (sto 125) (.blank 200) ∧
      sto 4221 ≠ sto 125 := by
  have hsame : (sto 4221).sameWord (sto 125) = true := by decide
  obtain ⟨htext, -, halike, -⟩ := sameWord_congruence (sto 4221) (sto 125)
  obtain ⟨-, -, -, -, hline, hexecute⟩ := halike hsame
  exact ⟨hsame, htext.1 hsame, hline 7 .hex, hexecute (.blank 200), by decide⟩

end Instruction
end AccumulatorMachine
