import AccumulatorMachine.Registers

/-! # Instruction words

An instruction and its word say the same: decoding the word gives the instruction with its operand
reduced to an address. Most words are more than one instruction needs: encoding what a word decodes
to gives the word without the bits that do not count (`encode_decode`).
-/

namespace AccumulatorMachine.Instruction
set_option autoImplicit false

/-! ## Reduced instructions -/

theorem and_addressMask_idem (w : Word) : w &&& addressMask &&& addressMask = w &&& addressMask := by
  rw [UInt16.and_assoc, UInt16.and_self]

theorem reduced_make (k : Kind) (a : Word) : (make k a).reduced = make k a := by
  cases k <;> simp [reduced, make, ofKind, kind, given?, UInt16.and_assoc]

@[simp] theorem reduced_decode (w : Word) : (decode w).reduced = decode w := reduced_make _ w

/-! ## Words of instructions -/

theorem operand?_getD (i : Instruction) : i.operand?.getD 0 = i.given?.getD 0 &&& addressMask := by
  rw [operand?]
  cases i.given? with
  | none => rfl
  | some a => rfl

theorem toNat_operand_lt (i : Instruction) : (i.operand?.getD 0).toNat < 4096 := by
  rw [operand?_getD, Registers.toNat_and_addressMask]
  exact Nat.mod_lt _ (by decide)

/-- The opcode stands above the twelve bits of the address. -/
theorem toNat_encode (i : Instruction) :
    i.encode.toNat = i.kind.opcode * 4096 + (i.operand?.getD 0).toNat := by
  have hop : i.kind.opcode < 13 := i.kind.opcode_lt
  have ha : (i.operand?.getD 0).toNat < 2 ^ 12 := i.toNat_operand_lt
  have hhigh : (UInt16.ofNat (i.kind.opcode * 4096)).toNat = 2 ^ 12 * i.kind.opcode := by
    rw [UInt16.toNat_ofNat_of_lt' (by
      show i.kind.opcode * 4096 < 65536
      omega)]
    omega
  rw [encode, UInt16.toNat_or, hhigh, ← Nat.two_pow_add_eq_or_of_lt ha]
  omega

theorem decode_encode (i : Instruction) : decode i.encode = i.reduced := by
  have ha := i.toNat_operand_lt
  have hkind : Kind.ofOpcode (i.encode.toNat / 4096) = i.kind := by
    have hdiv : i.encode.toNat / 4096 = i.kind.opcode := by
      rw [toNat_encode]
      omega
    rw [hdiv, Kind.ofOpcode_opcode]
  have haddress : i.encode &&& addressMask = i.given?.getD 0 &&& addressMask := by
    apply UInt16.toNat_inj.1
    rw [Registers.toNat_and_addressMask, toNat_encode, ← operand?_getD]
    omega
  rw [decode, hkind, make, haddress]
  rfl

/-! ## Instructions of words -/

theorem opcode_ofOpcode (n : Nat) : (Kind.ofOpcode n).opcode = min (n % 16) 12 := by
  have hmod : Kind.ofOpcode n = Kind.ofOpcode (n % 16) := by
    rw [Kind.ofOpcode, Kind.ofOpcode, Nat.mod_mod]
  have hlt : n % 16 < 16 := Nat.mod_lt n (by decide)
  rw [hmod]
  exact (by decide : ∀ d < 16, (Kind.ofOpcode d).opcode = min d 12) (n % 16) hlt

/-- The address bits of a word are nothing without its opcode. -/
theorem toNat_and_opcodeMask (w : Word) : (w &&& 0xF000).toNat = w.toNat / 4096 * 4096 := by
  have hw : w.toNat < 65536 := w.toNat_lt
  have hhigh : (w.toNat &&& 0xF000) / 2 ^ 12 = w.toNat / 2 ^ 12 &&& 0xF000 / 2 ^ 12 :=
    Nat.and_div_two_pow
  have hlow : (w.toNat &&& 0xF000) % 2 ^ 12 = (w.toNat % 2 ^ 12) &&& (0xF000 % 2 ^ 12) :=
    Nat.and_mod_two_pow
  have hfifteen : w.toNat / 2 ^ 12 &&& 0xF000 / 2 ^ 12 = w.toNat / 2 ^ 12 % 2 ^ 4 :=
    Nat.and_two_pow_sub_one_eq_mod _ 4
  have hzero : (w.toNat % 2 ^ 12) &&& (0xF000 % 2 ^ 12) = 0 := Nat.and_zero _
  have hmask : (0xF000 : Word).toNat = 0xF000 := rfl
  rw [UInt16.toNat_and, hmask]
  omega

/-- What is left of a word: all of it, its opcode, or the opcode of doing nothing. -/
theorem encode_decode (w : Word) :
    (decode w).encode =
      if w.toNat / 4096 < 8 then w else if w.toNat / 4096 < 12 then w &&& 0xF000 else 0xC000 := by
  have hw : w.toNat < 65536 := w.toNat_lt
  have hkind : (decode w).kind = Kind.ofOpcode (w.toNat / 4096) := kind_make _ w
  have hop := opcode_ofOpcode (w.toNat / 4096)
  have haddress : ((decode w).operand?.getD 0).toNat =
      if (Kind.ofOpcode (w.toNat / 4096)).opcode < 8 then w.toNat % 4096 else 0 := by
    rw [operand?_getD, decode, make, given?_ofKind, Kind.hasAddress_eq]
    by_cases h : (Kind.ofOpcode (w.toNat / 4096)).opcode < 8
    · rw [if_pos (decide_eq_true h), if_pos h, Option.getD_some, Registers.toNat_and_addressMask,
        Registers.toNat_and_addressMask, Nat.mod_mod]
    · rw [if_neg (by simp [h]), if_neg h]
      rfl
  apply UInt16.toNat_inj.1
  rw [toNat_encode, hkind, haddress, hop]
  by_cases h8 : w.toNat / 4096 < 8
  · rw [if_pos h8, if_pos (by omega)]
    omega
  · rw [if_neg h8, if_neg (by omega)]
    by_cases h12 : w.toNat / 4096 < 12
    · rw [if_pos h12, toNat_and_opcodeMask]
      omega
    · rw [if_neg h12]
      show _ = 49152
      omega

end AccumulatorMachine.Instruction
