import AccumulatorMachine.Instruction.Control
import AccumulatorMachine.Proofs.Machine.StepErrors

/-! # The control unit

What the hardware does under a set of asserted lines: the arithmetic unit (`Lines.unit`) and the
registers and the memory around it (`Lines.Drives`). A cycle of the machine does what the lines of
its instruction say, though it never looks at them.
-/

namespace AccumulatorMachine
set_option autoImplicit false

/-! ## Sums and bits -/

theorem or_add_and (a b : Nat) : (a ||| b) + (a &&& b) = a + b := by
  induction a using Nat.strongRecOn generalizing b with
  | ind a ih =>
    by_cases ha : a = 0
    · subst ha
      simp
    · have hhalf := ih (a / 2) (by omega) (b / 2)
      have ho : (a ||| b) / 2 = a / 2 ||| b / 2 := Nat.or_div_two
      have hn : (a &&& b) / 2 = a / 2 &&& b / 2 := Nat.and_div_two
      have ho' : (a ||| b) % 2 = 1 ↔ a % 2 = 1 ∨ b % 2 = 1 := Nat.or_mod_two_eq_one
      have hn' : (a &&& b) % 2 = 1 ↔ a % 2 = 1 ∧ b % 2 = 1 := Nat.and_mod_two_eq_one
      omega

namespace Word

theorem or_add_and (a b : Word) : (a ||| b) + (a &&& b) = a + b := by
  apply UInt16.toNat_inj.1
  rw [UInt16.toNat_add, UInt16.toNat_add, UInt16.toNat_or, UInt16.toNat_and,
    AccumulatorMachine.or_add_and]

theorem ext_bits {a b : Word} (h : ∀ i (hi : i < 16), a.toBitVec[i] = b.toBitVec[i]) : a = b :=
  UInt16.toBitVec_inj.1 (BitVec.eq_of_getElem_eq h)

theorem or_or_not (a b : Word) : a ||| b ||| ~~~b = -1 := by
  rw [UInt16.or_assoc]
  have hb : b ||| ~~~b = -1 := by
    rw [UInt16.neg_one_eq]
    apply ext_bits
    intro i hi
    have hone : (65535 : Word).toBitVec = BitVec.allOnes 16 := rfl
    simp only [hone, UInt16.toBitVec_or, UInt16.toBitVec_not, BitVec.getElem_or, BitVec.getElem_not,
      BitVec.getElem_allOnes, Bool.or_not_self]
  rw [hb, UInt16.or_neg_one]

theorem andNot_or_and (a b : Word) : a &&& ~~~b ||| a &&& b = a := by
  apply ext_bits
  intro i hi
  simp only [UInt16.toBitVec_or, UInt16.toBitVec_and, UInt16.toBitVec_not, BitVec.getElem_or,
    BitVec.getElem_and, BitVec.getElem_not]
  cases a.toBitVec[i] <;> cases b.toBitVec[i] <;> rfl

end Word

/-! ## The arithmetic unit -/

/-- A state of the control lines. -/
abbrev Lines := Signal → Bool

namespace Lines

/-- The word `w` where the line is asserted, and zeros otherwise. -/
def gate (on : Bool) (w : Word) : Word := if on then w else 0

/-- The first inner word of the arithmetic unit. -/
def inner (l : Lines) (a b : Word) : Word := a ||| gate (l .alu0) b ||| gate (l .alu1) (~~~b)

/-- The second inner word of the arithmetic unit. -/
def outer (l : Lines) (a b : Word) : Word :=
  gate (l .alu2) (a &&& ~~~b) ||| gate (l .alu3) (a &&& b)

/-- What the arithmetic unit gives for the inputs `a` and `b`. -/
def unit (l : Lines) (a b : Word) : Word :=
  if l .aluMode then ~~~(l.inner a b ^^^ l.outer a b)
  else l.inner a b + l.outer a b + gate (l .aluInc) 1

theorem getElem_gate (on : Bool) (w : Word) {i : Nat} (hi : i < 16) :
    (gate on w).toBitVec[i] = (on && w.toBitVec[i]) := by
  cases on with
  | true => rfl
  | false => exact BitVec.getElem_zero hi

/-- In logic mode every bit of the result comes from the two bits at its place alone. -/
theorem getElem_unit {l : Lines} (hmode : l .aluMode = true) (a b : Word) {i : Nat} (hi : i < 16) :
    (l.unit a b).toBitVec[i] =
      !((a.toBitVec[i] || l .alu0 && b.toBitVec[i] || l .alu1 && !b.toBitVec[i]) ^^
        (l .alu2 && (a.toBitVec[i] && !b.toBitVec[i]) ||
          l .alu3 && (a.toBitVec[i] && b.toBitVec[i]))) := by
  simp only [unit, if_pos hmode, inner, outer, UInt16.toBitVec_not, UInt16.toBitVec_xor,
    UInt16.toBitVec_or, UInt16.toBitVec_and, BitVec.getElem_not, BitVec.getElem_xor,
    BitVec.getElem_or, BitVec.getElem_and, getElem_gate]

end Lines

namespace Kind
open Lines

theorem unit_lda (a b : Word) : unit (asserts lda) a b = b := by
  apply Word.ext_bits
  intro i hi
  rw [getElem_unit rfl]
  cases a.toBitVec[i] <;> cases b.toBitVec[i] <;> rfl

theorem unit_alu (op : AluOp) (a b : Word) : unit (asserts (alu op)) a b = op.apply a b := by
  cases op with
  | add =>
    show (a ||| b ||| 0) + (0 ||| a &&& b) + 0 = a + b
    rw [UInt16.or_zero, UInt16.zero_or, UInt16.add_zero]
    exact Word.or_add_and a b
  | sub =>
    show (a ||| 0 ||| ~~~b) + (a &&& ~~~b ||| 0) + 1 = a - b
    rw [UInt16.or_zero, UInt16.or_zero, Word.or_add_and, UInt16.add_assoc, ← UInt16.neg_eq_not_add,
      UInt16.sub_eq_add_neg]
  | or =>
    apply Word.ext_bits
    intro i hi
    rw [getElem_unit rfl, AluOp.apply, UInt16.toBitVec_or, BitVec.getElem_or]
    cases a.toBitVec[i] <;> cases b.toBitVec[i] <;> rfl
  | and =>
    apply Word.ext_bits
    intro i hi
    rw [getElem_unit rfl, AluOp.apply, UInt16.toBitVec_and, BitVec.getElem_and]
    cases a.toBitVec[i] <;> cases b.toBitVec[i] <;> rfl
  | xor =>
    apply Word.ext_bits
    intro i hi
    rw [getElem_unit rfl, AluOp.apply, UInt16.toBitVec_xor, BitVec.getElem_xor]
    cases a.toBitVec[i] <;> cases b.toBitVec[i] <;> rfl

theorem unit_accu (op : AccuOp) (a b : Word) : unit (asserts (accu op)) a b = op.apply a := by
  cases op with
  | not =>
    apply Word.ext_bits
    intro i hi
    rw [getElem_unit rfl, AccuOp.apply, UInt16.toBitVec_not, BitVec.getElem_not]
    cases a.toBitVec[i] <;> cases b.toBitVec[i] <;> rfl
  | inc =>
    show (a ||| 0 ||| 0) + (0 ||| 0) + 1 = a + 1
    rw [UInt16.or_zero, UInt16.or_zero, UInt16.or_zero, UInt16.add_zero]
  | dec =>
    show (a ||| b ||| ~~~b) + (a &&& ~~~b ||| a &&& b) + 0 = a - 1
    rw [Word.or_or_not, Word.andNot_or_and, UInt16.add_zero, UInt16.add_comm, UInt16.sub_eq_add_neg]
  | zro =>
    apply Word.ext_bits
    intro i hi
    rw [getElem_unit rfl, AccuOp.apply]
    cases a.toBitVec[i] <;> cases b.toBitVec[i] <;> exact (BitVec.getElem_zero hi).symm

end Kind

/-! ## A cycle under the lines -/

/-- What the lines `l` make of the machine `m` by the end of a cycle, when the address of the
instruction is `ir` and memory gives the word `b`. -/
structure Lines.Drives (l : Lines) (m : Machine) (ir b : Word) (after : Machine) : Prop where
  accumulator : after.accumulator = if l .setAccu then l.unit m.accumulator b else m.accumulator
  memory : after.memory = if l .writeRam then m.memory.put ir.toNat m.accumulator else m.memory
  pc : after.pc.toNat =
    if l .setPc && m.accumulator == 0 then ir.toNat
    else if l .incPc then (m.pc.toNat + 1) % 4096
    else m.pc.toNat

namespace Kind

theorem effect_accumulator (m : Machine) {k : Kind} {ir b : Word}
    (hb : k ∈ reaching → b = m.memory.word ir.toNat) :
    (m.effect (Instruction.ofKind k ir)).accumulator =
      if k.asserts .setAccu then Lines.unit k.asserts m.accumulator b else m.accumulator := by
  cases k with
  | sto => rfl
  | lda =>
    show m.memory.word ir.toNat = Lines.unit (asserts lda) m.accumulator b
    rw [unit_lda, hb (by decide)]
  | brz => exact m.effect_brz_accumulator ir
  | alu op =>
    have hset : (alu op).asserts .setAccu = true := by cases op <;> rfl
    rw [if_pos hset, unit_alu, hb (by cases op <;> decide)]
    rfl
  | accu op =>
    have hset : (accu op).asserts .setAccu = true := by cases op <;> rfl
    rw [if_pos hset, unit_accu]
    rfl
  | nop => rfl

theorem effect_memory (m : Machine) (k : Kind) (ir : Word) :
    (m.effect (Instruction.ofKind k ir)).memory =
      if k.asserts .writeRam then m.memory.put ir.toNat m.accumulator else m.memory := by
  rw [Machine.effect_memory]
  cases k with
  | alu op => cases op <;> rfl
  | accu op => cases op <;> rfl
  | sto | lda | brz | nop => rfl

theorem target?_eq (m : Machine) (k : Kind) (ir : Word) :
    m.target? (Instruction.ofKind k ir) =
      if k.asserts .setPc && m.accumulator == 0 then some ir else none := by
  cases k with
  | alu op => cases op <;> rfl
  | accu op => cases op <;> rfl
  | sto | lda | brz | nop => rfl

theorem asserts_incPc (k : Kind) : k.asserts .incPc = true := by
  cases k with
  | alu op => cases op <;> rfl
  | accu op => cases op <;> rfl
  | sto | lda | brz | nop => rfl

theorem mem_reaching_iff (k : Kind) :
    k ∈ reaching ↔ k.asserts .addrIr = true ∧ k.asserts .setPc = false := by
  cases k with
  | alu op => cases op <;> decide
  | accu op => cases op <;> decide
  | sto | lda | brz | nop => decide

/-- A whole cycle leaves what the lines of its instruction prescribe. -/
theorem drives {m : Machine} {k : Kind} {ir b : Word} (hmark : m.branched = false)
    (hcurrent : m.current = Instruction.ofKind k ir) (hir : ir.toNat < 4096)
    (hb : k ∈ reaching → b = m.memory.word ir.toNat) :
    Lines.Drives k.asserts m ir b m.held.retired where
  accumulator := by
    rw [Machine.retired_accumulator]
    show (m.effect m.current).accumulator = _
    rw [hcurrent, effect_accumulator m hb]
  memory := by
    show (m.effect m.current).memory = _
    rw [hcurrent, effect_memory]
  pc := by
    rw [Machine.toNat_pc_held_retired hmark, hcurrent, target?_eq, if_pos (asserts_incPc k)]
    cases k.asserts .setPc && m.accumulator == 0 with
    | true => exact Nat.mod_eq_of_lt hir
    | false => rfl

end Kind

namespace Machine

/-- The address in an instruction word. -/
def irOf (w : Word) : Word := w &&& addressMask

theorem toNat_irOf (w : Word) : (irOf w).toNat = w.toNat % 4096 := Registers.toNat_and_addressMask w

theorem irOf_lt (w : Word) : (irOf w).toNat < 4096 := by
  rw [toNat_irOf]
  exact Nat.mod_lt _ (by decide)

theorem current_eq_ofKind (m : Machine) :
    m.current = Instruction.ofKind m.current.kind (irOf m.currentWord) := by
  have hkind : m.current.kind = Kind.ofOpcode (m.currentWord.toNat / 4096) :=
    Instruction.kind_make _ _
  rw [hkind]
  rfl

theorem cell?_current {m : Machine} (hk : m.current.kind ∈ Kind.reaching) :
    m.current.cell? = some (irOf m.currentWord) := by
  rw [current] at hk ⊢
  rw [Instruction.cell?_decode, if_pos hk]
  rfl

/-- A cycle that begins at rest and succeeds does what the control lines of its instruction
prescribe, whatever the memory shows where it is not addressed. Once the instruction is fetched,
the cycle fails just when the lines address a cell that memory does not have. -/
theorem step_follows_control_lines (m : Machine) (hidle : m.phase = .idle)
    (hmark : m.branched = false) :
    (∀ i after, m.step = .ok (i, after) → ∃ w, m.memory.cells[m.pc.toNat]? = some w ∧
      i = Instruction.decode w ∧
      ∀ b, (i.kind.asserts .addrIr = true → ∀ v, m.memory.cells[(irOf w).toNat]? = some v → b = v) →
        Lines.Drives i.kind.asserts m (irOf w) b after) ∧
    (∀ w, m.memory.cells[m.pc.toNat]? = some w →
      ((∃ e, m.step = .error e) ↔
        (Instruction.decode w).kind.asserts .addrIr = true ∧
        (Instruction.decode w).kind.asserts .setPc = false ∧
        m.memory.size ≤ (irOf w).toNat)) := by
  constructor
  · intro i after h
    obtain ⟨hnone, rfl, rfl⟩ := step_eq_ok_iff.1 h
    obtain ⟨-, hpc, hfault⟩ := cycleError?_eq_none_iff.1 hnone
    refine ⟨m.currentWord, cell_at_pc_iff.2 ⟨hpc, rfl⟩, rfl, fun b hb => ?_⟩
    refine Kind.drives hmark m.current_eq_ofKind (irOf_lt _) fun hk => ?_
    -- the lines address the cell, which is there since the cycle succeeded
    rw [fault?, cell?_current hk, Option.bind_some] at hfault
    have hlt : (irOf m.currentWord).toNat < m.memory.size := faultAt?_eq_none_iff.1 hfault
    exact hb ((Kind.mem_reaching_iff _).1 hk).1 _ (Memory.getElem?_eq_some_iff.2 ⟨hlt, rfl⟩)
  · intro w hw
    have hiff := Kind.mem_reaching_iff (Instruction.decode w).kind
    rw [toNat_irOf]
    constructor
    · rintro ⟨e, he⟩
      cases cycleError?_eq_some_iff.1 (step_eq_error_iff.1 he) with
      | phase hn => exact absurd hidle hn
      | fetch _ hle =>
        have hlt := (cell_at_pc_iff.1 hw).1
        omega
      | operand _ hw' hk hle =>
        rw [hw, Option.some.injEq] at hw'
        subst hw'
        exact ⟨(hiff.1 hk).1, (hiff.1 hk).2, hle⟩
    · rintro ⟨haddr, hset, hle⟩
      exact ⟨_, step_eq_error_iff.2 (cycleError?_eq_some_iff.2
        (.operand hidle hw (hiff.2 ⟨haddr, hset⟩) hle))⟩

/-- A machine that is about to add the five in its second cell to a seven. -/
def adding : Machine := { registers := { accumulator := 7 }, memory := ⟨#[0x3001, 5]⟩ }

theorem step_follows_control_lines_adding :
    adding.phase = .idle ∧ adding.branched = false ∧
      ∃ after, adding.step = .ok (.alu .add 1, after) ∧
        Lines.Drives (Kind.alu .add).asserts adding 1 5 after := by
  have hidle : adding.phase = .idle := rfl
  have hmark : adding.branched = false := rfl
  have hstep : adding.step = .ok (.alu .add 1, adding.held.retired) := rfl
  obtain ⟨w, hw, -, hdrives⟩ :=
    (step_follows_control_lines adding hidle hmark).1 (.alu .add 1) adding.held.retired hstep
  have hword : w = 0x3001 := by
    have hcell : adding.memory.cells[adding.pc.toNat]? = some 0x3001 := rfl
    rw [hcell, Option.some.injEq] at hw
    exact hw.symm
  subst hword
  refine ⟨hidle, hmark, adding.held.retired, hstep, hdrives 5 fun _ v hv => ?_⟩
  have hfive : adding.memory.cells[(irOf 0x3001).toNat]? = some 5 := rfl
  rw [hfive, Option.some.injEq] at hv
  exact hv

end Machine

end AccumulatorMachine
