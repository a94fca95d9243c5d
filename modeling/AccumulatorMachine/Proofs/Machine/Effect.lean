import AccumulatorMachine.Machine.Cycle
import AccumulatorMachine.Proofs.Instruction.Encoding
import AccumulatorMachine.Proofs.Memory.Cells

/-! # The effect of an instruction

What the operations of the machine do, as total descriptions and the conditions under which they
are done. `Machine.effect` is the machine after an instruction whose cell exists,
`Instruction.cell?` is that cell, and `Machine.held` is the machine half way through a cycle that
nothing stops (`Machine.cycleError?`).
-/

namespace AccumulatorMachine
set_option autoImplicit false

/-! ## The cell of an instruction -/

namespace Instruction

/-- The cell that an instruction reads or writes; the target of a branch is none. -/
def cell? : Instruction → Option Word
  | sto a | lda a | alu _ a => some a
  | brz _ | accu _ | nop => none

end Instruction

/-! ## Execution -/

namespace Machine

def currentWord (m : Machine) : Word := m.memory.word m.pc.toNat

def current (m : Machine) : Instruction := Instruction.decode m.currentWord

/-- The machine after the instruction `i`, whose cell exists. -/
def effect (m : Machine) (i : Instruction) : Machine :=
  let before := m.accumulator
  match i with
  | .sto a =>
    { m with
      memory := m.memory.put a.toNat before
      snapshot := { instruction := i, memoryValue := before } }
  | .lda a =>
    let w := m.memory.word a.toNat
    { m.withAccumulator w with
      snapshot := { instruction := i, oldAccumulator := before, memoryValue := w } }
  | .brz a =>
    let taken := before == 0
    { if taken then m.branchTo a else m with snapshot := { instruction := i, branchTaken := taken } }
  | .alu op a =>
    let w := m.memory.word a.toNat
    let result := op.apply before w
    { m.withAccumulator result with
      snapshot :=
        { instruction := i, oldAccumulator := before, aluResult := result, memoryValue := w } }
  | .accu op =>
    let result := op.apply before
    { m.withAccumulator result with
      snapshot := { instruction := i, oldAccumulator := before, aluResult := result } }
  | .nop => { m with snapshot := { instruction := i } }

/-- The fault of an access to `a`, unless there is such a cell. -/
def faultAt? (m : Machine) (a : Word) : Option AddressFault :=
  if a.toNat < m.memory.size then none else some ⟨a.toNat, m.memory.size⟩

/-- The fault of the instruction `i`, unless its cell exists. -/
def fault? (m : Machine) (i : Instruction) : Option AddressFault := i.cell?.bind m.faultAt?

/-- The fault of a cycle: of the fetch, or else of the instruction. -/
def cycleFault? (m : Machine) : Option AddressFault := (m.faultAt? m.pc).or (m.fault? m.current)

/-- The error of an operation that expects the phase `expected`, unless the machine is there. -/
def phaseError? (m : Machine) (expected : Phase) : Option StepError :=
  if m.phase = expected then none else some (.sequence expected m.phase)

/-- Why a cycle cannot begin, or cannot come to its half. -/
def cycleError? (m : Machine) : Option StepError :=
  (m.phaseError? .idle).or (m.cycleFault?.map .memory)

/-- The machine half way through a cycle. -/
def held (m : Machine) : Machine :=
  { m.effect m.current with loaded? := some m.current, phase := .firstPhaseDone }

/-! ## Parts of the machine after an instruction -/

/-- The target of the branch that `i` takes, if it takes one. -/
def target? (m : Machine) (i : Instruction) : Option Word :=
  match i with
  | .brz a => if m.accumulator == 0 then some a else none
  | _ => none

theorem target?_eq_none_iff {m : Machine} {i : Instruction} :
    m.target? i = none ↔ ¬(i.kind = .brz ∧ m.accumulator = 0) := by
  cases i with
  | brz a => simp [target?, Instruction.kind]
  | sto | lda | alu | accu | nop => simp [target?, Instruction.kind]

theorem effect_brz_of_taken {m : Machine} (a : Word) (h : (m.accumulator == 0) = true) :
    m.effect (.brz a) =
      { m.branchTo a with
        snapshot := { instruction := Instruction.brz a, branchTaken := true } } := by
  simp only [effect, h, if_true]

theorem effect_brz_of_not_taken {m : Machine} (a : Word) (h : (m.accumulator == 0) = false) :
    m.effect (.brz a) =
      { m with snapshot := { instruction := Instruction.brz a, branchTaken := false } } := by
  simp only [effect, h, if_false, Bool.false_eq_true]

/-- A branch on another machine with the same accumulator: it is enough to compare the two machines
after a branch that is taken, and after one that is not. -/
theorem effect_brz_comm {f g : Machine → Machine} {m : Machine} {a : Word}
    (haccumulator : (f m).accumulator = m.accumulator)
    (htaken : ∀ snapshot, { (f m).branchTo a with snapshot } = g { m.branchTo a with snapshot })
    (hpassed : ∀ snapshot, { f m with snapshot } = g { m with snapshot }) :
    (f m).effect (.brz a) = g (m.effect (.brz a)) := by
  have hzero : ((f m).accumulator == 0) = (m.accumulator == 0) := by rw [haccumulator]
  cases h : m.accumulator == 0 with
  | true =>
    rw [effect_brz_of_taken a h, effect_brz_of_taken a (hzero.trans h)]
    exact htaken _
  | false =>
    rw [effect_brz_of_not_taken a h, effect_brz_of_not_taken a (hzero.trans h)]
    exact hpassed _

theorem effect_brz_accumulator (m : Machine) (a : Word) :
    (m.effect (.brz a)).accumulator = m.accumulator := by
  cases h : m.accumulator == 0 with
  | true =>
    rw [effect_brz_of_taken a h]
    rfl
  | false =>
    rw [effect_brz_of_not_taken a h]
    rfl

/-- All that an instruction changes, and what the parts are that depend on a branch. -/
theorem effect_eq (m : Machine) (i : Instruction) :
    ∃ accumulator snapshot, m.effect i =
      { m with
        registers := ⟨accumulator, ((m.target? i).map (· &&& addressMask)).getD m.pc⟩
        memory := (m.effect i).memory
        metrics := if (m.target? i).isSome then m.metrics.countBranch else m.metrics
        snapshot
        branched := (m.target? i).isSome || m.branched } := by
  cases i with
  | brz a =>
    cases h : m.accumulator == 0 with
    | true =>
      rw [effect_brz_of_taken a h]
      simp only [target?, h, if_true]
      exact ⟨_, _, rfl⟩
    | false =>
      rw [effect_brz_of_not_taken a h]
      simp only [target?, h, if_false, Bool.false_eq_true]
      exact ⟨_, _, rfl⟩
  | sto | lda | alu | accu | nop => exact ⟨_, _, rfl⟩

@[simp] theorem effect_lastAddress (m : Machine) (i : Instruction) :
    (m.effect i).lastAddress = m.lastAddress := by
  obtain ⟨_, _, h⟩ := m.effect_eq i
  rw [h]

theorem effect_pc (m : Machine) (i : Instruction) :
    (m.effect i).pc = ((m.target? i).map (· &&& addressMask)).getD m.pc := by
  obtain ⟨_, _, h⟩ := m.effect_eq i
  rw [h]
  rfl

theorem effect_branched (m : Machine) (i : Instruction) :
    (m.effect i).branched = ((m.target? i).isSome || m.branched) := by
  obtain ⟨_, _, h⟩ := m.effect_eq i
  rw [h]

theorem effect_metrics (m : Machine) (i : Instruction) :
    (m.effect i).metrics =
      if (m.target? i).isSome then m.metrics.countBranch else m.metrics := by
  obtain ⟨_, _, h⟩ := m.effect_eq i
  rw [h]

theorem effect_phase (m : Machine) (i : Instruction) : (m.effect i).phase = m.phase := by
  obtain ⟨_, _, h⟩ := m.effect_eq i
  rw [h]

theorem effect_loaded? (m : Machine) (i : Instruction) : (m.effect i).loaded? = m.loaded? := by
  obtain ⟨_, _, h⟩ := m.effect_eq i
  rw [h]

theorem effect_memory (m : Machine) (i : Instruction) :
    (m.effect i).memory =
      match i with
      | .sto a => m.memory.put a.toNat m.accumulator
      | _ => m.memory := by
  cases i with
  | brz a =>
    cases h : m.accumulator == 0 with
    | true => rw [effect_brz_of_taken a h]; rfl
    | false => rw [effect_brz_of_not_taken a h]
  | sto | lda | alu | accu | nop => rfl

/-- Only the cell that is stored changes. -/
theorem word_effect {m : Machine} {i : Instruction} {k : Nat} (h : ∀ a, i = .sto a → k ≠ a.toNat) :
    (m.effect i).memory.word k = m.memory.word k := by
  rw [effect_memory]
  cases i with
  | sto a => exact Memory.word_put_of_ne m.memory m.accumulator (h a rfl)
  | lda | brz | alu | accu | nop => rfl

@[simp] theorem retired_accumulator (m : Machine) : m.retired.accumulator = m.accumulator := by
  cases h : m.branched with
  | true => rw [retired, accumulator, if_pos h]; rfl
  | false => rw [retired, accumulator, if_neg (by simp [h])]; rfl

theorem retired_pc_of_branched {m : Machine} (h : m.branched = true) : m.retired.pc = m.pc := by
  rw [retired, pc, if_pos h]
  rfl

theorem toNat_retired_pc {m : Machine} (h : m.branched = false) :
    m.retired.pc.toNat = (m.pc.toNat + 1) % 4096 := by
  have hn : ¬m.branched = true := by simp [h]
  have hadd : (m.registers.pc + 1).toNat = (m.registers.pc.toNat + 1) % 65536 := UInt16.toNat_add _ _
  rw [retired, pc, if_neg hn, Registers.advance, Registers.toNat_and_addressMask, hadd, pc]
  omega

/-- Where a whole cycle leaves the program counter: at the target of a branch, or one address on. -/
theorem toNat_pc_held_retired {m : Machine} (h : m.branched = false) :
    m.held.retired.pc.toNat =
      ((m.target? m.current).map fun a => a.toNat % 4096).getD ((m.pc.toNat + 1) % 4096) := by
  have hpc : m.held.pc = ((m.target? m.current).map (· &&& addressMask)).getD m.pc :=
    effect_pc m m.current
  have hmark : m.held.branched = ((m.target? m.current).isSome || m.branched) :=
    effect_branched m m.current
  cases ht : m.target? m.current with
  | none =>
    rw [ht, h] at hmark
    rw [ht] at hpc
    rw [toNat_retired_pc hmark, hpc]
    rfl
  | some a =>
    rw [ht] at hmark hpc
    rw [retired_pc_of_branched hmark, hpc]
    exact Registers.toNat_and_addressMask a

end Machine

end AccumulatorMachine
