import AccumulatorMachine.Proofs.Machine.Running

/-! # What a snapshot shows

An execution is an instruction with the machine before it and after it. `Execution.snapshot` says
from these three what there is to show, field by field, by the kind of the instruction and without
going through what the instruction does. That is the snapshot that every execution leaves
(`Machine.snapshot_of_execute`, `Machine.snapshot_of_firstHalf`), whatever the one before it was
(`Machine.execute_withSnapshot`).
-/

namespace AccumulatorMachine
set_option autoImplicit false

/-! ## The fields by kind -/

namespace Kind

/-- The kinds whose instructions replace the accumulator. -/
def replacing : List Kind :=
  [.lda, .alu .add, .alu .sub, .alu .or, .alu .and, .alu .xor, .accu .not, .accu .inc, .accu .dec,
    .accu .zro]

/-- The kinds whose instructions replace it by what the arithmetic unit gives. -/
def computing : List Kind :=
  [.alu .add, .alu .sub, .alu .or, .alu .and, .alu .xor, .accu .not, .accu .inc, .accu .dec,
    .accu .zro]

theorem alu_mem (op : AluOp) :
    .alu op ∈ replacing ∧ .alu op ∈ computing ∧ .alu op ∈ reaching := by
  cases op <;> simp [replacing, computing, reaching]

theorem accu_mem (op : AccuOp) :
    .accu op ∈ replacing ∧ .accu op ∈ computing ∧ .accu op ∉ reaching := by
  cases op <;> simp [replacing, computing, reaching]

end Kind

/-! ## Executions -/

/-- An instruction that was executed, the machine before it and the machine after it. -/
structure Execution where
  instruction : Instruction
  before : Machine
  after : Machine

namespace Execution

/-- What there is to show. Memory is looked at after the instruction, which may have stored. -/
def snapshot (e : Execution) : Snapshot :=
  let kind := e.instruction.kind
  { instruction := e.instruction.reduced
    oldAccumulator := if kind ∈ Kind.replacing then some e.before.accumulator else none
    aluResult := if kind ∈ Kind.computing then some e.after.accumulator else none
    memoryValue :=
      if kind ∈ Kind.reaching then
        e.instruction.operand?.bind fun a => e.after.memory.cells[a.toNat]?
      else none
    branchTaken := if kind = .brz then some (e.before.accumulator == 0) else none }

/-- The first half of a cycle has come to this. -/
def OfFirstHalf (e : Execution) : Prop := e.before.firstHalf = .ok (e.instruction, e.after)

/-- An instruction executed outside any cycle has come to this. -/
def OutsideCycle (e : Execution) : Prop := e.before.execute e.instruction = .ok e.after

end Execution

/-- An operation that settles alike on two machines looks alike on them from outside. -/
theorem InPlace.outcome_congr {ε α : Type} {x : InPlace ε α} {m m' done : Machine} {e? : Option ε}
    {a : α} (h : x m = settled m e? a done) (h' : x m' = settled m' e? a done) :
    outcome x m' = outcome x m := by
  rw [outcome, outcome, h, h']
  cases e? with
  | none => rfl
  | some e => rfl

namespace Machine

variable {m : Machine} {i : Instruction}

theorem fault?_reduced_eq_none_iff :
    m.fault? i.reduced = none ↔
      (i.kind ∈ Kind.reaching → ∀ a, i.operand? = some a → a.toNat < m.memory.size) := by
  rw [fault?, Instruction.cell?_reduced]
  by_cases hk : i.kind ∈ Kind.reaching
  · cases ho : i.operand? with
    | none => simp
    | some a => simp [hk, faultAt?_eq_none_iff]
  · simp [hk]

/-- The cell of an instruction that reaches into memory holds afterwards what the instruction has
stored there, or what was there before. -/
theorem getElem?_effect (hk : i.kind ∈ Kind.reaching) (h : m.fault? i.reduced = none) :
    ∃ a, i.operand? = some a ∧ (m.effect i.reduced).memory.cells[a.toNat]? =
      some (if i.kind = .sto then m.accumulator else m.memory.word a.toNat) := by
  rw [fault?_reduced_eq_none_iff] at h
  have hcell := h hk
  cases i with
  | sto a =>
    refine ⟨a &&& addressMask, rfl, ?_⟩
    rw [Memory.getElem?_eq_some_iff, size_effect]
    refine ⟨hcell _ rfl, ?_⟩
    show m.accumulator = (m.memory.put (a &&& addressMask).toNat m.accumulator).word _
    rw [Memory.word_put _ _ (hcell _ rfl), if_pos rfl]
  | lda a => exact ⟨a &&& addressMask, rfl, Memory.getElem?_eq_some_iff.2 ⟨hcell _ rfl, rfl⟩⟩
  | alu op a => exact ⟨a &&& addressMask, rfl, Memory.getElem?_eq_some_iff.2 ⟨hcell _ rfl, rfl⟩⟩
  | brz a => simp [Instruction.kind, Kind.reaching] at hk
  | accu op => exact absurd hk (Kind.accu_mem op).2.2
  | nop => simp [Instruction.kind, Kind.reaching] at hk

theorem snapshot_effect (h : m.fault? i.reduced = none) :
    (m.effect i.reduced).snapshot = Execution.snapshot ⟨i, m, m.effect i.reduced⟩ := by
  -- where the instruction reaches into memory, its cell holds what is shown
  have hcell := fun hk => getElem?_effect hk h
  cases i with
  | sto a =>
    obtain ⟨b, hb, hvalue⟩ := hcell (by simp [Instruction.kind, Kind.reaching])
    simp only [Execution.snapshot, hb, Option.bind_some, hvalue]
    rfl
  | lda a =>
    obtain ⟨b, hb, hvalue⟩ := hcell (by simp [Instruction.kind, Kind.reaching])
    simp only [Execution.snapshot, hb, Option.bind_some, hvalue]
    cases hb
    rfl
  | brz a =>
    simp only [Execution.snapshot, Instruction.kind, Kind.replacing, Kind.computing, Kind.reaching]
    rfl
  | alu op a =>
    obtain ⟨hreplacing, hcomputing, hreaching⟩ := Kind.alu_mem op
    obtain ⟨b, hb, hvalue⟩ := hcell hreaching
    simp only [Execution.snapshot, hb, Option.bind_some, hvalue]
    cases hb
    simp only [Instruction.kind, hreplacing, hcomputing, hreaching]
    rfl
  | accu op =>
    obtain ⟨hreplacing, hcomputing, hreaching⟩ := Kind.accu_mem op
    simp only [Execution.snapshot, Instruction.kind, hreplacing, hcomputing, hreaching]
    rfl
  | nop => rfl

theorem isSome_memoryValue (h : m.fault? i.reduced = none) :
    (Execution.snapshot ⟨i, m, m.effect i.reduced⟩).memoryValue.isSome ↔
      i.kind ∈ Kind.reaching := by
  by_cases hk : i.kind ∈ Kind.reaching
  · obtain ⟨a, ha, hvalue⟩ := getElem?_effect hk h
    simp [Execution.snapshot, hk, ha, hvalue]
  · simp [Execution.snapshot, hk]

theorem snapshot_of_execute {after : Machine} (h : m.execute i = .ok after) :
    after.snapshot = Execution.snapshot ⟨i, m, after⟩ := by
  obtain ⟨hnone, rfl⟩ := execute_eq_ok_iff.1 h
  exact snapshot_effect hnone

theorem snapshot_of_firstHalf {after : Machine} (h : m.firstHalf = .ok (i, after)) :
    after.snapshot = Execution.snapshot ⟨i, m, after⟩ := by
  obtain ⟨hnone, rfl, rfl⟩ := firstHalf_eq_ok_iff.1 h
  have hreduced : m.current.reduced = m.current := Instruction.reduced_decode _
  have hfault : m.fault? m.current.reduced = none := by
    rw [hreduced]
    exact (cycleError?_eq_none_iff.1 hnone).2.2
  have heffect := snapshot_effect hfault
  rw [hreduced] at heffect
  exact heffect

/-! ## The snapshot before -/

theorem effect_withSnapshot (m : Machine) (snapshot : Snapshot) (i : Instruction) :
    ({ m with snapshot } : Machine).effect i = m.effect i := by
  cases i with
  | brz a =>
    exact @effect_brz_comm (fun m => { m with snapshot }) id m a rfl (fun _ => rfl) fun _ => rfl
  | sto | lda | alu | accu | nop => rfl

theorem execute_withSnapshot (m : Machine) (snapshot : Snapshot) (i : Instruction) :
    ({ m with snapshot } : Machine).execute i = m.execute i := by
  have hsettled := InPlace.execute_eq { m with snapshot } i
  rw [effect_withSnapshot] at hsettled
  rw [execute, execute, InPlace.outcome_congr (InPlace.execute_eq m i) hsettled]

theorem firstHalf_withSnapshot (m : Machine) (snapshot : Snapshot) :
    ({ m with snapshot } : Machine).firstHalf = m.firstHalf := by
  have hsettled := InPlace.firstHalf_eq { m with snapshot }
  rw [held, effect_withSnapshot] at hsettled
  exact InPlace.outcome_congr (InPlace.firstHalf_eq m) hsettled

end Machine
end AccumulatorMachine
