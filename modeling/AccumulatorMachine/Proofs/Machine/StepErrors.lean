import AccumulatorMachine.Proofs.Machine.InPlace

/-! # The errors of a step

When an operation of the machine fails, with which error, and what it leaves: the machine as it
was. The kinds of instruction that reach into memory are listed once (`Kind.reaching`), and the
errors of a cycle are described without the operations that find them (`Machine.CycleFails`).
-/

namespace AccumulatorMachine
set_option autoImplicit false

/-! ## Reaching into memory -/

/-- The kinds whose instructions read or write a cell. -/
def Kind.reaching : List Kind :=
  [.sto, .lda, .alu .add, .alu .sub, .alu .or, .alu .and, .alu .xor]

namespace Instruction

theorem cell?_reduced (i : Instruction) :
    i.reduced.cell? = if i.kind ∈ Kind.reaching then i.operand? else none := by
  cases i with
  | sto a => rfl
  | lda a => rfl
  | brz a => rfl
  | alu op a => cases op <;> rfl
  | accu op => cases op <;> rfl
  | nop => rfl

theorem cell?_decode (w : Word) :
    (decode w).cell? =
      if (decode w).kind ∈ Kind.reaching then some (w &&& addressMask) else none := by
  rw [← reduced_decode w, cell?_reduced, reduced_decode w]
  by_cases h : (decode w).kind ∈ Kind.reaching
  · rw [if_pos h, if_pos h]
    rw [decode, kind_make] at h
    rw [decode, make, operand?, given?_ofKind, if_pos]
    · rw [Option.map_some, and_addressMask_idem]
    · revert h
      generalize Kind.ofOpcode (w.toNat / 4096) = k
      intro h
      cases k with
      | accu op => cases op <;> simp [Kind.reaching] at h
      | nop => simp [Kind.reaching] at h
      | sto | lda | brz | alu => rfl
  · rw [if_neg h, if_neg h]

end Instruction

/-! ## What can go wrong -/

namespace Machine

/-- The errors with which a cycle of `m` fails. -/
inductive CycleFails (m : Machine) : StepError → Prop
  /-- The machine holds an instruction. -/
  | phase : m.phase ≠ .idle → m.CycleFails (.sequence .idle m.phase)
  /-- There is no cell at the program counter. -/
  | fetch : m.phase = .idle → m.memory.size ≤ m.pc.toNat →
      m.CycleFails (.memory ⟨m.pc.toNat, m.memory.size⟩)
  /-- There is an instruction, but not the cell that it is about. -/
  | operand {w : Word} : m.phase = .idle → m.memory.cells[m.pc.toNat]? = some w →
      (Instruction.decode w).kind ∈ Kind.reaching → m.memory.size ≤ w.toNat % 4096 →
      m.CycleFails (.memory ⟨(w.toNat % 4096 : Nat), m.memory.size⟩)

/-- The faults with which the instruction `i` fails outside any cycle. -/
inductive ExecuteFails (m : Machine) (i : Instruction) : AddressFault → Prop
  | operand {a : Word} : i.kind ∈ Kind.reaching → i.operand? = some a →
      m.memory.size ≤ a.toNat → m.ExecuteFails i ⟨a.toNat, m.memory.size⟩

theorem faultAt?_eq_some_iff {m : Machine} {a : Word} {e : AddressFault} :
    m.faultAt? a = some e ↔ m.memory.size ≤ a.toNat ∧ e = ⟨a.toNat, m.memory.size⟩ := by
  rw [faultAt?]
  by_cases h : a.toNat < m.memory.size
  · have hle : ¬m.memory.size ≤ a.toNat := by omega
    simp [h, hle]
  · have hle : m.memory.size ≤ a.toNat := by omega
    simp [h, hle, eq_comm]

theorem faultAt?_eq_none_iff {m : Machine} {a : Word} :
    m.faultAt? a = none ↔ a.toNat < m.memory.size := by
  rw [faultAt?]
  by_cases h : a.toNat < m.memory.size
  · simp [h]
  · simp [h]

theorem cell_at_pc_iff {m : Machine} {w : Word} :
    m.memory.cells[m.pc.toNat]? = some w ↔ m.pc.toNat < m.memory.size ∧ w = m.currentWord :=
  Memory.getElem?_eq_some_iff

theorem fault?_reduced_eq_some_iff {m : Machine} {i : Instruction} {e : AddressFault} :
    m.fault? i.reduced = some e ↔ m.ExecuteFails i e := by
  rw [fault?, Instruction.cell?_reduced]
  constructor
  · intro h
    by_cases hk : i.kind ∈ Kind.reaching
    · rw [if_pos hk] at h
      obtain ⟨a, ha, hf⟩ := Option.bind_eq_some_iff.1 h
      obtain ⟨hle, rfl⟩ := faultAt?_eq_some_iff.1 hf
      exact .operand hk ha hle
    · rw [if_neg hk] at h
      cases h
  · rintro ⟨hk, ha, hle⟩
    rw [if_pos hk, ha, Option.bind_some]
    exact faultAt?_eq_some_iff.2 ⟨hle, rfl⟩

theorem fault?_current_eq_some_iff {m : Machine} {e : AddressFault} :
    m.fault? m.current = some e ↔
      m.current.kind ∈ Kind.reaching ∧ m.memory.size ≤ m.currentWord.toNat % 4096 ∧
        e = ⟨(m.currentWord.toNat % 4096 : Nat), m.memory.size⟩ := by
  rw [fault?, current, Instruction.cell?_decode]
  by_cases hk : (Instruction.decode m.currentWord).kind ∈ Kind.reaching
  · rw [if_pos hk, Option.bind_some, faultAt?_eq_some_iff, Registers.toNat_and_addressMask]
    simp [hk]
  · simp [hk]

theorem cycleError?_eq_none_iff {m : Machine} :
    m.cycleError? = none ↔
      m.phase = .idle ∧ m.pc.toNat < m.memory.size ∧ m.fault? m.current = none := by
  rw [cycleError?, phaseError?, Option.or_eq_none_iff, Option.map_eq_none_iff, cycleFault?,
    Option.or_eq_none_iff, faultAt?_eq_none_iff]
  by_cases hp : m.phase = .idle
  · simp [hp]
  · simp [hp]

theorem cycleError?_eq_some_iff {m : Machine} {e : StepError} :
    m.cycleError? = some e ↔ m.CycleFails e := by
  rw [cycleError?, phaseError?]
  by_cases hp : m.phase = .idle
  · rw [if_pos hp, Option.none_or, Option.map_eq_some_iff]
    constructor
    · rintro ⟨f, hf, rfl⟩
      rw [cycleFault?, Option.or_eq_some_iff] at hf
      obtain hf | ⟨hpc, hf⟩ := hf
      · obtain ⟨hle, rfl⟩ := faultAt?_eq_some_iff.1 hf
        exact .fetch hp hle
      · obtain ⟨hk, hle, rfl⟩ := fault?_current_eq_some_iff.1 hf
        exact .operand hp (cell_at_pc_iff.2 ⟨faultAt?_eq_none_iff.1 hpc, rfl⟩) hk hle
    · intro h
      cases h with
      | phase hn => exact absurd hp hn
      | fetch _ hle =>
        exact ⟨_, Option.or_eq_some_iff.2 (.inl (faultAt?_eq_some_iff.2 ⟨hle, rfl⟩)), rfl⟩
      | operand _ hw hk hle =>
        obtain ⟨hlt, rfl⟩ := cell_at_pc_iff.1 hw
        have hf := fault?_current_eq_some_iff.2 ⟨hk, hle, rfl⟩
        exact ⟨_, Option.or_eq_some_iff.2 (.inr ⟨faultAt?_eq_none_iff.2 hlt, hf⟩), rfl⟩
  · rw [if_neg hp, Option.some_or, Option.some.injEq]
    constructor
    · rintro rfl
      exact .phase hp
    · intro h
      cases h with
      | phase => rfl
      | fetch h => exact absurd h hp
      | operand h => exact absurd h hp

theorem cycleError?_of_brz {m : Machine} {w : Word} (hidle : m.phase = .idle)
    (hw : m.memory.cells[m.pc.toNat]? = some w) (hk : (Instruction.decode w).kind = .brz) :
    m.cycleError? = none ∧ m.current = Instruction.decode w := by
  obtain ⟨hlt, hword⟩ := cell_at_pc_iff.1 hw
  have hcurrent : m.current = Instruction.decode w := by rw [current, hword]
  refine ⟨Option.eq_none_iff_forall_ne_some.2 fun e he => ?_, hcurrent⟩
  cases cycleError?_eq_some_iff.1 he with
  | phase hn => exact hn hidle
  | fetch _ hle => omega
  | operand _ hw' hk' _ =>
    rw [hw, Option.some.injEq] at hw'
    rw [← hw', hk] at hk'
    exact absurd hk' (by decide)

end Machine

/-! ## The operations -/

namespace InPlace

theorem execute_eq_error_iff {m after : Machine} {i : Instruction} {e : AddressFault} :
    execute i m = .error e after ↔ m.ExecuteFails i e ∧ after = m := by
  rw [execute_eq, settled_eq_error_iff, Machine.fault?_reduced_eq_some_iff]

theorem firstHalf_eq_error_iff {m after : Machine} {e : StepError} :
    firstHalf m = .error e after ↔ m.CycleFails e ∧ after = m := by
  rw [firstHalf_eq, settled_eq_error_iff, Machine.cycleError?_eq_some_iff]

theorem step_eq_error_iff {m after : Machine} {e : StepError} :
    step m = .error e after ↔ m.CycleFails e ∧ after = m := by
  rw [step_eq, settled_eq_error_iff, Machine.cycleError?_eq_some_iff]

theorem secondHalf_eq_error_iff {m after : Machine} {e : StepError} :
    secondHalf m = .error e after ↔
      (m.phase ≠ .firstPhaseDone ∧ e = .sequence .firstPhaseDone m.phase) ∧ after = m := by
  rw [secondHalf_eq, settled_eq_error_iff, Machine.phaseError?]
  by_cases h : m.phase = .firstPhaseDone
  · simp [h]
  · simp [h, eq_comm]

theorem execute_of_brz {i : Instruction} (m : Machine) (hk : i.kind = .brz) :
    ∃ after, execute i m = .ok () after := by
  have hcell : m.fault? i.reduced = none := by
    rw [Machine.fault?, Instruction.cell?_reduced, hk, if_neg (by decide)]
    rfl
  exact ⟨_, (execute_eq m i).trans (settled_eq_ok_iff.2 ⟨hcell, rfl, rfl⟩)⟩

/-- Each operation fails exactly with the errors that are described for it, and whatever fails
leaves the whole machine as it was. A branch never fails. -/
theorem errors_exact_and_atomic (m : Machine) :
    (∀ e after, firstHalf m = .error e after ↔ m.CycleFails e ∧ after = m) ∧
    (∀ e after, step m = .error e after ↔ m.CycleFails e ∧ after = m) ∧
    (∀ e after, secondHalf m = .error e after ↔
      (m.phase ≠ .firstPhaseDone ∧ e = .sequence .firstPhaseDone m.phase) ∧ after = m) ∧
    (∀ i e after, execute i m = .error e after ↔ m.ExecuteFails i e ∧ after = m) ∧
    (∀ i : Instruction, i.kind = .brz → ∃ after, execute i m = .ok () after) ∧
    (∀ w, m.phase = .idle → m.memory.cells[m.pc.toNat]? = some w →
      (Instruction.decode w).kind = .brz →
        (∃ after, firstHalf m = .ok (Instruction.decode w) after) ∧
        ∃ after, step m = .ok (Instruction.decode w) after) := by
  refine ⟨fun e after => firstHalf_eq_error_iff, fun e after => step_eq_error_iff,
    fun e after => secondHalf_eq_error_iff, fun i e after => execute_eq_error_iff,
    fun i hk => execute_of_brz m hk, fun w hidle hw hk => ?_⟩
  obtain ⟨hnone, hcurrent⟩ := Machine.cycleError?_of_brz hidle hw hk
  constructor
  · refine ⟨m.held, ?_⟩
    rw [firstHalf_eq, settled_eq_ok_iff]
    exact ⟨hnone, hcurrent.symm, rfl⟩
  · refine ⟨m.held.retired, ?_⟩
    rw [step_eq, settled_eq_ok_iff]
    exact ⟨hnone, hcurrent.symm, rfl⟩

end InPlace

end AccumulatorMachine
