import AccumulatorMachine.Proofs.Machine.Watch

/-! # Machines with more memory

A memory can be given more cells, with zeros in them (`Memory.extended`), and a machine more memory
(`Machine.enlarged`). What a machine does without an error it also does with more memory, and the
new cells stay as they are: `step_enlarged` says so of a cycle and `advance_enlarged` of a run. The
size of memory can only be seen in an error.
-/

namespace AccumulatorMachine
set_option autoImplicit false

/-! ## Memory -/

namespace Memory
variable {m : Memory} {a n : Nat}

/-- The memory with zeros after its own cells, so that there are `n` of them; one that has as many
stays. -/
def extended (n : Nat) (m : Memory) : Memory := ⟨m.cells ++ Array.replicate (n - m.size) 0⟩

theorem size_extended (h : m.size ≤ n) : (m.extended n).size = n := by
  have hsum : (m.extended n).size = m.size + (n - m.size) := by simp [extended, size]
  omega

theorem size_le_size_extended (m : Memory) (n : Nat) : m.size ≤ (m.extended n).size := by
  simp [extended, size]

@[simp] theorem word_extended (m : Memory) (n a : Nat) : (m.extended n).word a = m.word a := by
  rw [word, word, extended, Array.getD_eq_getD_getElem?, Array.getD_eq_getD_getElem?,
    Array.getElem?_append]
  by_cases h : a < m.cells.size
  · rw [if_pos h]
  · -- beyond the old cells there is a zero, or there is no cell
    rw [if_neg h, Array.getElem?_eq_none (Nat.le_of_not_lt h), Array.getElem?_replicate]
    by_cases hnew : a - m.cells.size < n - m.size
    · rw [if_pos hnew]
      rfl
    · rw [if_neg hnew]

theorem word_of_le (h : m.size ≤ a) : m.word a = 0 := by
  rw [word, Array.getD_eq_getD_getElem?, Array.getElem?_eq_none h]
  rfl

theorem read_extended (hsize : m.size ≤ n) (ha : a < n) : (m.extended n).read a = .ok (m.word a) := by
  rw [read_eq, size_extended hsize, if_pos ha, word_extended]

theorem put_extended (h : a < m.size) (n : Nat) (w : Word) :
    (m.extended n).put a w = (m.put a w).extended n := by
  have hput : (m.cells ++ Array.replicate (n - m.size) 0).setIfInBounds a w =
      m.cells.setIfInBounds a w ++ Array.replicate (n - m.size) 0 :=
    Array.setIfInBounds_append_left h
  rw [extended, extended, size_put, put, put, hput]

theorem putAll_extended {cells : List (Nat × Word)} (h : ∀ c ∈ cells, c.1 < m.size) (n : Nat) :
    (m.extended n).putAll cells = (m.putAll cells).extended n := by
  induction cells generalizing m with
  | nil => rfl
  | cons c cells ih =>
    have hrest : ∀ d ∈ cells, d.1 < (m.put c.1 c.2).size := by
      intro d hd
      rw [size_put]
      exact h d (List.mem_cons_of_mem c hd)
    rw [putAll, putAll, List.foldl_cons, List.foldl_cons, put_extended (h c List.mem_cons_self)]
    exact ih hrest

theorem zeros_extended (h : a ≤ n) : (zeros a).extended n = zeros n := by
  have hsum : a + (n - a) = n := by omega
  simp [extended, zeros, size, hsum]

end Memory

/-! ## Machines -/

namespace Machine
variable {m after : Machine} {i : Instruction}

/-- The machine with `n` cells of memory, if it has not got more. -/
def enlarged (n : Nat) (m : Machine) : Machine := { m with memory := m.memory.extended n }

theorem current_enlarged (m : Machine) (n : Nat) : (m.enlarged n).current = m.current :=
  congrArg Instruction.decode (m.memory.word_extended n m.pc.toNat)

/-- A cell that a smaller memory has, a larger one has too. -/
theorem faultAt?_enlarged {a : Word} (h : m.faultAt? a = none) (n : Nat) :
    (m.enlarged n).faultAt? a = none := by
  rw [faultAt?_eq_none_iff] at h ⊢
  exact Nat.lt_of_lt_of_le h (m.memory.size_le_size_extended n)

theorem fault?_enlarged (h : m.fault? i = none) (n : Nat) : (m.enlarged n).fault? i = none := by
  rw [fault?] at h ⊢
  cases hcell : i.cell? with
  | none => rfl
  | some a =>
    rw [hcell, Option.bind_some] at h
    rw [Option.bind_some]
    exact faultAt?_enlarged h n

theorem cycleError?_enlarged (h : m.cycleError? = none) (n : Nat) :
    (m.enlarged n).cycleError? = none := by
  obtain ⟨hidle, hpc, hfault⟩ := cycleError?_eq_none_iff.1 h
  refine cycleError?_eq_none_iff.2 ⟨hidle, ?_, ?_⟩
  · exact Nat.lt_of_lt_of_le hpc (m.memory.size_le_size_extended n)
  · rw [current_enlarged]
    exact fault?_enlarged hfault n

theorem effect_enlarged (h : m.fault? i = none) (n : Nat) :
    (m.enlarged n).effect i = (m.effect i).enlarged n := by
  cases i with
  | sto a =>
    have ha : a.toNat < m.memory.size := faultAt?_eq_none_iff.1 h
    have hput : (m.enlarged n).memory.put a.toNat m.accumulator =
        (m.memory.put a.toNat m.accumulator).extended n := Memory.put_extended ha n _
    show Machine.mk .. = Machine.mk ..
    rw [Machine.mk.injEq]
    exact ⟨rfl, hput, rfl, rfl, rfl, rfl, rfl, rfl⟩
  | lda a | alu op a =>
    have hword : (m.enlarged n).memory.word a.toNat = m.memory.word a.toNat :=
      m.memory.word_extended n a.toNat
    simp only [effect, hword]
    rfl
  | brz a => exact @effect_brz_comm (enlarged n) (enlarged n) m a rfl (fun _ => rfl) fun _ => rfl
  | accu | nop => rfl

theorem held_enlarged (h : m.cycleError? = none) (n : Nat) :
    (m.enlarged n).held = m.held.enlarged n := by
  obtain ⟨-, -, hfault⟩ := cycleError?_eq_none_iff.1 h
  rw [held, current_enlarged, effect_enlarged hfault]
  rfl

/-- A cycle that succeeds does the same with more memory. -/
theorem step_enlarged (h : m.step = .ok (i, after)) (n : Nat) :
    (m.enlarged n).step = .ok (i, after.enlarged n) := by
  obtain ⟨hnone, rfl, rfl⟩ := step_eq_ok_iff.1 h
  refine step_eq_ok_iff.2 ⟨cycleError?_enlarged hnone n, (m.current_enlarged n).symm, ?_⟩
  rw [held_enlarged hnone]
  rfl

/-- A run that succeeds does the same with more memory. -/
theorem advance_enlarged {budget count : Nat} (h : (advance budget count m).error = none) (n : Nat) :
    advance budget count (m.enlarged n) =
      let r := advance budget count m
      { r with machine := r.machine.enlarged n } := by
  induction budget generalizing count m with
  | zero => rfl
  | succ budget ih =>
    have hsame : (m.enlarged n).isDone = m.isDone := rfl
    cases hdone : m.isDone with
    | true => rw [advance_of_done hdone, advance_of_done (hsame.trans hdone)]
    | false =>
      cases hstep : m.step with
      | error e =>
        rw [advance_of_error hdone hstep] at h
        cases h
      | ok r =>
        obtain ⟨i, after⟩ := r
        rw [advance_of_step hdone hstep] at h ⊢
        rw [advance_of_step (hsame.trans hdone) (step_enlarged hstep n)]
        exact ih h

theorem run_enlarged {budget : Nat} (h : (m.run budget).error = none) (n : Nat) :
    (m.enlarged n).run budget =
      let r := m.run budget
      { r with machine := r.machine.enlarged n } := by
  simp only [run_eq_watched] at h ⊢
  rw [advance_enlarged h]
  rfl

end Machine

end AccumulatorMachine
