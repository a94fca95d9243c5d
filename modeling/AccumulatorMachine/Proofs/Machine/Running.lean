import AccumulatorMachine.Machine.Run
import AccumulatorMachine.Proofs.Machine.StepErrors

/-! # Machines that run

What every operation of a machine keeps (`Machine.Keeps`), one operation after the other and so over
whole runs, how a run unfolds into its steps, and when it is done.
-/

namespace AccumulatorMachine
set_option autoImplicit false

namespace Machine

/-! ## The program counter -/

/-- The program counter has not been set from `m` to `after`, or has been set to an address of
twelve bits. -/
def Ranges (m after : Machine) : Prop := after.pc.toNat < 4096 ∨ after.pc = m.pc

theorem Ranges.refl (m : Machine) : m.Ranges m := .inr rfl

theorem Ranges.trans {m mid after : Machine} (h : m.Ranges mid) (h' : mid.Ranges after) :
    m.Ranges after := by
  obtain hlt | heq := h'
  · exact .inl hlt
  · rw [Ranges, heq]
    exact h

theorem Ranges.pc_lt {m after : Machine} (h : m.Ranges after) (hm : m.pc.toNat < 4096) :
    after.pc.toNat < 4096 := by
  obtain hlt | heq := h
  · exact hlt
  · rw [heq]
    exact hm

theorem ranges_effect (m : Machine) (i : Instruction) : m.Ranges (m.effect i) := by
  rw [Ranges, effect_pc]
  cases m.target? i with
  | none => exact .inr rfl
  | some a => exact .inl (Registers.toNat_jump_pc_lt m.registers a)

theorem ranges_retired (m : Machine) : m.Ranges m.retired := by
  cases h : m.branched with
  | true => exact .inr (retired_pc_of_branched h)
  | false =>
    rw [Ranges, toNat_retired_pc h]
    exact .inl (Nat.mod_lt _ (by decide))

/-! ## What operations keep -/

/-- Between two cycles no branch is marked. -/
def Rested (m : Machine) : Prop := m.phase = .idle → m.branched = false

/-- What stays from `m` to `after` while the machine works. -/
structure Keeps (m after : Machine) : Prop where
  lastAddress : after.lastAddress = m.lastAddress
  size : after.memory.size = m.memory.size
  rested : m.Rested → after.Rested
  pc_lt : m.pc.toNat < 4096 → after.pc.toNat < 4096

theorem Keeps.refl (m : Machine) : m.Keeps m := ⟨rfl, rfl, id, id⟩

theorem Keeps.trans {m mid after : Machine} (h : m.Keeps mid) (h' : mid.Keeps after) :
    m.Keeps after where
  lastAddress := h'.lastAddress.trans h.lastAddress
  size := h'.size.trans h.size
  rested hm := h'.rested (h.rested hm)
  pc_lt hm := h'.pc_lt (h.pc_lt hm)

@[simp] theorem size_effect (m : Machine) (i : Instruction) :
    (m.effect i).memory.size = m.memory.size := by
  rw [effect_memory]
  cases i with
  | sto a => exact Memory.size_put _ _ _
  | lda | brz | alu | accu | nop => rfl

theorem keeps_held (m : Machine) : m.Keeps m.held where
  lastAddress := effect_lastAddress m m.current
  size := size_effect m m.current
  rested _ hidle := by cases hidle
  pc_lt := (m.ranges_effect m.current).pc_lt

theorem keeps_retired (m : Machine) : m.Keeps m.retired where
  lastAddress := rfl
  size := rfl
  rested _ _ := rfl
  pc_lt := m.ranges_retired.pc_lt

theorem keeps_of_firstHalf {m after : Machine} {i : Instruction} (h : m.firstHalf = .ok (i, after)) :
    m.Keeps after := by
  obtain ⟨-, -, rfl⟩ := firstHalf_eq_ok_iff.1 h
  exact m.keeps_held

theorem keeps_of_secondHalf {m after : Machine} (h : m.secondHalf = .ok after) : m.Keeps after := by
  obtain ⟨-, rfl⟩ := secondHalf_eq_ok_iff.1 h
  exact m.keeps_retired

theorem keeps_of_step {m after : Machine} {i : Instruction} (h : m.step = .ok (i, after)) :
    m.Keeps after := by
  obtain ⟨-, -, rfl⟩ := step_eq_ok_iff.1 h
  exact m.keeps_held.trans m.held.keeps_retired

/-! ## Runs -/

theorem advance_of_done {m : Machine} (h : m.isDone = true) (budget count : Nat) :
    advance budget count m = { machine := m, count } := by
  cases budget with
  | zero => rfl
  | succ budget => rw [advance, if_pos h]

theorem advance_of_step {m after : Machine} {i : Instruction} (hdone : m.isDone = false)
    (h : m.step = .ok (i, after)) (budget count : Nat) :
    advance (budget + 1) count m = advance budget (count + 1) after := by
  rw [advance, hdone, InPlace.eq_ok_of_outcome h]
  rfl

/-- The machine that the failed cycle leaves is the one before it. -/
theorem advance_of_error {m : Machine} {e : StepError} (hdone : m.isDone = false)
    (h : m.step = .error e) (budget count : Nat) :
    advance (budget + 1) count m = { machine := m, count, error := some e } := by
  rw [advance, hdone, InPlace.atomic_step.eq_error_of_outcome h]
  rfl

/-- The instructions before an advance are only counted. -/
theorem advance_count (budget count : Nat) (m : Machine) :
    advance budget count m =
      { advance budget 0 m with count := count + (advance budget 0 m).count } := by
  induction budget generalizing count m with
  | zero => rfl
  | succ budget ih =>
    cases hdone : m.isDone with
    | true =>
      rw [advance_of_done hdone, advance_of_done hdone]
      rfl
    | false =>
      cases hstep : m.step with
      | error e =>
        rw [advance_of_error hdone hstep, advance_of_error hdone hstep]
        rfl
      | ok result =>
        obtain ⟨i, after⟩ := result
        have hsum (n : Nat) : count + 1 + n = count + (0 + 1 + n) := by omega
        rw [advance_of_step hdone hstep, advance_of_step hdone hstep, ih (count + 1), ih (0 + 1),
          hsum]

/-- An advance goes on where a shorter one has ended, unless that one has failed. -/
theorem advance_add (a b count : Nat) (m : Machine) :
    advance (a + b) count m =
      match (advance a count m).error with
      | none => advance b (advance a count m).count (advance a count m).machine
      | some _ => advance a count m := by
  induction a generalizing count m with
  | zero =>
    rw [Nat.zero_add]
    rfl
  | succ a ih =>
    have hsum : a + 1 + b = a + b + 1 := by omega
    rw [hsum]
    cases hdone : m.isDone with
    | true =>
      rw [advance_of_done hdone, advance_of_done hdone]
      exact (advance_of_done hdone b count).symm
    | false =>
      cases hstep : m.step with
      | error e => rw [advance_of_error hdone hstep, advance_of_error hdone hstep]
      | ok result =>
        obtain ⟨i, after⟩ := result
        rw [advance_of_step hdone hstep, advance_of_step hdone hstep]
        exact ih (count + 1) after

theorem keeps_advance (budget count : Nat) (m : Machine) :
    m.Keeps (advance budget count m).machine := by
  induction budget generalizing count m with
  | zero => exact .refl m
  | succ budget ih =>
    cases hdone : m.isDone with
    | true =>
      rw [advance_of_done hdone]
      exact .refl m
    | false =>
      cases hstep : m.step with
      | error e =>
        rw [advance_of_error hdone hstep]
        exact .refl m
      | ok result =>
        obtain ⟨i, after⟩ := result
        rw [advance_of_step hdone hstep]
        exact (keeps_of_step hstep).trans (ih (count + 1) after)

def withMetrics (m : Machine) (metrics : Metrics) : Machine := { m with metrics }

theorem keeps_withMetrics (m : Machine) (metrics : Metrics) : m.Keeps (m.withMetrics metrics) :=
  ⟨rfl, rfl, id, id⟩

/-- A run is an advance between two movements of the watch. -/
theorem run_eq (m : Machine) (budget : Nat) :
    ∃ metrics metrics', m.run budget =
      let r := advance budget 0 (m.withMetrics metrics)
      { r with machine := r.machine.withMetrics metrics' } :=
  ⟨_, _, rfl⟩

theorem keeps_run (m : Machine) (budget : Nat) : m.Keeps (m.run budget).machine := by
  obtain ⟨metrics, metrics', hrun⟩ := m.run_eq budget
  rw [hrun]
  exact ((m.keeps_withMetrics metrics).trans (keeps_advance budget 0 _)).trans
    (keeps_withMetrics _ metrics')

theorem runToEnd?_eq_some_iff {m : Machine} {patience : Nat} {r : Run} :
    m.runToEnd? patience = some r ↔ r = m.run patience ∧ r.isFinal = true := by
  rw [runToEnd?]
  simp only [Option.ite_none_right_eq_some, Option.some.injEq]
  constructor
  · rintro ⟨hfinal, rfl⟩
    exact ⟨rfl, hfinal⟩
  · rintro ⟨rfl, hfinal⟩
    exact ⟨hfinal, rfl⟩

end Machine

theorem Run.result_eq_ok_iff {r : Run} {n : Nat} :
    r.result = .ok n ↔ r.error = none ∧ n = r.count := by
  rw [result]
  cases r.error with
  | none => simp [eq_comm]
  | some e => simp

theorem Run.result_eq_error_iff {r : Run} {e : StepError} :
    r.result = .error e ↔ r.error = some e := by
  rw [result]
  cases r.error with
  | none => simp
  | some e' => simp

/-! ## Being done -/

namespace Machine

/-- A machine goes on while the program counter is not behind the last instruction. -/
theorem isDone_eq_false_iff {m : Machine} :
    m.isDone = false ↔ ∃ last, m.lastAddress = some last ∧ m.pc.toNat ≤ last.toNat := by
  rw [isDone]
  cases m.lastAddress with
  | none => simp
  | some last => simp [UInt16.le_iff_toNat_le]

/-- With a program of `n` instructions, the machine is done from the address `n` on. -/
theorem isDone_iff {m : Machine} {n : Nat} (hpos : 0 < n) (hle : n ≤ 4096)
    (hlast : m.lastAddress = some (UInt16.ofNat (n - 1))) : m.isDone = true ↔ n ≤ m.pc.toNat := by
  have hn : (UInt16.ofNat (n - 1)).toNat = n - 1 := UInt16.toNat_ofNat_of_lt' (by
    show n - 1 < 65536
    omega)
  rw [isDone, hlast]
  show decide (UInt16.ofNat (n - 1) < m.pc) = true ↔ _
  rw [decide_eq_true_iff, UInt16.lt_iff_toNat_lt, hn]
  omega

end Machine

end AccumulatorMachine
