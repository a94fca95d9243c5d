import AccumulatorMachine.Proofs.Machine.Strides

/-! # The watch

Nothing that a machine does looks at the watch, and only the two ends of a run touch it. So an
operation does the same with the watch set otherwise (`step_watched`), and a run is an advance with
the watch stopped at the end (`run_eq_watched`). `Machine.untimed` is a machine as far as it does
not depend on the time its runs took.
-/

namespace AccumulatorMachine.Machine
set_option autoImplicit false

/-- The machine with its watch in this state. -/
def watched (running measured : Bool) (m : Machine) : Machine :=
  { m with metrics := { m.metrics with running, measured } }

def untimed (m : Machine) : Machine := m.watched false false

section
variable (running measured : Bool) (m : Machine)

@[simp] theorem untimed_watched : (m.watched running measured).untimed = m.untimed := rfl

@[simp] theorem isDone_watched : (m.watched running measured).isDone = m.isDone := rfl

@[simp] theorem phase_watched : (m.watched running measured).phase = m.phase := rfl

@[simp] theorem branched_watched : (m.watched running measured).branched = m.branched := rfl

@[simp] theorem cycleError?_watched :
    (m.watched running measured).cycleError? = m.cycleError? := rfl

theorem effect_watched (i : Instruction) :
    (m.watched running measured).effect i = (m.effect i).watched running measured := by
  cases i with
  | brz a =>
    exact @effect_brz_comm (watched running measured) (watched running measured) m a rfl
      (fun _ => rfl) fun _ => rfl
  | sto | lda | alu | accu | nop => rfl

theorem held_watched : (m.watched running measured).held = m.held.watched running measured := by
  have hcurrent : (m.watched running measured).current = m.current := rfl
  rw [held, hcurrent, effect_watched]
  rfl

theorem step_watched :
    (m.watched running measured).step =
      m.step.map fun r => (r.1, r.2.watched running measured) := by
  cases h : m.step with
  | error e =>
    refine step_eq_error_iff.2 ?_
    rw [cycleError?_watched]
    exact step_eq_error_iff.1 h
  | ok r =>
    obtain ⟨i, after⟩ := r
    obtain ⟨hnone, rfl, rfl⟩ := step_eq_ok_iff.1 h
    refine step_eq_ok_iff.2 ⟨?_, rfl, ?_⟩
    · rw [cycleError?_watched]
      exact hnone
    · rw [held_watched]
      rfl

theorem advance_watched (budget count : Nat) :
    advance budget count (m.watched running measured) =
      let r := advance budget count m
      { r with machine := r.machine.watched running measured } := by
  induction budget generalizing count m with
  | zero => rfl
  | succ budget ih =>
    have hdone := isDone_watched running measured m
    have hstep := step_watched running measured m
    cases hd : m.isDone with
    | true =>
      rw [hd] at hdone
      rw [advance_of_done hdone, advance_of_done hd]
    | false =>
      rw [hd] at hdone
      cases hs : m.step with
      | error e =>
        rw [hs] at hstep
        rw [advance_of_error hdone hstep, advance_of_error hd hs]
      | ok r =>
        obtain ⟨i, after⟩ := r
        rw [hs] at hstep
        rw [advance_of_step hdone hstep, advance_of_step hd hs]
        exact ih after (count + 1)

end

theorem run_eq_watched (m : Machine) (budget : Nat) :
    m.run budget =
      let r := advance budget 0 m
      { r with machine := r.machine.watched false true } := by
  have hresume : { m with metrics := m.metrics.resume } = m.watched true m.metrics.measured := rfl
  rw [run, hresume, advance_watched]
  show Run.mk _ _ _ = Run.mk _ _ _
  congr 1
  show watched false (m.metrics.measured || true) (advance budget 0 m).machine = _
  rw [Bool.or_true]

end AccumulatorMachine.Machine
