import AccumulatorMachine.Proofs.Machine.Watch
import AccumulatorMachine.Session

/-! # Bounded runs

A run with a budget is a number of whole cycles, each begun by a machine that is not done, and it
ends in one of three ways (`Machine.Ends`). So a run of `a + b` instructions is a run of `a` of
them and then one of `b`, unless the first one fails; and what is executed is counted once.
-/

namespace AccumulatorMachine.Session
set_option autoImplicit false

theorem run_eq_watched (s : Session) (budget : Nat) :
    s.run budget =
      let r := Machine.advance budget 0 s.machine
      (s.withMachine (r.machine.watched false true), r.result) := by
  rw [run, Machine.run_eq_watched]
  rfl

/-- The whole cycles that a run comes to, and how it ends. -/
theorem run_ends (s : Session) (budget : Nat) :
    ∃ k m e?, s.machine.steps k = .ok m ∧ m.Ends budget k e? ∧
      s.run budget = (s.withMachine (m.watched false true),
        match e? with
        | none => .ok k
        | some e => .error e) := by
  obtain ⟨k, hcount, hsteps, hends⟩ := Machine.advance_ends budget 0 s.machine
  refine ⟨k, _, _, hsteps, hends, ?_⟩
  rw [run_eq_watched]
  show (_, Run.result _) = _
  rw [Run.result, hcount, Nat.zero_add]
  cases (Machine.advance budget 0 s.machine).error with
  | none => rfl
  | some e => rfl

/-- Runs one after the other are one run, as long as the first one does not fail. -/
theorem run_add (s : Session) (a b : Nat) :
    s.run (a + b) =
      match (s.run a).2 with
      | .ok n => (((s.run a).1.run b).1, ((s.run a).1.run b).2.map (n + ·))
      | .error _ => s.run a := by
  have hadd := Machine.advance_add a b 0 s.machine
  simp only [run_eq_watched]
  generalize Machine.advance a 0 s.machine = r at hadd ⊢
  rw [hadd]
  cases herror : r.error with
  | some e =>
    have hresult : r.result = .error e := Run.result_eq_error_iff.2 herror
    show (s.withMachine _, r.result) = _
    rw [hresult]
  | none =>
    have hresult : r.result = .ok r.count := Run.result_eq_ok_iff.2 ⟨herror, rfl⟩
    -- the second run begins with the watch stopped, and counts from zero
    have hwatch := Machine.advance_watched false true r.machine b 0
    have hcount := Machine.advance_count b r.count r.machine
    rw [hresult]
    show (s.withMachine (Machine.watched _ _ (Machine.advance b r.count r.machine).machine),
        (Machine.advance b r.count r.machine).result) =
      (s.withMachine (Machine.watched _ _
          (Machine.advance b 0 (r.machine.watched false true)).machine),
        (Machine.advance b 0 (r.machine.watched false true)).result.map (r.count + ·))
    rw [hwatch, hcount, Run.result, Run.result]
    cases (Machine.advance b 0 r.machine).error with
    | none => rfl
    | some e => rfl

/-- **Bounded runs compose, and account for every instruction.** After a run that ends well the rest
of a larger budget does what a run of its own would do, and a run that fails makes no use of it. A
run that ends well is as many whole cycles as it says and counts them all; it is done or has spent
its budget. A run that fails leaves what the cycle that failed in place has left, which is the machine
after the good cycles before. Either way the watch is stopped. -/
theorem bounded_runs_compose_and_account (s : Session) :
    (∀ a b n, (s.run a).2 = .ok n →
      s.run (a + b) = (((s.run a).1.run b).1, ((s.run a).1.run b).2.map (n + ·))) ∧
    (∀ a b e, (s.run a).2 = .error e → s.run (a + b) = s.run a) ∧
    (∀ a n, (s.run a).2 = .ok n →
      n ≤ a ∧ ((s.run a).1.machine.isDone = true ∨ n = a) ∧
      (s.run a).1.machine.metrics.instructions =
        s.machine.metrics.instructions + UInt64.ofNat n ∧
      (s.run a).1.machine.metrics.cycles = s.machine.metrics.cycles + UInt64.ofNat n ∧
      ∃ last, s.machine.steps n = .ok last ∧
        (s.run a).1 = s.withMachine (last.watched false true)) ∧
    (∀ a e, (s.run a).2 = .error e → ∃ k last, k < a ∧ s.machine.steps k = .ok last ∧
      last.isDone = false ∧ InPlace.step last = .error e last ∧
      (s.run a).1 = s.withMachine (last.watched false true)) ∧
    (∀ a, (s.run a).1.machine.metrics.running = false) := by
  refine ⟨fun a b n h => ?_, fun a b e h => ?_, fun a n h => ?_, fun a e h => ?_, fun a => ?_⟩
  · rw [run_add, h]
  · rw [run_add, h]
  · obtain ⟨k, m, e?, hsteps, hends, hrun⟩ := s.run_ends a
    have hinstructions := Machine.instructions_of_steps hsteps
    have hcycles := Machine.cycles_of_steps hsteps
    rw [hrun] at h ⊢
    cases hends with
    | failed => cases h
    | done hle hdone =>
      cases h
      exact ⟨hle, .inl hdone, hinstructions, hcycles, m, hsteps, rfl⟩
    | spent heq =>
      cases h
      exact ⟨Nat.le_of_eq heq, .inr heq, hinstructions, hcycles, m, hsteps, rfl⟩
  · obtain ⟨k, m, e?, hsteps, hends, hrun⟩ := s.run_ends a
    rw [hrun] at h ⊢
    cases hends with
    | done | spent => cases h
    | failed hlt hdone hstep =>
      cases h
      exact ⟨k, m, hlt, hsteps, hdone, InPlace.atomic_step.eq_error_of_outcome hstep, rfl⟩
  · obtain ⟨k, m, e?, -, -, hrun⟩ := s.run_ends a
    rw [hrun]
    rfl

/-- Three words in a memory of four, of which the last one reaches outside. -/
def stumbling : Session := ((ofSettings { memorySize := 4 }).load "INC\nINC\nLDA 9").1

theorem bounded_runs_of_stumbling :
    (stumbling.run 1).2 = .ok 1 ∧
      stumbling.run (1 + 1) =
        (((stumbling.run 1).1.run 1).1, ((stumbling.run 1).1.run 1).2.map (1 + ·)) ∧
      (stumbling.run 2).2 = .ok 2 ∧ (stumbling.run 2).1.machine.metrics.cycles = 2 ∧
      (stumbling.run 3).2 = .error (.memory ⟨9, 4⟩) ∧ stumbling.run (3 + 4) = stumbling.run 3 := by
  obtain ⟨hsplit, hfails, hcounts, -, -⟩ := bounded_runs_compose_and_account stumbling
  have hone : (stumbling.run 1).2 = .ok 1 := rfl
  have htwo : (stumbling.run 2).2 = .ok 2 := rfl
  have hthree : (stumbling.run 3).2 = .error (.memory ⟨9, 4⟩) := rfl
  obtain ⟨-, -, -, hcycles, -⟩ := hcounts 2 2 htwo
  exact ⟨hone, hsplit 1 1 1 hone, htwo, hcycles, hthree, hfails 3 4 _ hthree⟩

end AccumulatorMachine.Session
