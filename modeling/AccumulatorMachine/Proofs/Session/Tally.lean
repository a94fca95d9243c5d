import AccumulatorMachine.Proofs.Session.History

/-! # Counting beside the machine

A history has a count of its own of the instructions executed in it (`Session.tally`), beside the
count that the machine keeps. The machine's is behind by the instruction that it holds
(`Machine.Tallies`), which it only counts when it retires it.
-/

namespace AccumulatorMachine
set_option autoImplicit false

namespace Machine

/-- Of `n` instructions executed, the machine has counted all but the one that it holds. -/
def Tallies (m : Machine) (n : Nat) : Prop :=
  m.metrics.instructions + (if m.phase = .firstPhaseDone then 1 else 0) = UInt64.ofNat n

theorem tallies_watched {running measured : Bool} {m : Machine} {n : Nat} :
    (m.watched running measured).Tallies n ↔ m.Tallies n := Iff.rfl

/-- What an instruction does when it is executed counts nothing. -/
theorem Tallies.effect {m : Machine} {n : Nat} (h : m.Tallies n) (i : Instruction) :
    (m.effect i).Tallies n := by
  rw [Tallies, effect_instructions, effect_phase]
  exact h

theorem Tallies.stride {m after : Machine} {n : Nat} (h : m.Tallies n) {x : Stride}
    (hx : m.stride x = .ok after) : after.Tallies (n + if x.begins then 1 else 0) := by
  have hphase := phase_of_stride hx
  obtain ⟨-, rfl⟩ := stride_eq_ok_iff.1 hx
  rw [Tallies, hphase] at h
  rw [Tallies, UInt64.ofNat_add, ← h]
  cases x with
  | firstHalf =>
    have hcount : (m.strode .firstHalf).metrics.instructions = m.metrics.instructions :=
      instructions_held m
    rw [hcount, UInt64.add_assoc]
    rfl
  | secondHalf => rfl
  | whole =>
    have hcount : (m.strode .whole).metrics.instructions = m.metrics.instructions + 1 := by
      rw [strode, instructions_retired, instructions_held]
    rw [hcount, UInt64.add_assoc, UInt64.add_assoc]
    rfl

theorem Tallies.steps {m after : Machine} {n k : Nat} (h : m.Tallies n)
    (hk : m.steps k = .ok after) : after.Tallies (n + k) := by
  rw [Tallies, phase_of_steps hk, instructions_of_steps hk, UInt64.ofNat_add, ← h]
  ac_rfl

end Machine

namespace Session

/-- How many instructions have been executed within cycles since the last load, when there were `n`
of them before the operation. -/
def tally (s : Session) (n : Nat) (o : Operation) : Nat :=
  if o.renews then 0 else n + s.count Stride.begins o

theorem tallies_perform {s : Session} {n : Nat} (h : s.machine.Tallies n) (o : Operation) :
    (s.perform o).machine.Tallies (s.tally n o) := by
  have hdoes := s.perform_does o
  generalize (s.perform o).machine = after at hdoes ⊢
  rw [tally]
  cases hdoes with
  | renew memory last hrenews =>
    rw [if_pos hrenews]
    rfl
  | edit _ _ _ hrenews hcount =>
    rw [hrenews, hcount]
    exact h
  | @execute i _ hm =>
    -- outside a cycle nothing is counted, on neither side
    obtain ⟨-, rfl⟩ := Machine.execute_eq_ok_iff.1 hm
    exact h.effect i.reduced
  | @stride x _ hx =>
    have hok := stride_eq_ok_iff.2 ⟨_, hx, rfl⟩
    have hcount : s.count Stride.begins (.stride x) = if x.begins then 1 else 0 := by
      rw [count, hok]
      simp [Except.isOk, Except.toBool]
    rw [hcount]
    exact h.stride hx
  | cycles _ _ hrenews hcount _ hsteps =>
    rw [Machine.tallies_watched, hrenews, hcount]
    exact h.steps hsteps

end Session
end AccumulatorMachine
