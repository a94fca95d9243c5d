import AccumulatorMachine.Proofs.Machine.Watch

/-! # The trail of a machine

What a machine does along the chain of halves, one entry for each half that succeeds
(`Machine.trail`): the instruction that was executed, with the address it stood at and the
accumulator it found, or that an instruction was retired. Whatever holds of a machine and its trail
and is kept by the two halves holds after any number of them (`Machine.halves_induction`), and after
strides and runs that begin nothing past the end of the program if it only needs that much
(`Machine.Lasting`), and after all that can be done to a machine if it needs nothing but the halves
(`Machine.Enduring`). The counters only count the entries (`Machine.Counts`).
-/

namespace AccumulatorMachine
set_option autoImplicit false

/-! ## Entries -/

/-- What a half of a cycle has done. -/
inductive Half
  /-- The instruction at the address `pc` was executed, the accumulator being `before`. -/
  | executed (pc : Word) (instruction : Instruction) (before : Word)
  | retired
deriving DecidableEq

namespace Half

def begins : Half → Bool
  | executed .. => true
  | retired => false

def ends : Half → Bool
  | executed .. => false
  | retired => true

/-- Whether a branch was taken. -/
def branches : Half → Bool
  | executed _ i before => i.kind == .brz && before == 0
  | retired => false

/-- The address of the cell that was stored. -/
def stored? : Half → Option Nat
  | executed _ (.sto a) _ => some a.toNat
  | executed .. | retired => none

theorem begins_of_branches {h : Half} (hb : h.branches = true) : h.begins = true := by
  cases h with
  | executed => rfl
  | retired => cases hb

end Half

namespace Machine

/-! ## The trail -/

/-- What the next `n` halves of cycles do, as far as they succeed. -/
def trail : Nat → Machine → List Half
  | 0, _ => []
  | n + 1, m =>
    match m.phase with
    | .idle =>
      match m.firstHalf with
      | .ok (i, after) => .executed m.pc i m.accumulator :: trail n after
      | .error _ => []
    | .firstPhaseDone =>
      match m.secondHalf with
      | .ok after => .retired :: trail n after
      | .error _ => []

theorem trail_of_idle {m : Machine} (h : m.cycleError? = none) (n : Nat) :
    trail (n + 1) m = .executed m.pc m.current m.accumulator :: trail n m.held := by
  have hidle : m.phase = .idle := (cycleError?_eq_none_iff.1 h).1
  have hfirst : m.firstHalf = .ok (m.current, m.held) := firstHalf_eq_ok_iff.2 ⟨h, rfl, rfl⟩
  rw [trail, hidle, hfirst]

theorem trail_of_executed {m : Machine} (h : m.phase = .firstPhaseDone) (n : Nat) :
    trail (n + 1) m = .retired :: trail n m.retired := by
  have hsecond : m.secondHalf = .ok m.retired := secondHalf_eq_ok_iff.2 ⟨h, rfl⟩
  rw [trail, h, hsecond]

theorem half_eq_ok {m after : Machine} (h : m.half = .ok after) :
    m.cycleError? = none ∧ after = m.held ∨ m.phase = .firstPhaseDone ∧ after = m.retired := by
  cases hphase : m.phase with
  | idle =>
    rw [half_of_idle hphase, stride_eq_ok_iff] at h
    exact .inl h
  | firstPhaseDone =>
    rw [half_of_executed hphase, Except.ok.injEq] at h
    exact .inr ⟨rfl, h.symm⟩

theorem trail_add {m after : Machine} {n : Nat} (h : m.halves n = .ok after) (k : Nat) :
    trail (n + k) m = trail n m ++ trail k after := by
  induction n generalizing m with
  | zero =>
    cases h
    rw [Nat.zero_add]
    rfl
  | succ n ih =>
    have hnext : ∃ mid, m.half = .ok mid ∧ mid.halves n = .ok after := bind_eq_ok_iff.1 h
    obtain ⟨mid, hhalf, hrest⟩ := hnext
    rw [Nat.add_right_comm]
    obtain ⟨hnone, rfl⟩ | ⟨hphase, rfl⟩ := half_eq_ok hhalf
    · rw [trail_of_idle hnone, trail_of_idle hnone, ih hrest, List.cons_append]
    · rw [trail_of_executed hphase, trail_of_executed hphase, ih hrest, List.cons_append]

/-- What both halves of a cycle keep, of a machine and what it has done, is kept by any number of
them. -/
theorem halves_induction {P : List Half → Machine → Prop} {m after : Machine} {n : Nat}
    {done : List Half} (hn : m.halves n = .ok after) (h : P done m)
    (hfirst : ∀ done m, P done m → m.cycleError? = none →
      P (done ++ [.executed m.pc m.current m.accumulator]) m.held)
    (hsecond : ∀ done m, P done m → m.phase = .firstPhaseDone →
      P (done ++ [.retired]) m.retired) : P (done ++ trail n m) after := by
  induction n generalizing m done with
  | zero =>
    cases hn
    rw [trail, List.append_nil]
    exact h
  | succ n ih =>
    have hnext : ∃ mid, m.half = .ok mid ∧ mid.halves n = .ok after := bind_eq_ok_iff.1 hn
    obtain ⟨mid, hhalf, hrest⟩ := hnext
    obtain ⟨hnone, rfl⟩ | ⟨hphase, rfl⟩ := half_eq_ok hhalf
    · rw [trail_of_idle hnone, List.append_cons]
      exact ih hrest (hfirst done m h hnone)
    · rw [trail_of_executed hphase, List.append_cons]
      exact ih hrest (hsecond done m h hphase)

theorem halves_of_steps {m after : Machine} {n : Nat} (h : m.steps n = .ok after) :
    m.halves (2 * n) = .ok after := by
  cases n with
  | zero => exact h
  | succ n =>
    rw [halves_two_mul (idle_of_steps h).1]
    exact h

/-! ## What lasts -/

/-- Of a machine and what it has done, the property is kept by a first half that begins before the
program is done, by a second half, and by the watch. -/
structure Lasting (P : List Half → Machine → Prop) : Prop where
  held {done : List Half} {m : Machine} : P done m → m.isDone = false → m.cycleError? = none →
    P (done ++ [.executed m.pc m.current m.accumulator]) m.held
  retired {done : List Half} {m : Machine} : P done m → m.phase = .firstPhaseDone →
    P (done ++ [.retired]) m.retired
  watched {done : List Half} {m : Machine} (running measured : Bool) : P done m →
    P done (m.watched running measured)

section
variable {P : List Half → Machine → Prop} {done : List Half} {m after : Machine}

theorem Lasting.stride (hP : Lasting P) (h : P done m) {x : Stride}
    (hdone : m.phase = .idle → m.isDone = false) (hx : m.stride x = .ok after) :
    P (done ++ m.trail x.length) after := by
  have hphase : m.phase = x.phase := phase_of_stride hx
  obtain ⟨hnone, rfl⟩ := stride_eq_ok_iff.1 hx
  cases x with
  | firstHalf =>
    rw [Stride.length, trail_of_idle hnone]
    exact hP.held h (hdone hphase) hnone
  | secondHalf =>
    rw [Stride.length, trail_of_executed hphase]
    exact hP.retired h hphase
  | whole =>
    rw [Stride.length, trail_of_idle hnone, trail_of_executed (phase_held m), List.append_cons]
    exact hP.retired (hP.held h (hdone hphase) hnone) (phase_held m)

theorem Lasting.advance (hP : Lasting P) (h : P done m) (budget : Nat) :
    let r := advance budget 0 m
    P (done ++ m.trail (2 * r.count)) r.machine := by
  induction budget generalizing m done with
  | zero =>
    rw [← List.append_nil done] at h
    exact h
  | succ budget ih =>
    have hnothing : P (done ++ m.trail 0) m := by
      rw [trail, List.append_nil]
      exact h
    cases hdone : m.isDone with
    | true =>
      rw [advance_of_done hdone]
      exact hnothing
    | false =>
      cases hstep : m.step with
      | error e =>
        rw [advance_of_error hdone hstep]
        exact hnothing
      | ok result =>
        obtain ⟨i, after⟩ := result
        have hwhole : m.stride .whole = .ok after := map_snd_eq_ok_iff.2 ⟨i, hstep⟩
        have hsum (n : Nat) : 2 * (0 + 1 + n) = 2 + 2 * n := by omega
        have htrail (n : Nat) : m.trail (2 + 2 * n) = m.trail 2 ++ after.trail (2 * n) :=
          trail_add (halves_of_stride hwhole) (2 * n)
        rw [advance_of_step hdone hstep, advance_count]
        dsimp only
        rw [hsum, htrail, ← List.append_assoc]
        exact ih (hP.stride h (fun _ => hdone) hwhole)

theorem Lasting.run (hP : Lasting P) (h : P done m) (budget : Nat) :
    P (done ++ m.trail (2 * (m.run budget).count)) (m.run budget).machine := by
  rw [run_eq_watched]
  exact hP.watched false true (hP.advance h budget)

end

/-! ## What endures -/

/-- Of a machine and what it has done, the property holds at first, and it is kept by both halves,
by the watch and by whatever is changed from outside. -/
structure Enduring (P : List Half → Machine → Prop) : Prop where
  fresh (memory : Memory) (lastAddress : Option Word) : P [] { memory, lastAddress }
  edited {done : List Half} {m : Machine} (registers : Registers) (memory : Memory)
    (lastAddress : Option Word) : P done m → P done { m with registers, memory, lastAddress }
  held {done : List Half} {m : Machine} : P done m → m.cycleError? = none →
    P (done ++ [.executed m.pc m.current m.accumulator]) m.held
  retired {done : List Half} {m : Machine} : P done m → m.phase = .firstPhaseDone →
    P (done ++ [.retired]) m.retired
  watched {done : List Half} {m : Machine} (running measured : Bool) : P done m →
    P done (m.watched running measured)

theorem Enduring.halves {P : List Half → Machine → Prop} {done : List Half} {m after : Machine}
    (hP : Enduring P) (h : P done m) {n : Nat} (hn : m.halves n = .ok after) :
    P (done ++ m.trail n) after := by
  apply halves_induction hn h
  · intro done m h hnone
    exact hP.held h hnone
  · intro done m h hphase
    exact hP.retired h hphase

/-! ## The counters -/

theorem effect_branches (m : Machine) (i : Instruction) :
    (m.effect i).metrics.branches =
      m.metrics.branches + if i.kind = .brz ∧ m.accumulator = 0 then 1 else 0 := by
  rw [effect_metrics]
  by_cases h : i.kind = .brz ∧ m.accumulator = 0
  · have htaken : (m.target? i).isSome = true :=
      Option.isSome_iff_ne_none.2 fun hnone => target?_eq_none_iff.1 hnone h
    rw [if_pos htaken, if_pos h]
    rfl
  · rw [target?_eq_none_iff.2 h, if_neg h]
    exact (UInt64.add_zero _).symm

/-- The counters of `m` count what was done, and an instruction is pending half way through a
cycle. -/
structure Counts (done : List Half) (m : Machine) : Prop where
  instructions : m.metrics.instructions = UInt64.ofNat (done.countP Half.ends)
  cycles : m.metrics.cycles = UInt64.ofNat (done.countP Half.ends)
  branches : m.metrics.branches = UInt64.ofNat (done.countP Half.branches)
  pending : done.countP Half.begins =
    done.countP Half.ends + if m.phase = .firstPhaseDone then 1 else 0

variable {done : List Half} {m : Machine}

theorem Counts.held (h : Counts done m) (hnone : m.cycleError? = none) :
    Counts (done ++ [.executed m.pc m.current m.accumulator]) m.held := by
  have hidle : m.phase = .idle := (cycleError?_eq_none_iff.1 hnone).1
  have hpending := h.pending
  rw [hidle] at hpending
  have hinstructions : m.held.metrics.instructions = m.metrics.instructions :=
    m.effect_instructions m.current
  have hcycles : m.held.metrics.cycles = m.metrics.cycles := m.effect_cycles m.current
  have hbranches : m.held.metrics.branches = m.metrics.branches +
      if m.current.kind = .brz ∧ m.accumulator = 0 then 1 else 0 := m.effect_branches m.current
  refine ⟨?_, ?_, ?_, ?_⟩
  · rw [hinstructions, h.instructions]
    simp [Half.ends]
  · rw [hcycles, h.cycles]
    simp [Half.ends]
  · rw [hbranches, h.branches, List.countP_append, UInt64.ofNat_add]
    by_cases htaken : m.current.kind = .brz ∧ m.accumulator = 0
    · simp [Half.branches, htaken]
    · simp [Half.branches, htaken]
  · simp [Half.begins, Half.ends, hpending]

theorem Counts.retired (h : Counts done m) (hphase : m.phase = .firstPhaseDone) :
    Counts (done ++ [.retired]) m.retired := by
  have hpending := h.pending
  rw [hphase] at hpending
  refine ⟨?_, ?_, ?_, ?_⟩
  · rw [instructions_retired, h.instructions, List.countP_append, UInt64.ofNat_add]
    rfl
  · show m.metrics.cycles + 1 = _
    rw [h.cycles, List.countP_append, UInt64.ofNat_add]
    rfl
  · show m.metrics.branches = _
    rw [h.branches]
    simp [Half.branches]
  · simp [Half.begins, Half.ends, hpending]

theorem enduring_counts : Enduring Counts where
  fresh _ _ := ⟨rfl, rfl, rfl, rfl⟩
  edited _ _ _ h := ⟨h.instructions, h.cycles, h.branches, h.pending⟩
  held h hnone := h.held hnone
  retired h hphase := h.retired hphase
  watched _ _ h := ⟨h.instructions, h.cycles, h.branches, h.pending⟩

/-- No more branches are taken than instructions executed. -/
theorem Counts.branches_le (h : Counts done m) :
    done.countP Half.branches ≤
      done.countP Half.ends + if m.phase = .firstPhaseDone then 1 else 0 := by
  rw [← h.pending]
  exact List.countP_mono_left fun _ _ => Half.begins_of_branches

end Machine
end AccumulatorMachine
