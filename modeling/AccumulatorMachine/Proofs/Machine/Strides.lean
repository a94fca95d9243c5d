import AccumulatorMachine.Proofs.Machine.Running
import Mathlib.Algebra.Group.Nat.Defs

/-! # Strides

A machine works in strides: one half of a cycle or the other, or a whole cycle (`Stride`). All of
them go along one chain, that of the halves that come next (`Machine.half`), and a whole cycle is
two places on it. From a machine at rest, the phase and the count of retired instructions tell the
place on the chain (`Machine.AtPlace`), as long as the count has not gone round. A run is a number
of whole cycles (`Machine.exists_steps_of_advance`).
-/

namespace AccumulatorMachine
set_option autoImplicit false

/-! ## Repetition -/

section
variable {ε α β : Type}

/-- What comes of doing `f` this many times, one after the other. -/
def times (f : α → Except ε α) : Nat → α → Except ε α
  | 0, a => .ok a
  | n + 1, a => (f a).bind (times f n)

theorem times_add (f : α → Except ε α) (m n : Nat) (a : α) :
    times f (m + n) a = (times f m a).bind (times f n) := by
  induction m generalizing a with
  | zero =>
    rw [Nat.zero_add]
    rfl
  | succ m ih =>
    have hsum : m + 1 + n = m + n + 1 := by omega
    rw [hsum, times, times]
    cases f a with
    | error e => rfl
    | ok b => exact ih b

theorem bind_eq_ok_iff {x : Except ε α} {f : α → Except ε β} {b : β} :
    x.bind f = .ok b ↔ ∃ a, x = .ok a ∧ f a = .ok b := by
  cases x with
  | error e => simp [Except.bind]
  | ok a => simp [Except.bind]

theorem times_succ_eq_ok_iff {f : α → Except ε α} {n : Nat} {a c : α} :
    times f (n + 1) a = .ok c ↔ ∃ b, times f n a = .ok b ∧ f b = .ok c := by
  rw [times_add, bind_eq_ok_iff]
  simp only [times, bind_eq_ok_iff, Except.ok.injEq, exists_eq_right]

theorem map_snd_eq_ok_iff {x : Except ε (α × β)} {b : β} :
    x.map Prod.snd = .ok b ↔ ∃ a, x = .ok (a, b) := by
  cases x with
  | error e => simp [Except.map]
  | ok r => simp [Except.map, Prod.ext_iff]

theorem map_snd_eq_error_iff {x : Except ε (α × β)} {e : ε} :
    x.map Prod.snd = .error e ↔ x = .error e := by
  cases x with
  | error e => simp [Except.map]
  | ok r => simp [Except.map]

end

/-! ## Strides -/

inductive Stride
  | firstHalf
  | secondHalf
  | whole
deriving DecidableEq

namespace Stride

/-- Whether the stride executes an instruction. -/
def begins : Stride → Bool
  | firstHalf | whole => true
  | secondHalf => false

/-- Whether the stride retires an instruction. -/
def ends : Stride → Bool
  | secondHalf | whole => true
  | firstHalf => false

/-- The phase in which the stride can be done. -/
def phase : Stride → Phase
  | firstHalf | whole => .idle
  | secondHalf => .firstPhaseDone

/-- How many halves of a cycle the stride does. -/
def length : Stride → Nat
  | firstHalf | secondHalf => 1
  | whole => 2

/-- The stride, done in place. -/
def inPlace : Stride → InPlace StepError Unit
  | firstHalf => discard InPlace.firstHalf
  | secondHalf => InPlace.secondHalf
  | whole => discard InPlace.step

end Stride

namespace Machine

def stride (m : Machine) : Stride → Except StepError Machine
  | .firstHalf => m.firstHalf.map Prod.snd
  | .secondHalf => m.secondHalf
  | .whole => m.step.map Prod.snd

/-- The machine after a stride that succeeds. -/
def strode (m : Machine) : Stride → Machine
  | .firstHalf => m.held
  | .secondHalf => m.retired
  | .whole => m.held.retired

/-- Why the stride fails, if it does. -/
def strideError? (m : Machine) : Stride → Option StepError
  | .firstHalf | .whole => m.cycleError?
  | .secondHalf => m.phaseError? .firstPhaseDone

theorem inPlace_eq (m : Machine) (x : Stride) :
    x.inPlace m = InPlace.settled m (m.strideError? x) () (m.strode x) := by
  cases x with
  | firstHalf => exact InPlace.discard_settled (InPlace.firstHalf_eq m)
  | secondHalf => exact InPlace.secondHalf_eq m
  | whole => exact InPlace.discard_settled (InPlace.step_eq m)

theorem stride_eq_ok_iff {m after : Machine} {x : Stride} :
    m.stride x = .ok after ↔ m.strideError? x = none ∧ after = m.strode x := by
  cases x with
  | firstHalf =>
    rw [stride, map_snd_eq_ok_iff]
    simp only [firstHalf_eq_ok_iff, strideError?, strode]
    simp
  | secondHalf =>
    rw [stride, secondHalf_eq_ok_iff, strideError?, phaseError?, strode]
    simp
  | whole =>
    rw [stride, map_snd_eq_ok_iff]
    simp only [step_eq_ok_iff, strideError?, strode]
    simp

theorem stride_eq_error_iff {m : Machine} {x : Stride} {e : StepError} :
    m.stride x = .error e ↔ m.strideError? x = some e := by
  cases x with
  | firstHalf =>
    rw [stride, map_snd_eq_error_iff]
    exact InPlace.outcome_eq_error_iff (InPlace.firstHalf_eq m)
  | secondHalf =>
    rw [stride, secondHalf]
    show _ ↔ m.phaseError? .firstPhaseDone = some e
    rw [map_snd_eq_error_iff]
    exact InPlace.outcome_eq_error_iff (InPlace.secondHalf_eq m)
  | whole =>
    rw [stride, map_snd_eq_error_iff]
    exact step_eq_error_iff

theorem keeps_of_stride {m after : Machine} {x : Stride} (h : m.stride x = .ok after) :
    m.Keeps after := by
  obtain ⟨-, rfl⟩ := stride_eq_ok_iff.1 h
  cases x with
  | firstHalf => exact m.keeps_held
  | secondHalf => exact m.keeps_retired
  | whole => exact m.keeps_held.trans m.held.keeps_retired

/-- A stride from the wrong phase is out of sequence, and one from the right phase never is. -/
theorem strideError?_of_phase_ne {m : Machine} {x : Stride} (h : m.phase ≠ x.phase) :
    m.strideError? x = some (.sequence x.phase m.phase) := by
  cases x with
  | firstHalf | whole =>
    have hne : m.phase ≠ .idle := h
    rw [strideError?, cycleError?, phaseError?, if_neg hne]
    rfl
  | secondHalf => exact if_neg h

theorem strideError?_of_phase_eq {m : Machine} {x : Stride} (h : m.phase = x.phase)
    {e : StepError} (he : m.strideError? x = some e) : ∃ fault, e = .memory fault := by
  have hcycle : m.phase = .idle → m.cycleError? = some e → ∃ fault, e = .memory fault := by
    intro hidle hsome
    rw [cycleError?, phaseError?, if_pos hidle, Option.none_or, Option.map_eq_some_iff] at hsome
    obtain ⟨fault, -, rfl⟩ := hsome
    exact ⟨fault, rfl⟩
  cases x with
  | firstHalf | whole => exact hcycle h he
  | secondHalf =>
    have hdone : m.phase = .firstPhaseDone := h
    rw [strideError?, phaseError?, if_pos hdone] at he
    cases he

theorem phase_of_stride {m after : Machine} {x : Stride} (h : m.stride x = .ok after) :
    m.phase = x.phase := by
  refine Decidable.byContradiction fun hne => ?_
  rw [stride_eq_ok_iff, strideError?_of_phase_ne hne] at h
  cases h.1

/-! ## The chain of halves -/

/-- The half of the cycle that comes next. -/
def half (m : Machine) : Except StepError Machine :=
  match m.phase with
  | .idle => m.stride .firstHalf
  | .firstPhaseDone => m.stride .secondHalf

def halves : Nat → Machine → Except StepError Machine := times half

def steps : Nat → Machine → Except StepError Machine := times (stride · .whole)

@[simp] theorem phase_held (m : Machine) : m.held.phase = .firstPhaseDone := rfl

@[simp] theorem phase_retired (m : Machine) : m.retired.phase = .idle := rfl

theorem half_of_idle {m : Machine} (h : m.phase = .idle) : m.half = m.stride .firstHalf := by
  rw [half, h]

theorem half_of_executed {m : Machine} (h : m.phase = .firstPhaseDone) : m.half = .ok m.retired := by
  rw [half, h]
  exact secondHalf_eq_ok_iff.2 ⟨h, rfl⟩

theorem halves_of_stride {m after : Machine} {x : Stride} (h : m.stride x = .ok after) :
    m.halves x.length = .ok after := by
  have hphase : m.phase = x.phase := phase_of_stride h
  cases x with
  | firstHalf =>
    rw [halves, Stride.length, times_succ_eq_ok_iff]
    exact ⟨m, rfl, (half_of_idle hphase).trans h⟩
  | secondHalf =>
    rw [halves, Stride.length, times_succ_eq_ok_iff]
    obtain ⟨-, rfl⟩ := secondHalf_eq_ok_iff.1 h
    exact ⟨m, rfl, half_of_executed hphase⟩
  | whole =>
    obtain ⟨hnone, rfl⟩ := stride_eq_ok_iff.1 h
    rw [halves, Stride.length, times_succ_eq_ok_iff]
    refine ⟨m.held, ?_, half_of_executed (phase_held m)⟩
    rw [times_succ_eq_ok_iff]
    exact ⟨m, rfl, (half_of_idle hphase).trans (stride_eq_ok_iff.2 ⟨hnone, rfl⟩)⟩

/-- At rest, two halves are a whole cycle, also when they fail. -/
theorem halves_two {m : Machine} (h : m.phase = .idle) : m.halves 2 = m.stride .whole := by
  cases hs : m.stride .whole with
  | ok after => exact halves_of_stride hs
  | error e =>
    have herror : m.cycleError? = some e := stride_eq_error_iff.1 hs
    have he : m.stride .firstHalf = .error e := stride_eq_error_iff.2 herror
    rw [halves, times, half_of_idle h, he]
    rfl

theorem halves_two_mul {m : Machine} (h : m.phase = .idle) (n : Nat) :
    m.halves (2 * n) = m.steps n := by
  induction n generalizing m with
  | zero => rfl
  | succ n ih =>
    have hsum : 2 * (n + 1) = 2 + 2 * n := by omega
    have htwo : times half 2 m = m.stride .whole := halves_two h
    rw [hsum, halves, times_add, htwo, steps, times]
    cases hs : m.stride .whole with
    | error e => rfl
    | ok after =>
      obtain ⟨-, rfl⟩ := stride_eq_ok_iff.1 hs
      exact ih rfl

/-! ## The place on the chain -/

theorem effect_instructions (m : Machine) (i : Instruction) :
    (m.effect i).metrics.instructions = m.metrics.instructions := by
  rw [effect_metrics]
  cases (m.target? i).isSome with
  | true | false => rfl

theorem effect_cycles (m : Machine) (i : Instruction) :
    (m.effect i).metrics.cycles = m.metrics.cycles := by
  rw [effect_metrics]
  cases (m.target? i).isSome with
  | true | false => rfl

@[simp] theorem instructions_held (m : Machine) :
    m.held.metrics.instructions = m.metrics.instructions := effect_instructions m m.current

@[simp] theorem instructions_retired (m : Machine) :
    m.retired.metrics.instructions = m.metrics.instructions + 1 := rfl

/-- The phase and the count of a machine that stands `k` halves behind `m`, which is at rest. -/
structure AtPlace (m : Machine) (k : Nat) (after : Machine) : Prop where
  phase : after.phase = if k % 2 = 0 then .idle else .firstPhaseDone
  instructions : after.metrics.instructions = m.metrics.instructions + UInt64.ofNat (k / 2)

theorem atPlace_of_halves {m after : Machine} (hidle : m.phase = .idle) {k : Nat}
    (h : m.halves k = .ok after) : m.AtPlace k after := by
  induction k generalizing after with
  | zero =>
    cases h
    exact ⟨hidle, by simp⟩
  | succ k ih =>
    obtain ⟨mid, hmid, hhalf⟩ := times_succ_eq_ok_iff.1 h
    have hplace := ih hmid
    -- an even place is at rest, so a first half comes next, and an odd one is not
    by_cases heven : k % 2 = 0
    · have hphase : mid.phase = .idle := by rw [hplace.phase, if_pos heven]
      rw [half_of_idle hphase, stride_eq_ok_iff] at hhalf
      obtain ⟨-, rfl⟩ := hhalf
      have hodd : ¬(k + 1) % 2 = 0 := by omega
      have hdiv : (k + 1) / 2 = k / 2 := by omega
      refine ⟨?_, ?_⟩
      · rw [if_neg hodd]
        exact phase_held mid
      · rw [hdiv, ← hplace.instructions]
        exact instructions_held mid
    · have hphase : mid.phase = .firstPhaseDone := by rw [hplace.phase, if_neg heven]
      rw [half_of_executed hphase, Except.ok.injEq] at hhalf
      subst hhalf
      have hodd : (k + 1) % 2 = 0 := by omega
      have hdiv : (k + 1) / 2 = k / 2 + 1 := by omega
      refine ⟨?_, ?_⟩
      · rw [if_pos hodd]
        exact phase_retired mid
      · rw [hdiv, UInt64.ofNat_add, instructions_retired, hplace.instructions,
          UInt64.add_assoc]
        rfl

/-- The phase and the count tell the place, as long as the count has not gone round. -/
theorem AtPlace.unique {m a b : Machine} {k l : Nat} (h : m.AtPlace k a) (h' : m.AtPlace l b)
    (hk : k < 2 ^ 65) (hl : l < 2 ^ 65) (hphase : a.phase = b.phase)
    (hcount : a.metrics.instructions = b.metrics.instructions) : k = l := by
  -- the phase gives the parity of the place, and the count gives its half
  have hparity : k % 2 = l % 2 := by
    rw [h.phase, h'.phase] at hphase
    by_cases hk' : k % 2 = 0
    · by_cases hl' : l % 2 = 0
      · rw [hk', hl']
      · rw [if_pos hk', if_neg hl'] at hphase
        cases hphase
    · by_cases hl' : l % 2 = 0
      · rw [if_neg hk', if_pos hl'] at hphase
        cases hphase
      · omega
  have hhalf : k / 2 = l / 2 := by
    rw [h.instructions, h'.instructions, UInt64.add_right_inj] at hcount
    have hnat := congrArg UInt64.toNat hcount
    have hk' : k / 2 < 2 ^ 64 := by omega
    have hl' : l / 2 < 2 ^ 64 := by omega
    rwa [UInt64.toNat_ofNat_of_lt' hk', UInt64.toNat_ofNat_of_lt' hl'] at hnat
  omega

/-- Machines on one chain with one phase and one count are one machine. -/
theorem eq_of_halves {m a b : Machine} (hidle : m.phase = .idle) {k l : Nat}
    (ha : m.halves k = .ok a) (hb : m.halves l = .ok b) (hk : k < 2 ^ 64) (hl : l < 2 ^ 64)
    (hphase : a.phase = b.phase)
    (hcount : a.metrics.instructions = b.metrics.instructions) : a = b := by
  have hkl : k = l := (atPlace_of_halves hidle ha).unique (atPlace_of_halves hidle hb)
    (Nat.lt_trans hk (by decide)) (Nat.lt_trans hl (by decide)) hphase hcount
  subst hkl
  rw [ha] at hb
  cases hb
  rfl

/-! ## Runs as whole cycles -/

theorem idle_of_steps {m after : Machine} {k : Nat} (h : m.steps (k + 1) = .ok after) :
    m.phase = .idle ∧ after.phase = .idle ∧ after.branched = false := by
  have hfirst : ∃ mid, m.stride .whole = .ok mid ∧ times (stride · .whole) k mid = .ok after :=
    bind_eq_ok_iff.1 h
  obtain ⟨_, hmid, -⟩ := hfirst
  obtain ⟨mid, -, hlast⟩ := times_succ_eq_ok_iff.1 h
  obtain ⟨-, rfl⟩ := stride_eq_ok_iff.1 hlast
  exact ⟨phase_of_stride hmid, rfl, rfl⟩

theorem phase_of_steps {m after : Machine} {n : Nat} (h : m.steps n = .ok after) :
    after.phase = m.phase := by
  cases n with
  | zero =>
    cases h
    rfl
  | succ n =>
    obtain ⟨hbefore, hafter, -⟩ := idle_of_steps h
    rw [hbefore, hafter]

theorem instructions_of_steps {m after : Machine} {k : Nat} (h : m.steps k = .ok after) :
    after.metrics.instructions = m.metrics.instructions + UInt64.ofNat k := by
  cases k with
  | zero =>
    cases h
    simp
  | succ k =>
    have hidle := (idle_of_steps h).1
    rw [← halves_two_mul hidle] at h
    have hdiv : 2 * (k + 1) / 2 = k + 1 := by omega
    rw [(atPlace_of_halves hidle h).instructions, hdiv]

/-- Cycles and instructions are counted together. -/
theorem cycles_of_steps {m after : Machine} {k : Nat} (h : m.steps k = .ok after) :
    after.metrics.cycles = m.metrics.cycles + UInt64.ofNat k := by
  induction k generalizing after with
  | zero =>
    cases h
    simp
  | succ k ih =>
    obtain ⟨mid, hmid, hlast⟩ := times_succ_eq_ok_iff.1 h
    obtain ⟨-, rfl⟩ := stride_eq_ok_iff.1 hlast
    have hcount : mid.held.metrics.cycles = mid.metrics.cycles := effect_cycles mid mid.current
    show mid.held.metrics.cycles + 1 = _
    rw [hcount, ih hmid, UInt64.ofNat_add, UInt64.add_assoc]
    rfl

/-- How an advance of at most `budget` whole cycles ends after `k` of them, on the machine `m` and
with an error or without. -/
inductive Ends (m : Machine) (budget k : Nat) : Option StepError → Prop
  | done : k ≤ budget → m.isDone = true → Ends m budget k none
  | spent : k = budget → Ends m budget k none
  | failed {e : StepError} : k < budget → m.isDone = false → m.step = .error e →
      Ends m budget k (some e)

theorem Ends.succ {m : Machine} {budget k : Nat} {e? : Option StepError} (h : m.Ends budget k e?) :
    m.Ends (budget + 1) (k + 1) e? := by
  cases h with
  | done hle hdone => exact .done (Nat.succ_le_succ hle) hdone
  | spent heq => exact .spent (congrArg (· + 1) heq)
  | failed hlt hdone hstep => exact .failed (Nat.succ_lt_succ hlt) hdone hstep

/-- A run is as many whole cycles as it says, whether it ends well or not. -/
theorem advance_ends (budget count : Nat) (m : Machine) :
    let r := advance budget count m
    ∃ k, r.count = count + k ∧ m.steps k = .ok r.machine ∧ r.machine.Ends budget k r.error := by
  induction budget generalizing count m with
  | zero => exact ⟨0, rfl, rfl, .spent rfl⟩
  | succ budget ih =>
    cases hdone : m.isDone with
    | true =>
      rw [advance_of_done hdone]
      exact ⟨0, rfl, rfl, .done (Nat.zero_le _) hdone⟩
    | false =>
      cases hstep : m.step with
      | error e =>
        rw [advance_of_error hdone hstep]
        exact ⟨0, rfl, rfl, .failed (Nat.succ_pos budget) hdone hstep⟩
      | ok result =>
        obtain ⟨i, after⟩ := result
        rw [advance_of_step hdone hstep]
        obtain ⟨k, hcount, hsteps, hends⟩ := ih (count + 1) after
        have hwhole : m.stride .whole = .ok after := map_snd_eq_ok_iff.2 ⟨i, hstep⟩
        refine ⟨k + 1, ?_, bind_eq_ok_iff.2 ⟨after, hwhole, hsteps⟩, hends.succ⟩
        rw [hcount]
        omega

theorem steps_of_advance (budget count : Nat) (m : Machine) :
    ∃ k, (advance budget count m).count = count + k ∧
      m.steps k = .ok (advance budget count m).machine := by
  obtain ⟨k, hcount, hsteps, -⟩ := advance_ends budget count m
  exact ⟨k, hcount, hsteps⟩

/-- Half way through a cycle a run does nothing: it ends well if the program is done, and else
it is out of sequence. -/
theorem advance_of_executed {m : Machine} (h : m.phase = .firstPhaseDone) (budget count : Nat) :
    advance (budget + 1) count m =
      { machine := m, count,
        error := if m.isDone then none else some (.sequence .idle .firstPhaseDone) } := by
  cases hdone : m.isDone with
  | true =>
    rw [advance_of_done hdone]
    rfl
  | false =>
    have hne : m.phase ≠ Stride.whole.phase := by
      rw [h]
      decide
    have herror : m.stride .whole = .error (.sequence .idle .firstPhaseDone) := by
      rw [stride_eq_error_iff, strideError?_of_phase_ne hne, h]
      rfl
    rw [advance_of_error hdone (map_snd_eq_error_iff.1 herror)]
    rfl

end Machine
end AccumulatorMachine
