import AccumulatorMachine.Proofs.Debugger.Keys

/-! # Keys and granularity

Keys move the machine along the one chain of halves, by two places at most. Where they lead is
therefore told by the place alone, and the place by the phase and the count of instructions: it does
not matter by which keys the debugger got there.
-/

namespace AccumulatorMachine
set_option autoImplicit false

/-! ## Whole cycles of a session -/

namespace Session

def steps : Nat → Session → Except StepError Session := times (stride · .whole)

theorem steps_eq (s : Session) (n : Nat) : s.steps n = (s.machine.steps n).map s.withMachine := by
  induction n generalizing s with
  | zero => rfl
  | succ n ih =>
    rw [steps, times, Machine.steps, times]
    cases h : s.machine.stride .whole with
    | error e =>
      rw [stride_eq_error_iff.2 h]
      rfl
    | ok m =>
      rw [stride_eq_ok_iff.2 ⟨m, h, rfl⟩]
      exact ih (s.withMachine m)

end Session

/-! ## The way of a key along the chain -/

namespace Debugger

theorem halves_of_press (d : Debugger) (k : Key) :
    (d.press k).session = d.session.withMachine (d.press k).machine ∧
      ∃ n, n ≤ 2 ∧ d.machine.halves n = .ok (d.press k).machine := by
  have hfollows := d.press_follows k
  generalize d.asks? k = asked at hfollows
  generalize d.press k = next at hfollows ⊢
  cases hfollows with
  | still => exact ⟨rfl, 0, by omega, rfl⟩
  | shows hsession =>
    rw [machine, machine, hsession]
    exact ⟨rfl, 0, by omega, rfl⟩
  | error => exact ⟨rfl, 0, by omega, rfl⟩
  | @ok x session status hstride =>
    obtain ⟨m, hm, rfl⟩ := Session.stride_eq_ok_iff.1 hstride
    have hlength : x.length ≤ 2 := by
      cases x with
      | firstHalf | secondHalf | whole => decide
    exact ⟨rfl, x.length, hlength, Machine.halves_of_stride hm⟩

theorem halves_of_pressAll (d : Debugger) (keys : List Key) :
    (d.pressAll keys).session = d.session.withMachine (d.pressAll keys).machine ∧
      ∃ n, n ≤ 2 * keys.length ∧ d.machine.halves n = .ok (d.pressAll keys).machine := by
  induction keys generalizing d with
  | nil => exact ⟨rfl, 0, by omega, rfl⟩
  | cons k keys ih =>
    obtain ⟨hsession, n, hn, hhalves⟩ := d.halves_of_press k
    obtain ⟨hrest, l, hl, hlater⟩ := ih (d.press k)
    have hall : d.pressAll (k :: keys) = (d.press k).pressAll keys := rfl
    rw [hall]
    refine ⟨?_, n + l, ?_, ?_⟩
    · rw [hrest, hsession]
      rfl
    · rw [List.length_cons]
      omega
    · rw [Machine.halves, times_add]
      exact bind_eq_ok_iff.2 ⟨(d.press k).machine, hhalves, hlater⟩

/-! ## Errors -/

/-- A press that shows an error has changed nothing, and the error is one of memory, unless the
press did nothing at all. -/
theorem press_failed {d : Debugger} {k : Key} {e : StepError} (h : (d.press k).status = .failed e) :
    (d.press k).machine = d.machine ∧ ((∃ fault, e = .memory fault) ∨ d.status = .failed e) := by
  have hfollows := d.press_follows k
  have hphase : ∀ x, d.asks? k = some x → d.machine.phase = x.phase := fun x => asks?_phase
  generalize d.asks? k = asked at hfollows hphase
  generalize d.press k = next at hfollows h ⊢
  cases hfollows with
  | still => exact ⟨rfl, .inr h⟩
  | shows _ hstatus => exact absurd h (hstatus e)
  | ok _ hstatus => exact absurd h (hstatus e)
  | @error x e' running hstride =>
    cases h
    have herror := Machine.stride_eq_error_iff.1 (Session.stride_eq_error_iff.1 hstride)
    exact ⟨rfl, .inl (Machine.strideError?_of_phase_eq (hphase x rfl) herror)⟩

/-- Where the stride that a key asks for fails in place, the debugger shows the error and goes on from
what the stride has left. -/
theorem press_of_inPlace_error {d : Debugger} {k : Key} {x : Stride} {e : StepError} {after : Machine}
    (hasks : d.asks? k = some x) (h : x.inPlace d.machine = .error e after) :
    (d.press k).status = .failed e ∧ (d.press k).machine = after := by
  rw [Machine.inPlace_eq, InPlace.settled_eq_error_iff] at h
  obtain ⟨herror, rfl⟩ := h
  have hstride := Session.stride_eq_error_iff.2 (Machine.stride_eq_error_iff.2 herror)
  have hfollows := d.press_follows k
  rw [hasks] at hfollows
  generalize d.press k = next at hfollows ⊢
  cases hfollows with
  | ok hok =>
    rw [hstride] at hok
    cases hok
  | error herr =>
    rw [hstride] at herr
    cases herr
    exact ⟨rfl, rfl⟩

theorem pressAll_concat (d : Debugger) (keys : List Key) (k : Key) :
    d.pressAll (keys ++ [k]) = (d.pressAll keys).press k := by
  simp [pressAll]

/-- An error that is none of memory was there before the first key. -/
theorem pressAll_failed {d : Debugger} {keys : List Key} {e : StepError}
    (h : (d.pressAll keys).status = .failed e) :
    (∃ fault, e = .memory fault) ∨ d.status = .failed e := by
  induction keys generalizing d with
  | nil => exact .inr h
  | cons k keys ih =>
    obtain hmemory | hbefore := ih h
    · exact .inl hmemory
    · exact (press_failed hbefore).2

/-! ## Keys commute with granularity -/

/-- **It does not matter by which keys the debugger has come to where it is.** Two rows of keys that
end with one count of instructions and in one phase end in one machine; at rest it is the machine
after as many whole cycles as were counted. No key ever finds the halves of a cycle out of sequence,
and a key that shows an error has changed nothing: what it goes on from is what the failed stride has
left in place. -/
theorem keys_commute_with_granularity (d : Debugger) (hidle : d.machine.phase = .idle) :
    (∀ keys keys' : List Key, keys.length < 2 ^ 63 → keys'.length < 2 ^ 63 →
      (d.pressAll keys).machine.metrics.instructions =
        (d.pressAll keys').machine.metrics.instructions →
      (d.pressAll keys).machine.phase = (d.pressAll keys').machine.phase →
      (d.pressAll keys).machine = (d.pressAll keys').machine) ∧
    (∀ keys : List Key, keys.length < 2 ^ 63 → (d.pressAll keys).machine.phase = .idle →
      d.session.steps ((d.pressAll keys).machine.metrics.instructions -
        d.machine.metrics.instructions).toNat = .ok (d.pressAll keys).session) ∧
    (∀ (keys : List Key) (k : Key) (e : StepError),
      (d.pressAll (keys ++ [k])).status = .failed e →
      (d.pressAll (keys ++ [k])).machine = (d.pressAll keys).machine ∧
        ((∃ fault, e = .memory fault) ∨ d.status = .failed e)) ∧
    (∀ (keys : List Key) (k : Key) (x : Stride) (e : StepError) (after : Machine),
      (d.pressAll keys).asks? k = some x → x.inPlace (d.pressAll keys).machine = .error e after →
      (d.pressAll (keys ++ [k])).status = .failed e ∧
        (d.pressAll (keys ++ [k])).machine = after ∧ after = (d.pressAll keys).machine) := by
  refine ⟨fun keys keys' hlength hlength' hcount hphase => ?_, fun keys hlength hrest => ?_,
    fun keys k e he => ?_, fun keys k x e after hasks herror => ?_⟩
  · obtain ⟨-, n, hn, hhalves⟩ := d.halves_of_pressAll keys
    obtain ⟨-, n', hn', hhalves'⟩ := d.halves_of_pressAll keys'
    exact Machine.eq_of_halves hidle hhalves hhalves' (by omega) (by omega) hphase hcount
  · obtain ⟨hsession, n, hn, hhalves⟩ := d.halves_of_pressAll keys
    have hplace := Machine.atPlace_of_halves hidle hhalves
    have heven : n % 2 = 0 := by
      refine Decidable.byContradiction fun hodd => ?_
      have hphase := hplace.phase
      rw [if_neg hodd, hrest] at hphase
      cases hphase
    have hhalf : 2 * (n / 2) = n := by omega
    have hsmall : n / 2 < 2 ^ 64 := by omega
    have hcycles : d.machine.steps (n / 2) = .ok (d.pressAll keys).machine := by
      rw [← Machine.halves_two_mul hidle, hhalf]
      exact hhalves
    rw [hplace.instructions, UInt64.add_comm, UInt64.add_sub_cancel,
      UInt64.toNat_ofNat_of_lt' hsmall, Session.steps_eq, hsession]
    show (d.machine.steps (n / 2)).map _ = _
    rw [hcycles]
    rfl
  · refine ⟨?_, pressAll_failed he⟩
    rw [pressAll_concat] at he ⊢
    exact (press_failed he).1
  · rw [pressAll_concat]
    obtain ⟨hstatus, hmachine⟩ := press_of_inPlace_error hasks herror
    refine ⟨hstatus, hmachine, ?_⟩
    rw [Machine.inPlace_eq, InPlace.settled_eq_error_iff] at herror
    exact herror.2

/-- Three words, of which the last one reaches outside memory. -/
def reaching : Debugger where
  session := (Session.ofSettings { memorySize := 4 }).after [.load "INC\nBRZ 0\nLDA 9"]

theorem keys_commute_with_granularity_of_reaching :
    reaching.machine.phase = .idle ∧
      (reaching.pressAll [.step, .halfStep, .step]).machine =
        (reaching.pressAll [.halfStep, .run, .tick, .tick]).machine ∧
      reaching.session.steps 2 = .ok (reaching.pressAll [.step, .halfStep, .step]).session ∧
      (reaching.pressAll [.step, .halfStep, .step, .halfStep]).status =
        .failed (.memory ⟨9, 4⟩) ∧
      (reaching.pressAll [.step, .halfStep, .step, .halfStep]).machine =
        (reaching.pressAll [.step, .halfStep, .step]).machine ∧
      ∃ after, Stride.firstHalf.inPlace (reaching.pressAll [.step, .halfStep, .step]).machine =
          .error (.memory ⟨9, 4⟩) after ∧
        (reaching.pressAll [.step, .halfStep, .step, .halfStep]).machine = after := by
  have hidle : reaching.machine.phase = .idle := rfl
  obtain ⟨hsame, hcycles, hfails, hgoes⟩ := keys_commute_with_granularity reaching hidle
  have hfailed : (reaching.pressAll ([.step, .halfStep, .step] ++ [.halfStep])).status =
      .failed (.memory ⟨9, 4⟩) := rfl
  have htwo : reaching.session.steps 2 =
      .ok (reaching.pressAll [.step, .halfStep, .step]).session :=
    hcycles [.step, .halfStep, .step] (by decide) rfl
  have hasks : (reaching.pressAll [.step, .halfStep, .step]).asks? .halfStep = some .firstHalf := rfl
  obtain ⟨after, hinPlace⟩ : ∃ after,
      Stride.firstHalf.inPlace (reaching.pressAll [.step, .halfStep, .step]).machine =
        .error (.memory ⟨9, 4⟩) after := ⟨_, rfl⟩
  exact ⟨hidle, hsame _ _ (by decide) (by decide) rfl rfl, htwo, hfailed,
    (hfails _ _ _ hfailed).1, after, hinPlace, (hgoes _ _ _ _ _ hasks hinPlace).2.1⟩

end Debugger
end AccumulatorMachine
