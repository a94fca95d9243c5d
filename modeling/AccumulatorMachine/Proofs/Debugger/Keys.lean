import AccumulatorMachine.Debugger.Basic
import AccumulatorMachine.Proofs.Session.History

/-! # The keys of the debugger

Whatever key is pressed, the debugger asks at most one stride of its session (`Debugger.asks?`), and
always one that the phase allows. What a press comes to is told by that stride: nothing for the
machine if none is asked, the stride if it succeeds, and an error that changes nothing if it fails.
-/

namespace AccumulatorMachine.Debugger
set_option autoImplicit false

inductive Key
  | step
  | halfStep
  | run
  | tick
  | toggleBreakpoint
deriving DecidableEq

def press (d : Debugger) : Key → Debugger
  | .step => d.step
  | .halfStep => d.halfStep
  | .run => d.run
  | .tick => d.tick
  | .toggleBreakpoint => d.toggleBreakpoint

/-- The debugger after these keys, the first of the list first. -/
def pressAll (d : Debugger) (keys : List Key) : Debugger := keys.foldl press d

/-! ## What a key asks of the session -/

/-- The rest of a cycle that is half done, or else the stride `x` unless the program is done. -/
def goesOn? (d : Debugger) (x : Stride) : Option Stride :=
  match d.machine.phase with
  | .idle => if d.machine.isDone then none else some x
  | .firstPhaseDone => some .secondHalf

/-- Whether a tick ends the continuous run without doing anything. -/
def stopsHere (d : Debugger) : Bool :=
  d.machine.isDone || (d.atBreakpoint && d.machine.phase == .idle)

def asks? (d : Debugger) : Key → Option Stride
  | .step => d.goesOn? .whole
  | .halfStep => d.goesOn? .firstHalf
  | .tick => if d.running && !d.stopsHere then d.goesOn? .whole else none
  | .run | .toggleBreakpoint => none

theorem goesOn?_phase {d : Debugger} {x y : Stride} (hy : y.phase = .idle)
    (h : d.goesOn? y = some x) : d.machine.phase = x.phase := by
  rw [goesOn?] at h
  cases hp : d.machine.phase with
  | idle =>
    rw [hp] at h
    simp only [Option.ite_none_left_eq_some, Option.some.injEq] at h
    rw [← h.2, hy]
  | firstPhaseDone =>
    rw [hp] at h
    cases h
    rfl

/-- A key never asks for a stride out of sequence. -/
theorem asks?_phase {d : Debugger} {k : Key} {x : Stride} (h : d.asks? k = some x) :
    d.machine.phase = x.phase := by
  cases k with
  | step => exact goesOn?_phase rfl h
  | halfStep => exact goesOn?_phase rfl h
  | tick =>
    simp only [asks?, Option.ite_none_right_eq_some] at h
    exact goesOn?_phase rfl h.2
  | run | toggleBreakpoint => cases h

/-! ## What a press comes to -/

/-- What the debugger may be after it has asked for this stride, or for none. -/
inductive Follows (d : Debugger) : Option Stride → Debugger → Prop
  | still : Follows d none d
  | shows {next : Debugger} : next.session = d.session → (∀ e, next.status ≠ .failed e) →
      Follows d none next
  | ok {x : Stride} {session : Session} {status : Status} : d.session.stride x = .ok session →
      (∀ e, status ≠ .failed e) → Follows d (some x) { d with session, status }
  | error {x : Stride} {e : StepError} {running : Bool} : d.session.stride x = .error e →
      (x = .whole → running = false) → Follows d (some x) { d with running, status := .failed e }

theorem halfStep_of_executed {d : Debugger} (h : d.machine.phase = .firstPhaseDone) :
    d.Follows (some .secondHalf) d.halfStep := by
  rw [halfStep, h, Session.within_secondHalf]
  cases hs : d.session.secondHalf with
  | ok after => exact .ok hs (by simp)
  | error e => exact .error hs (by simp)

theorem halfStep_follows (d : Debugger) : d.Follows (d.goesOn? .firstHalf) d.halfStep := by
  cases hp : d.machine.phase with
  | firstPhaseDone =>
    rw [goesOn?, hp]
    exact halfStep_of_executed hp
  | idle =>
    rw [goesOn?, halfStep, hp, Session.within_firstHalf]
    cases hdone : d.machine.isDone with
    | true => exact .shows rfl (by simp [report])
    | false =>
      have hstride : d.session.stride .firstHalf = d.session.firstHalf.map Prod.snd := rfl
      cases hs : d.session.firstHalf with
      | ok r =>
        rw [hs] at hstride
        exact .ok hstride (by simp)
      | error e =>
        rw [hs] at hstride
        exact .error hstride (by simp)

theorem step_follows (d : Debugger) : d.Follows (d.goesOn? .whole) d.step := by
  cases hp : d.machine.phase with
  | firstPhaseDone =>
    rw [goesOn?, step, hp]
    exact halfStep_of_executed hp
  | idle =>
    rw [goesOn?, step, hp, Session.within_step]
    cases hdone : d.machine.isDone with
    | true => exact .shows rfl (by simp [halt])
    | false =>
      have hstride : d.session.stride .whole = d.session.step.map Prod.snd := rfl
      cases hs : d.session.step with
      | ok r =>
        rw [hs] at hstride
        exact .ok hstride (by simp)
      | error e =>
        rw [hs] at hstride
        exact .error hstride fun _ => rfl

theorem tick_of_not_running {d : Debugger} (h : d.running = false) : d.tick = d := by
  rw [tick, h]
  rfl

theorem tick_of_stops {d : Debugger} (hrunning : d.running = true) (h : d.stopsHere = true) :
    ∃ status, d.tick = d.halt status ∧ ∀ e, status ≠ .failed e := by
  rw [tick, hrunning]
  rw [stopsHere, Bool.or_eq_true] at h
  cases hdone : d.machine.isDone with
  | true => exact ⟨_, rfl, by simp⟩
  | false =>
    obtain hd | hb := h
    · rw [hd] at hdone
      cases hdone
    · rw [hb]
      exact ⟨_, rfl, by simp⟩

theorem tick_of_goes {d : Debugger} (hrunning : d.running = true) (h : d.stopsHere = false) :
    d.tick = d.step := by
  rw [stopsHere, Bool.or_eq_false_iff] at h
  rw [tick, hrunning, h.1, h.2]
  rfl

theorem press_follows (d : Debugger) (k : Key) : d.Follows (d.asks? k) (d.press k) := by
  cases k with
  | step => exact d.step_follows
  | halfStep => exact d.halfStep_follows
  | run => exact .shows rfl (by simp [press, run])
  | toggleBreakpoint =>
    cases h : d.atBreakpoint with
    | true => exact .shows (by simp [press, toggleBreakpoint, h]) (by simp [press, toggleBreakpoint, h])
    | false => exact .shows (by simp [press, toggleBreakpoint, h]) (by simp [press, toggleBreakpoint, h])
  | tick =>
    rw [asks?, press]
    cases hrunning : d.running with
    | false =>
      rw [tick_of_not_running hrunning]
      exact .still
    | true =>
      cases hstops : d.stopsHere with
      | true =>
        obtain ⟨status, htick, hstatus⟩ := tick_of_stops hrunning hstops
        rw [htick]
        exact .shows rfl hstatus
      | false =>
        rw [tick_of_goes hrunning hstops]
        exact d.step_follows

end AccumulatorMachine.Debugger
