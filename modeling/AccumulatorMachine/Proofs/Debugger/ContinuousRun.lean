import AccumulatorMachine.Proofs.Debugger.Keys
import Mathlib.Data.ENat.Lattice
import Mathlib.Logic.Function.Iterate

/-! # Continuous runs

A continuous run of the debugger is the plain sequence of whole cycles, cut at the first machine at
which there is a reason to stop (`Debugger.firstStop`): the program is done, the program counter is
at a breakpoint, or the next cycle fails. Before that every tick is one cycle (`ticks_before`), and
from there on ticks change nothing for the machine (`tick_at_stop`).
-/

namespace AccumulatorMachine
set_option autoImplicit false

namespace Machine

def Stops (m : Machine) (breakpoints : Std.TreeSet Word) : Prop :=
  m.isDone = true ∨ breakpoints.contains m.pc = true ∨ ∃ e, m.step = .error e

end Machine

namespace Debugger

/-- After `n` whole cycles there is a reason to stop. -/
def StopsAfter (d : Debugger) (n : ℕ) : Prop :=
  ∃ m, d.machine.steps n = .ok m ∧ m.Stops d.breakpoints

/-- The least number of cycles after which there is a reason to stop, if there is one. -/
noncomputable def firstStop (d : Debugger) : ℕ∞ := ⨅ (n : ℕ) (_ : d.StopsAfter n), (n : ℕ∞)

theorem le_firstStop_iff {d : Debugger} {n : ℕ} :
    (n : ℕ∞) ≤ d.firstStop ↔ ∀ k < n, ¬d.StopsAfter k := by
  rw [firstStop, le_iInf₂_iff]
  constructor
  · intro h k hk hstop
    have hle : n ≤ k := Nat.cast_le.1 (h k hstop)
    omega
  · intro h k hstop
    refine Nat.cast_le.2 (Nat.le_of_not_lt fun hk => ?_)
    exact h k hk hstop

/-- A stop before the `n`-th cycle has a first one. -/
theorem exists_firstStop {d : Debugger} {n : ℕ} (h : ¬(n : ℕ∞) ≤ d.firstStop) :
    ∃ k < n, d.firstStop = k ∧ d.StopsAfter k := by
  classical
  rw [le_firstStop_iff] at h
  simp only [not_forall, not_not] at h
  obtain ⟨l, hl, hstop⟩ := h
  have hexists : ∃ k, d.StopsAfter k := ⟨l, hstop⟩
  refine ⟨Nat.find hexists, lt_of_le_of_lt (Nat.find_min' hexists hstop) hl, ?_,
    Nat.find_spec hexists⟩
  refine le_antisymm (iInf₂_le _ (Nat.find_spec hexists)) (le_firstStop_iff.2 fun k hk => ?_)
  exact Nat.find_min hexists hk

/-! ## A single tick -/

theorem goesOn?_of_idle {d : Debugger} (hidle : d.machine.phase = .idle)
    (hdone : d.machine.isDone = false) (x : Stride) : d.goesOn? x = some x := by
  rw [goesOn?, hidle, hdone]
  rfl

/-- Where there is no reason to stop, a tick is a whole cycle. -/
theorem tick_of_not_stops {d : Debugger} (hrunning : d.running = true)
    (hidle : d.machine.phase = .idle) (h : ¬d.machine.Stops d.breakpoints) :
    ∃ m status, d.machine.stride .whole = .ok m ∧
      d.tick = { d with session := d.session.withMachine m, status } := by
  rw [Machine.Stops, not_or, not_or, Bool.not_eq_true, Bool.not_eq_true] at h
  obtain ⟨hdone, hbreak, hfails⟩ := h
  have hgoes : d.stopsHere = false := by
    have hat : d.atBreakpoint = false := hbreak
    rw [stopsHere, hdone, hat]
    rfl
  rw [tick_of_goes hrunning hgoes]
  have hfollows := d.step_follows
  rw [goesOn?_of_idle hidle hdone] at hfollows
  generalize d.step = next at hfollows ⊢
  cases hfollows with
  | ok hstride =>
    obtain ⟨m, hm, rfl⟩ := Session.stride_eq_ok_iff.1 hstride
    exact ⟨m, _, hm, rfl⟩
  | error hstride =>
    have herror := Session.stride_eq_error_iff.1 hstride
    exact absurd ⟨_, map_snd_eq_error_iff.1 herror⟩ hfails

theorem tick_at_stop {d : Debugger} (hrunning : d.running = true)
    (hidle : d.machine.phase = .idle) (h : d.machine.Stops d.breakpoints) :
    d.tick.machine = d.machine ∧ d.tick.running = false := by
  cases hstops : d.stopsHere with
  | true =>
    obtain ⟨status, htick, -⟩ := tick_of_stops hrunning hstops
    rw [htick]
    exact ⟨rfl, rfl⟩
  | false =>
    rw [tick_of_goes hrunning hstops]
    rw [stopsHere, Bool.or_eq_false_iff, hidle, beq_self_eq_true, Bool.and_true] at hstops
    obtain ⟨hdone, hbreak⟩ := hstops
    have hfails : ∃ e, d.machine.step = .error e := by
      obtain hd | hb | hfails := h
      · rw [hd] at hdone
        cases hdone
      · have hat : d.atBreakpoint = true := hb
        rw [hat] at hbreak
        cases hbreak
      · exact hfails
    obtain ⟨e, he⟩ := hfails
    have hfollows := d.step_follows
    rw [goesOn?_of_idle hidle hdone] at hfollows
    generalize d.step = next at hfollows ⊢
    cases hfollows with
    | ok hstride =>
      obtain ⟨m, hm, -⟩ := Session.stride_eq_ok_iff.1 hstride
      obtain ⟨i, hi⟩ := map_snd_eq_ok_iff.1 hm
      cases he.symm.trans hi
    | error _ hhalts => exact ⟨rfl, hhalts rfl⟩

/-- A tick between two cycles is a whole cycle, which no breakpoint forbids, or the end. -/
theorem tick_cases {d : Debugger} (hidle : d.machine.phase = .idle) :
    (d.atBreakpoint = false ∧ (∃ i, d.machine.step = .ok (i, d.tick.machine)) ∧
      d.tick.running = true) ∨
    (d.tick.machine = d.machine ∧ d.tick.running = false) := by
  cases hrunning : d.running with
  | false =>
    rw [tick_of_not_running hrunning]
    exact .inr ⟨rfl, hrunning⟩
  | true =>
    by_cases hstops : d.machine.Stops d.breakpoints
    · exact .inr (tick_at_stop hrunning hidle hstops)
    · obtain ⟨m, status, hwhole, htick⟩ := tick_of_not_stops hrunning hidle hstops
      have hclear : d.atBreakpoint = false := by
        rw [← Bool.not_eq_true]
        exact fun hb => hstops (.inr (.inl hb))
      rw [htick]
      exact .inl ⟨hclear, map_snd_eq_ok_iff.1 hwhole, hrunning⟩

/-! ## Many ticks -/

/-- Up to the first stop the ticks are as many whole cycles. -/
theorem ticks_before {d : Debugger} (hidle : d.machine.phase = .idle) {n : ℕ}
    (h : ∀ k < n, ¬d.StopsAfter k) :
    ∃ m status, d.machine.steps n = .ok m ∧
      tick^[n] d.run = { d with session := d.session.withMachine m, running := true, status } := by
  -- the run stays on, and only the machine and the status change
  induction n with
  | zero => exact ⟨d.machine, .running, rfl, rfl⟩
  | succ n ih =>
    obtain ⟨m, status, hsteps, hticks⟩ := ih fun k hk => h k (by omega)
    have hrest : m.phase = .idle := (Machine.phase_of_steps hsteps).trans hidle
    have hgoes : ¬m.Stops d.breakpoints := fun hstops => h n (by omega) ⟨m, hsteps, hstops⟩
    rw [Function.iterate_succ_apply', hticks]
    obtain ⟨m', status', hwhole, htick⟩ := tick_of_not_stops
      (d := { d with session := d.session.withMachine m, running := true, status }) rfl hrest hgoes
    exact ⟨m', status', times_succ_eq_ok_iff.2 ⟨m, hsteps, hwhole⟩, htick⟩

theorem ticks_of_not_running {d : Debugger} (h : d.running = false) (n : ℕ) : tick^[n] d = d :=
  Function.iterate_fixed (tick_of_not_running h) n

theorem ticks_after {d : Debugger} (hidle : d.machine.phase = .idle) {k n : ℕ} (hk : k < n)
    (hbefore : ∀ l < k, ¬d.StopsAfter l) (hstop : d.StopsAfter k) :
    ∃ m, d.machine.steps k = .ok m ∧ (tick^[n] d.run).machine = m ∧
      (tick^[n] d.run).running = false := by
  obtain ⟨m, status, hsteps, hticks⟩ := ticks_before hidle hbefore
  have hrest : m.phase = .idle := (Machine.phase_of_steps hsteps).trans hidle
  have hreason : m.Stops d.breakpoints := by
    obtain ⟨m', hsteps', hreason⟩ := hstop
    rw [hsteps] at hsteps'
    cases hsteps'
    exact hreason
  have hat := tick_at_stop
    (d := { d with session := d.session.withMachine m, running := true, status }) rfl hrest hreason
  rw [← hticks] at hat
  -- the tick after the `k`-th one ends the run, and the rest of them find it ended
  have hsum : n = n - (k + 1) + (k + 1) := by omega
  rw [hsum, Function.iterate_add_apply, Function.iterate_succ_apply',
    ticks_of_not_running hat.2]
  refine ⟨m, hsteps, ?_, hat.2⟩
  rw [hat.1, hticks]
  rfl

theorem ticks_eq {d : Debugger} (hidle : d.machine.phase = .idle) (n : ℕ) :
    ∃ m, d.machine.steps (min (n : ℕ∞) d.firstStop).toNat = .ok m ∧
      (tick^[n] d.run).machine = m ∧
      ((tick^[n] d.run).running = true ↔ (n : ℕ∞) ≤ d.firstStop) := by
  by_cases h : (n : ℕ∞) ≤ d.firstStop
  · obtain ⟨m, status, hsteps, hticks⟩ := ticks_before hidle (le_firstStop_iff.1 h)
    rw [min_eq_left h, ENat.toNat_natCast, hticks]
    exact ⟨m, hsteps, rfl, by simp [h]⟩
  · obtain ⟨k, hk, hfirst, hstop⟩ := exists_firstStop h
    have hbefore : ∀ l < k, ¬d.StopsAfter l := le_firstStop_iff.1 hfirst.ge
    obtain ⟨m, hsteps, hmachine, hrunning⟩ := ticks_after hidle hk hbefore hstop
    rw [min_eq_right (le_of_not_ge h), hfirst, ENat.toNat_natCast]
    refine ⟨m, hsteps, hmachine, ?_⟩
    rw [← hfirst]
    simp [hrunning, h]

/-! ## Ticks and bounded runs -/

/-- Without breakpoints the ticks of a continuous run do what a bounded run does. -/
theorem ticks_eq_advance {d : Debugger} (hidle : d.machine.phase = .idle)
    (hrunning : d.running = true) (hnone : ∀ a, d.breakpoints.contains a = false) (n count : ℕ) :
    (tick^[n] d).machine = (Machine.advance n count d.machine).machine := by
  induction n generalizing d count with
  | zero => rfl
  | succ n ih =>
    rw [Function.iterate_succ_apply]
    by_cases hstops : d.machine.Stops d.breakpoints
    · obtain ⟨hsame, hhalted⟩ := tick_at_stop hrunning hidle hstops
      rw [ticks_of_not_running hhalted, hsame]
      cases hdone : d.machine.isDone with
      | true => rw [Machine.advance_of_done hdone]
      | false =>
        obtain hd | hb | ⟨e, he⟩ := hstops
        · rw [hd] at hdone
          cases hdone
        · rw [hnone] at hb
          cases hb
        · rw [Machine.advance_of_error hdone he]
    · have hdone : d.machine.isDone = false := by
        rw [← Bool.not_eq_true]
        exact fun hd => hstops (.inl hd)
      obtain ⟨m, status, hwhole, htick⟩ := tick_of_not_stops hrunning hidle hstops
      obtain ⟨i, hstep⟩ := map_snd_eq_ok_iff.1 hwhole
      obtain ⟨-, hm⟩ := Machine.stride_eq_ok_iff.1 hwhole
      have hrest : m.phase = .idle := by
        rw [hm]
        rfl
      rw [Machine.advance_of_step hdone hstep, htick]
      exact ih (d := { d with session := d.session.withMachine m, status }) hrest hrunning hnone
        (count + 1)

/-- **A continuous run is the plain sequence of whole cycles cut at the first reason to stop.**
After any number of ticks the machine is the one after as many cycles, or the one at the first stop
if that comes before, and the run goes on as long as the ticks have not passed it. So a tick at a
breakpoint begins nothing, no breakpoint is passed over, and each tick is a whole cycle or leaves the
machine as it is. Without breakpoints the bounded run comes to the same, but for the watch. -/
theorem continuous_run_cut_at_first_stop (d : Debugger) (hidle : d.machine.phase = .idle) :
    (∀ n : ℕ, ∃ m, d.machine.steps (min (n : ℕ∞) d.firstStop).toNat = .ok m ∧
      (tick^[n] d.run).machine = m ∧
      ((tick^[n] d.run).running = true ↔ (n : ℕ∞) ≤ d.firstStop)) ∧
    (∀ n : ℕ, (tick^[n] d.run).atBreakpoint = true →
      (tick^[n + 1] d.run).machine = (tick^[n] d.run).machine ∧
        (tick^[n + 1] d.run).running = false) ∧
    (∀ (k : ℕ) (m : Machine), d.machine.steps k = .ok m → d.breakpoints.contains m.pc = true →
      d.firstStop ≤ k) ∧
    (∀ n : ℕ, (∃ i, (tick^[n] d.run).machine.step = .ok (i, (tick^[n + 1] d.run).machine) ∧
        (tick^[n + 1] d.run).running = true) ∨
      ((tick^[n + 1] d.run).machine = (tick^[n] d.run).machine ∧
        (tick^[n + 1] d.run).running = false)) ∧
    ((∀ a, d.breakpoints.contains a = false) → ∀ n : ℕ,
      (d.session.run n).1.machine.untimed = (tick^[n] d.run).machine.untimed) := by
  have hrest : ∀ n : ℕ, (tick^[n] d.run).machine.phase = .idle := by
    intro n
    obtain ⟨m, hsteps, hmachine, -⟩ := ticks_eq hidle n
    rw [hmachine]
    exact (Machine.phase_of_steps hsteps).trans hidle
  refine ⟨fun n => ticks_eq hidle n, fun n hbreak => ?_, fun k m hsteps hbreak => ?_,
    fun n => ?_, fun hnone n => ?_⟩
  · rw [Function.iterate_succ_apply']
    obtain ⟨hclear, -⟩ | hends := tick_cases (hrest n)
    · rw [hbreak] at hclear
      cases hclear
    · exact hends
  · exact iInf₂_le k ⟨m, hsteps, .inr (.inl hbreak)⟩
  · rw [Function.iterate_succ_apply']
    obtain ⟨-, ⟨i, hi⟩, hgoes⟩ | hends := tick_cases (hrest n)
    · exact .inl ⟨i, hi, hgoes⟩
    · exact .inr hends
  · have hadvance := ticks_eq_advance (d := d.run) hidle rfl hnone n 0
    have hrun : (d.session.run n).1.machine = (d.machine.run n).machine := rfl
    rw [hadvance, hrun, Machine.run_eq_watched, Machine.untimed_watched]
    rfl

/-- Four words that count, and a breakpoint at the third one. -/
def counting : Debugger where
  session := (Session.ofSettings { memorySize := 4 }).after [.load "INC\nINC\nINC\nINC"]
  breakpoints := (∅ : Std.TreeSet Word).insert 2

theorem continuous_run_of_counting :
    counting.machine.phase = .idle ∧ counting.firstStop = 2 ∧
      counting.machine.steps 2 = .ok (tick^[5] counting.run).machine ∧
      (tick^[5] counting.run).running = false := by
  have hidle : counting.machine.phase = .idle := rfl
  obtain ⟨hticks, -, hbreak, -⟩ := continuous_run_cut_at_first_stop counting hidle
  obtain ⟨m, hsteps⟩ : ∃ m, counting.machine.steps 2 = .ok m := ⟨_, rfl⟩
  have hpc : counting.breakpoints.contains m.pc = true := by
    cases hsteps
    rfl
  have hle : counting.firstStop ≤ (2 : ℕ) := hbreak 2 m hsteps hpc
  have hge : ((2 : ℕ) : ℕ∞) ≤ counting.firstStop := by
    obtain ⟨-, -, -, hrunning⟩ := hticks 2
    exact hrunning.1 rfl
  have hfirst : counting.firstStop = (2 : ℕ) := le_antisymm hle hge
  obtain ⟨m', hsteps', hmachine, hrunning⟩ := hticks 5
  have hmin : (min ((5 : ℕ) : ℕ∞) counting.firstStop).toNat = 2 := by
    rw [hfirst]
    rfl
  rw [hmin, ← hmachine] at hsteps'
  refine ⟨hidle, hfirst, hsteps', ?_⟩
  rw [← Bool.not_eq_true, hrunning, hfirst, Nat.cast_le]
  decide

end Debugger
end AccumulatorMachine
