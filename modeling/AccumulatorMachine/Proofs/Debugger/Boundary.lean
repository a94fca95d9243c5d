import AccumulatorMachine.Proofs.Debugger.Keys
import AccumulatorMachine.Proofs.Session.Coherence
import AccumulatorMachine.Proofs.Session.Tally

/-! # Where programs are reported done

A continuous run of the debugger and a run of the session both look at the program counter to tell
whether the program is done. The counter can be past the end while an instruction is still held
(`Machine.EndsHalfway`), since a taken branch moves it in the first half of its cycle. Everywhere
else the end is reported between two instructions, and with the count of all that were executed
(`Machine.AtBoundary`). For this a history has a count of its own (`Debugger.executed`) beside that
of the machine, and the two are shown to agree (`Debugger.tallies_after`); and the machine holds no
instruction at rest, since its phase tells whether it holds one (`Debugger.coherent_after`).
-/

namespace AccumulatorMachine
set_option autoImplicit false

namespace Machine

/-- The machine stands between two instructions and has counted all `n` of them. -/
structure AtBoundary (m : Machine) (n : Nat) : Prop where
  idle : m.phase = .idle
  unloaded : m.loaded? = none
  counted : m.metrics.instructions.toNat = n % 2 ^ 64

/-- The program is done with an instruction still held. -/
def EndsHalfway (m : Machine) : Prop := m.phase = .firstPhaseDone ∧ m.isDone = true

theorem Tallies.atBoundary_iff {m : Machine} {n : Nat} (h : m.Tallies n) (hcoherent : m.Coherent) :
    m.AtBoundary n ↔ m.phase = .idle := by
  refine ⟨fun hb => hb.idle, fun hidle => ?_⟩
  rw [Tallies, hidle, if_neg (by decide), UInt64.add_zero] at h
  exact ⟨hidle, hcoherent.loaded?_of_idle hidle, by rw [h, UInt64.toNat_ofNat']⟩

/-! ## Runs that begin half way -/

theorem run_of_executed {m : Machine} (h : m.phase = .firstPhaseDone) (budget : Nat) :
    (m.run budget).machine = m.watched false true := by
  obtain ⟨n, -, hsteps⟩ := steps_of_advance budget 0 m
  rw [run_eq_watched]
  cases n with
  | zero =>
    have hsame : (advance budget 0 m).machine = m := (Except.ok.inj hsteps).symm
    exact congrArg (watched false true) hsame
  | succ n =>
    -- the first of these cycles would have had to begin half way
    have hidle := (idle_of_steps hsteps).1
    rw [h] at hidle
    cases hidle

theorem run_error_of_executed {m : Machine} (h : m.phase = .firstPhaseDone) {budget : Nat}
    (hpos : 0 < budget) :
    (m.run budget).error = if m.isDone then none else some (.sequence .idle .firstPhaseDone) := by
  obtain ⟨n, rfl⟩ : ∃ n, budget = n + 1 := ⟨budget - 1, by omega⟩
  rw [run_eq_watched, advance_of_executed h]

/-- Wherever it begins, a run ends in the phase in which it has begun. -/
theorem phase_run (m : Machine) (budget : Nat) : (m.run budget).machine.phase = m.phase := by
  obtain ⟨n, -, hsteps⟩ := steps_of_advance budget 0 m
  rw [run_eq_watched, phase_watched]
  exact phase_of_steps hsteps

end Machine

/-- A run to the end that ends well leaves the machine of a run, and that machine is done. -/
theorem Session.runToEnd?_eq_ok {s after : Session} {patience n : Nat}
    (h : s.runToEnd? patience = some (after, .ok n)) :
    after = s.withMachine (s.machine.run patience).machine ∧
      (s.machine.run patience).machine.isDone = true := by
  obtain ⟨hrun, hfinal⟩ := runToEnd?_eq_some h
  obtain ⟨rfl, hok⟩ := Prod.mk.inj hrun
  refine ⟨rfl, ?_⟩
  rw [Run.isFinal, (Run.result_eq_ok_iff.1 hok.symm).1] at hfinal
  exact hfinal

/-! ## Histories of a debugger -/

namespace Debugger

/-- What can be done to a debugger: with its keys, and with its session. -/
inductive Action
  | press (k : Key)
  | reset
  | operate (o : Session.Operation)

def act (d : Debugger) : Action → Debugger
  | .press k => d.press k
  | .reset => d.reset
  | .operate o => { d with session := d.session.perform o }

/-- The debugger after a history, the latest action first. -/
def after (d : Debugger) : List Action → Debugger
  | [] => d
  | a :: earlier => (d.after earlier).act a

def tally (d : Debugger) (n : Nat) : Action → Nat
  | .press k =>
    match d.asks? k with
    | some x => d.session.tally n (.stride x)
    | none => n
  | .reset => 0
  | .operate o => d.session.tally n o

/-- How many instructions a history has executed within cycles since the last load. -/
def executed (d : Debugger) : List Action → Nat
  | [] => 0
  | a :: earlier => (d.after earlier).tally (d.executed earlier) a

theorem press_session (d : Debugger) (k : Key) :
    (d.press k).session =
      match d.asks? k with
      | some x => d.session.perform (.stride x)
      | none => d.session := by
  have hfollows := d.press_follows k
  generalize d.asks? k = asked at hfollows ⊢
  generalize d.press k = next at hfollows ⊢
  cases hfollows with
  | still => rfl
  | shows hsession => exact hsession
  | ok hstride => simp only [Session.perform_stride, hstride]
  | error hstride => simp only [Session.perform_stride, hstride]

theorem reset_session (d : Debugger) : d.reset.session = d.session.reset.1 := by
  rw [reset]
  generalize d.session.reset = r
  obtain ⟨session, result⟩ := r
  cases result with
  | ok => rfl
  | error e => rfl

/-- The operation that the action asks of the session. -/
def request? (d : Debugger) : Action → Option Session.Operation
  | .press k => (d.asks? k).map .stride
  | .reset => some .reset
  | .operate o => some o

theorem session_act (d : Debugger) (a : Action) :
    (d.act a).session = ((d.request? a).map d.session.perform).getD d.session := by
  cases a with
  | press k =>
    show (d.press k).session = _
    rw [press_session, request?]
    cases d.asks? k with
    | none => rfl
    | some x => rfl
  | reset => exact d.reset_session
  | operate o => rfl

theorem tally_eq (d : Debugger) (n : Nat) (a : Action) :
    d.tally n a = ((d.request? a).map (d.session.tally n)).getD n := by
  cases a with
  | press k =>
    rw [tally, request?]
    cases d.asks? k with
    | none => rfl
    | some x => rfl
  | reset => rfl
  | operate o => rfl

theorem tallies_act {d : Debugger} {n : Nat} (h : d.machine.Tallies n) (a : Action) :
    (d.act a).machine.Tallies (d.tally n a) := by
  rw [machine, session_act, tally_eq]
  cases d.request? a with
  | none => exact h
  | some o => exact Session.tallies_perform h o

theorem tallies_after {d : Debugger} (h : d.machine.Tallies 0) (history : List Action) :
    (d.after history).machine.Tallies (d.executed history) := by
  induction history with
  | nil => exact h
  | cons a earlier ih => exact tallies_act ih a

theorem coherent_act {d : Debugger} (h : d.machine.Coherent) (a : Action) :
    (d.act a).machine.Coherent := by
  rw [machine, session_act]
  cases d.request? a with
  | none => exact h
  | some o => exact Session.coherent_perform h o

theorem coherent_after {d : Debugger} (h : d.machine.Coherent) (history : List Action) :
    (d.after history).machine.Coherent := by
  induction history with
  | nil => exact h
  | cons a earlier ih => exact coherent_act ih a

/-! ## Reports that a program is done -/

/-- The action ends a continuous run, or is a run that ends well. -/
inductive Finishes (d : Debugger) : Action → Prop
  | tick : d.running = true → d.tick.running = false → Finishes d (.press .tick)
  | run {budget n : Nat} : 0 < budget → (d.session.run budget).2 = .ok n →
      Finishes d (.operate (.run budget))
  | runToEnd {patience n : Nat} {after : Session} :
      d.session.runToEnd? patience = some (after, .ok n) →
      Finishes d (.operate (.runToEnd patience))

/-- Half way through a cycle, a tick of a continuous run retires the instruction, unless the program
is done. -/
theorem tick_of_executed {d : Debugger} (hrunning : d.running = true)
    (h : d.machine.phase = .firstPhaseDone) (hdone : d.machine.isDone = false) :
    d.tick.machine = d.machine.retired ∧ d.tick.running = true := by
  have hgoes : d.stopsHere = false := by
    rw [stopsHere, hdone, h]
    simp
  have hasks : d.goesOn? .whole = some .secondHalf := by rw [goesOn?, h]
  rw [tick_of_goes hrunning hgoes]
  have hfollows := d.step_follows
  rw [hasks] at hfollows
  have hretires : d.session.machine.stride .secondHalf = .ok d.machine.retired :=
    Machine.secondHalf_eq_ok_iff.2 ⟨h, rfl⟩
  generalize d.step = next at hfollows ⊢
  cases hfollows with
  | ok hstride =>
    rw [Session.stride_eq_ok_iff.2 ⟨_, hretires, rfl⟩, Except.ok.injEq] at hstride
    subst hstride
    exact ⟨rfl, hrunning⟩
  | error hstride =>
    rw [Session.stride_eq_error_iff, hretires] at hstride
    cases hstride

theorem tick_of_endsHalfway {d : Debugger} (hrunning : d.running = true)
    (h : d.machine.EndsHalfway) : d.tick.machine = d.machine := by
  have hstops : d.stopsHere = true := by
    rw [stopsHere, h.2]
    rfl
  obtain ⟨status, htick, -⟩ := tick_of_stops hrunning hstops
  rw [htick]
  rfl

theorem phase_tick_of_halts {d : Debugger} (hrunning : d.running = true)
    (hidle : d.machine.phase = .idle) (hhalts : d.tick.running = false) :
    d.tick.machine.phase = .idle := by
  cases hstops : d.stopsHere with
  | true =>
    obtain ⟨status, htick, -⟩ := tick_of_stops hrunning hstops
    rw [htick]
    exact hidle
  | false =>
    rw [tick_of_goes hrunning hstops] at hhalts ⊢
    have hfollows := d.step_follows
    generalize d.step = next at hfollows hhalts ⊢
    generalize d.goesOn? .whole = asked at hfollows
    cases hfollows with
    | still => exact hidle
    | shows hsession =>
      rw [machine, hsession]
      exact hidle
    | ok =>
      rw [hrunning] at hhalts
      cases hhalts
    | error => exact hidle

theorem phase_perform_run (d : Debugger) (budget : Nat) :
    (d.act (.operate (.run budget))).machine.phase = d.machine.phase := d.machine.phase_run budget

theorem phase_perform_runToEnd {d : Debugger} {patience n : Nat} {after : Session}
    (h : d.session.runToEnd? patience = some (after, .ok n)) :
    (d.act (.operate (.runToEnd patience))).machine.phase = d.machine.phase := by
  obtain ⟨rfl, -⟩ := Session.runToEnd?_eq_ok h
  show (d.session.perform (.runToEnd patience)).machine.phase = _
  rw [Session.perform, h]
  exact d.machine.phase_run patience

theorem phase_act_of_idle {d : Debugger} {a : Action} (hidle : d.machine.phase = .idle)
    (h : d.Finishes a) : (d.act a).machine.phase = .idle := by
  cases h with
  | tick hrunning hhalts => exact phase_tick_of_halts hrunning hidle hhalts
  | run => exact (d.phase_perform_run _).trans hidle
  | runToEnd hends => exact (phase_perform_runToEnd hends).trans hidle

/-- Half way through a cycle, an action can only finish where it finds the program done, and it
stays half way. -/
theorem endsHalfway_of_finishes {d : Debugger} {a : Action}
    (hexecuted : d.machine.phase = .firstPhaseDone) (h : d.Finishes a) :
    d.machine.EndsHalfway ∧ (d.act a).machine.phase = .firstPhaseDone := by
  cases h with
  | tick hrunning hhalts =>
    cases hdone : d.machine.isDone with
    | true =>
      have hends : d.machine.EndsHalfway := ⟨hexecuted, hdone⟩
      refine ⟨hends, ?_⟩
      show d.tick.machine.phase = _
      rw [tick_of_endsHalfway hrunning hends]
      exact hexecuted
    | false =>
      have hgoes := (tick_of_executed hrunning hexecuted hdone).2
      rw [hhalts] at hgoes
      cases hgoes
  | @run budget n hpos hok =>
    have herror : (d.machine.run budget).error = none := (Run.result_eq_ok_iff.1 hok).1
    rw [Machine.run_error_of_executed hexecuted hpos] at herror
    have hdone : d.machine.isDone = true := by simpa using herror
    exact ⟨⟨hexecuted, hdone⟩, (d.phase_perform_run budget).trans hexecuted⟩
  | @runToEnd patience n after hends =>
    have hdone : (d.machine.run patience).machine.isDone = true :=
      (Session.runToEnd?_eq_ok hends).2
    rw [Machine.run_of_executed hexecuted, Machine.isDone_watched] at hdone
    exact ⟨⟨hexecuted, hdone⟩, (phase_perform_runToEnd hends).trans hexecuted⟩

theorem phase_act_of_finishes {d : Debugger} {a : Action} (h : d.Finishes a) :
    (d.act a).machine.phase = .idle ↔ ¬d.machine.EndsHalfway := by
  cases hphase : d.machine.phase with
  | idle =>
    have hnot : ¬d.machine.EndsHalfway := by
      rintro ⟨hexecuted, -⟩
      rw [hphase] at hexecuted
      cases hexecuted
    exact iff_of_true (phase_act_of_idle hphase h) hnot
  | firstPhaseDone =>
    obtain ⟨hends, hafter⟩ := endsHalfway_of_finishes hphase h
    rw [hafter]
    exact iff_of_false (by decide) (not_not_intro hends)

/-! ## Runs and ticks half way through a cycle -/

theorem run_of_executed_iff {d : Debugger} (h : d.machine.phase = .firstPhaseDone) {budget : Nat}
    (hpos : 0 < budget) :
    (d.session.run budget).2 = .error (.sequence .idle .firstPhaseDone) ↔
      ¬d.machine.EndsHalfway := by
  have hresult : (d.session.run budget).2 = (d.machine.run budget).result := rfl
  rw [hresult, Run.result_eq_error_iff, Machine.run_error_of_executed h hpos]
  simp [Machine.EndsHalfway, h]

theorem runToEnd?_of_executed_iff {d : Debugger} (h : d.machine.phase = .firstPhaseDone)
    {patience : Nat} (hpos : 0 < patience) :
    (d.session.runToEnd? patience).map Prod.snd =
      some (.error (.sequence .idle .firstPhaseDone)) ↔ ¬d.machine.EndsHalfway := by
  have hresult : (d.session.runToEnd? patience).map Prod.snd =
      (d.machine.runToEnd? patience).map Run.result := by
    rw [Session.runToEnd?, Option.map_map]
    rfl
  rw [hresult, ← run_of_executed_iff h hpos, Option.map_eq_some_iff]
  constructor
  · rintro ⟨r, hr, herror⟩
    obtain ⟨rfl, -⟩ := Machine.runToEnd?_eq_some_iff.1 hr
    exact herror
  · intro herror
    have hfails : (d.machine.run patience).result = .error (.sequence .idle .firstPhaseDone) :=
      herror
    refine ⟨_, Machine.runToEnd?_eq_some_iff.2 ⟨rfl, ?_⟩, hfails⟩
    rw [Run.isFinal, Run.result_eq_error_iff.1 hfails]
    rfl

theorem tick_of_executed_iff {d : Debugger} (h : d.machine.phase = .firstPhaseDone)
    (hrunning : d.running = true) :
    d.machine.secondHalf = .ok d.tick.machine ↔ ¬d.machine.EndsHalfway := by
  rw [Machine.secondHalf_eq_ok_iff]
  cases hdone : d.machine.isDone with
  | false =>
    have hretires := (tick_of_executed hrunning h hdone).1
    simp [h, hretires, Machine.EndsHalfway, hdone]
  | true =>
    -- the tick leaves the machine as it is, and the phase tells that from a retired one
    have hends : d.machine.EndsHalfway := ⟨h, hdone⟩
    have hmoved : d.machine ≠ d.machine.retired := by
      intro hsame
      have hphase := congrArg Machine.phase hsame
      rw [h] at hphase
      cases hphase
    rw [tick_of_endsHalfway hrunning hends]
    simp [hmoved, hends]

/-! ## Where the end is reported -/

/-- **The end of a program is reported between two instructions, and with all of them counted,
exactly if it is not found with an instruction half done.** Half way through a cycle it is also just
this that keeps a run from being out of sequence, and a tick from retiring the instruction. -/
theorem completion_at_boundary_exact {s : Session} {text : String} {p : Program} {start : Debugger}
    (hload : s.load text = (start.session, .ok p)) (history : List Action) :
    let d := start.after history
    (∀ a, d.Finishes a →
      ((d.act a).machine.AtBoundary (start.executed (a :: history)) ↔ ¬d.machine.EndsHalfway)) ∧
    (d.machine.phase = .firstPhaseDone →
      (∀ budget, 0 < budget →
        ((d.session.run budget).2 = .error (.sequence .idle .firstPhaseDone) ↔
          ¬d.machine.EndsHalfway)) ∧
      (∀ patience, 0 < patience →
        ((d.session.runToEnd? patience).map Prod.snd =
          some (.error (.sequence .idle .firstPhaseDone)) ↔ ¬d.machine.EndsHalfway)) ∧
      (d.running = true →
        (d.machine.secondHalf = .ok d.tick.machine ↔ ¬d.machine.EndsHalfway))) := by
  intro d
  obtain ⟨memory, last, hmachine⟩ := s.machine_load text
  rw [hload] at hmachine
  have hfresh : start.machine.Tallies 0 := by
    show start.session.machine.Tallies 0
    rw [hmachine]
    rfl
  have hcoherent : start.machine.Coherent := by
    show start.session.machine.Coherent
    rw [hmachine]
    exact Machine.coherent_fresh memory last
  refine ⟨fun a hfinishes => ?_, fun hexecuted => ⟨fun _ => run_of_executed_iff hexecuted,
    fun _ => runToEnd?_of_executed_iff hexecuted, tick_of_executed_iff hexecuted⟩⟩
  have htallies : (d.act a).machine.Tallies (start.executed (a :: history)) :=
    tallies_after hfresh (a :: history)
  have hafter : (d.act a).machine.Coherent := coherent_after hcoherent (a :: history)
  rw [htallies.atBoundary_iff hafter, phase_act_of_finishes hfinishes]

/-- One word that counts. -/
def single : Debugger where
  session := ((Session.ofSettings { memorySize := 4 }).load "INC").1

theorem completion_at_boundary_of_single :
    (∃ p, (Session.ofSettings { memorySize := 4 }).load "INC" = (single.session, .ok p)) ∧
      (single.after [.press .tick, .press .run]).Finishes (.press .tick) ∧
      (single.after [.press .tick, .press .tick, .press .run]).machine.AtBoundary 1 ∧
      ((single.after [.press .halfStep]).session.run 5).2 =
        .error (.sequence .idle .firstPhaseDone) ∧
      (single.after [.press .run, .press .halfStep]).machine.secondHalf =
        .ok (single.after [.press .run, .press .halfStep]).tick.machine := by
  obtain ⟨p, hload⟩ : ∃ p, (Session.ofSettings { memorySize := 4 }).load "INC" =
      (single.session, .ok p) := ⟨_, rfl⟩
  have hfinishes : (single.after [.press .tick, .press .run]).Finishes (.press .tick) :=
    .tick rfl rfl
  have hrest : ¬(single.after [.press .tick, .press .run]).machine.EndsHalfway := by
    rintro ⟨hphase, -⟩
    cases hphase
  have hlast : (single.after [.press .tick, .press .tick, .press .run]).machine.AtBoundary
      (single.executed [.press .tick, .press .tick, .press .run]) :=
    ((completion_at_boundary_exact hload [.press .tick, .press .run]).1 _ hfinishes).2 hrest
  have hhalf : ¬(single.after [.press .halfStep]).machine.EndsHalfway := by
    rintro ⟨-, hdone⟩
    cases hdone
  obtain ⟨-, hexecuted⟩ := completion_at_boundary_exact hload [.press .halfStep]
  obtain ⟨-, hexecuted'⟩ := completion_at_boundary_exact hload [.press .run, .press .halfStep]
  obtain ⟨hrun, -⟩ := hexecuted rfl
  obtain ⟨-, -, htick⟩ := hexecuted' rfl
  exact ⟨⟨p, hload⟩, hfinishes, hlast, (hrun 5 (by decide)).2 hhalf, (htick rfl).2 hhalf⟩

/-- A branch to the end, which is taken in the first half of its cycle. -/
def leaving : Debugger where
  session := ((Session.ofSettings { memorySize := 4 }).load "BRZ END\nEND:").1

/-- With the branch half done a tick reports the end, and a run no error. -/
theorem completion_halfway_of_leaving :
    (∃ p, (Session.ofSettings { memorySize := 4 }).load "BRZ END\nEND:" =
      (leaving.session, .ok p)) ∧
      (leaving.after [.press .run, .press .halfStep]).Finishes (.press .tick) ∧
      (leaving.after [.press .tick, .press .run, .press .halfStep]).machine.phase =
        .firstPhaseDone ∧
      (leaving.after [.press .tick, .press .run, .press .halfStep]).machine.metrics.instructions =
        0 ∧
      leaving.executed [.press .tick, .press .run, .press .halfStep] = 1 ∧
      ((leaving.after [.press .halfStep]).session.run 5).2 = .ok 0 :=
  ⟨⟨_, rfl⟩, .tick rfl rfl, rfl, rfl, rfl, rfl⟩

end Debugger
end AccumulatorMachine
