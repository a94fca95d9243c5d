import AccumulatorMachine.Proofs.Debugger.Boundary
import AccumulatorMachine.Proofs.Session.Bounds

/-! # Driving a loaded program

What can be done to a debugger without touching its machine from outside (`Debugger.Drives`): its
keys, resets, and runs from between two instructions. Whatever is reached in this way is within the
bounds of the loaded program, and the errors reported on the way are those of instructions that
reach outside memory.
-/

namespace AccumulatorMachine.Debugger
set_option autoImplicit false

/-! ## What is reached -/

/-- The action only drives the program. A run must not begin half way through a cycle. -/
def Drives (d : Debugger) : Action → Prop
  | .press _ | .reset => True
  | .operate (.run _) | .operate (.runToEnd _) => d.machine.phase = .idle
  | .operate _ => False

/-- The debuggers that come about by driving `start`. -/
inductive Driven (start : Debugger) : Debugger → Prop
  | start : Driven start start
  | act {d : Debugger} {a : Action} : Driven start d → d.Drives a → Driven start (d.act a)

/-- The action reports the error `e`. A tick outside a continuous run does nothing, and the status
is one of before. -/
def Reports (d : Debugger) : Action → StepError → Prop
  | .press k, e => (k = .tick → d.running = true) ∧ (d.press k).status = .failed e
  | .operate (.run budget), e => (d.session.run budget).2 = .error e
  | .operate (.runToEnd patience), e =>
    ∃ after, d.session.runToEnd? patience = some (after, .error e)
  | .reset, _ | .operate _, _ => False

section
variable {s : Session} {text : String} {p : Program} {start d : Debugger}

theorem Driven.keeps (hload : s.load text = (start.session, .ok p)) (h : start.Driven d) :
    start.session.Keeps d.session := by
  induction h with
  | start => exact .refl start.session
  | @act d a _ hdrives ih =>
    cases a with
    | press k =>
      show start.session.Keeps (d.press k).session
      rw [press_session]
      cases d.asks? k with
      | none => exact ih
      | some x => exact ih.trans (d.session.keeps_stride x)
    | reset =>
      -- a reset does not go on from `d`, it goes back to `start`
      show start.session.Keeps d.reset.session
      rw [reset_session, Session.reset_of_source hload ih.settings ih.source]
      exact .refl start.session
    | operate o =>
      cases o with
      | run budget => exact ih.trans (d.session.keeps_run budget)
      | runToEnd patience => exact ih.trans (d.session.keeps_runToEnd patience)
      | load | insert | reset | stride | execute | jump | write | setRegisters | setMemory =>
        exact hdrives.elim

end

/-! ## Errors that are reported -/

section
variable {d : Debugger} {k : Key} {x : Stride} {e : StepError}

theorem goesOn?_isDone {y : Stride} (h : d.goesOn? y = some x) (hidle : d.machine.phase = .idle) :
    d.machine.isDone = false := by
  rw [goesOn?, hidle, Option.ite_none_left_eq_some] at h
  exact Bool.eq_false_iff.2 h.1

theorem asks?_isDone (h : d.asks? k = some x) (hidle : d.machine.phase = .idle) :
    d.machine.isDone = false := by
  cases k with
  | step => exact goesOn?_isDone h hidle
  | halfStep => exact goesOn?_isDone h hidle
  | tick =>
    simp only [asks?, Option.ite_none_right_eq_some] at h
    exact goesOn?_isDone h.2 hidle
  | run | toggleBreakpoint => cases h

theorem goesOn?_eq_none_iff {y : Stride} :
    d.goesOn? y = none ↔ d.machine.phase = .idle ∧ d.machine.isDone = true := by
  rw [goesOn?]
  cases d.machine.phase with
  | idle => simp
  | firstPhaseDone => simp

/-- A key that asks nothing of the session shows no error, except that a tick may do nothing. -/
theorem press_of_asks?_eq_none (hk : k = .tick → d.running = true) (h : d.asks? k = none) :
    (d.press k).status ≠ .failed e := by
  cases k with
  | step =>
    obtain ⟨hidle, hdone⟩ := goesOn?_eq_none_iff.1 h
    simp [press, step, hidle, hdone, halt]
  | halfStep =>
    obtain ⟨hidle, hdone⟩ := goesOn?_eq_none_iff.1 h
    simp [press, halfStep, hidle, hdone, report]
  | run => simp [press, run]
  | toggleBreakpoint =>
    cases hat : d.atBreakpoint with
    | true => simp [press, toggleBreakpoint, hat]
    | false => simp [press, toggleBreakpoint, hat]
  | tick =>
    have hrunning := hk rfl
    cases hstops : d.stopsHere with
    | true =>
      obtain ⟨status, htick, hstatus⟩ := tick_of_stops hrunning hstops
      rw [press, htick]
      exact hstatus e
    | false =>
      -- a tick that goes on finds the program not done
      rw [asks?, hrunning, hstops] at h
      obtain ⟨-, hdone⟩ := goesOn?_eq_none_iff.1 h
      rw [stopsHere, hdone] at hstops
      cases hstops

/-- An error that a key shows is that of the stride it has asked for, and nothing has changed. -/
theorem stride_of_press_failed (hk : k = .tick → d.running = true)
    (h : (d.press k).status = .failed e) :
    ∃ x, d.asks? k = some x ∧ d.session.stride x = .error e ∧ (d.press k).machine = d.machine := by
  have hfollows := d.press_follows k
  cases hasks : d.asks? k with
  | none => exact absurd h (press_of_asks?_eq_none hk hasks)
  | some x =>
    rw [hasks] at hfollows
    generalize d.press k = next at hfollows h ⊢
    cases hfollows with
    | ok _ hstatus => exact absurd h (hstatus e)
    | error hstride =>
      cases h
      exact ⟨x, rfl, hstride, rfl⟩

theorem operandFails_of_reports {a : Action} (hconfined : d.machine.Confined) (hdrives : d.Drives a)
    (h : d.Reports a e) : (d.act a).machine.OperandFails e := by
  cases a with
  | reset => exact h.elim
  | press k =>
    obtain ⟨x, hasks, hstride, hmachine⟩ := stride_of_press_failed h.1 h.2
    show (d.press k).machine.OperandFails e
    rw [hmachine]
    exact Session.operandFails_of_stride hconfined (asks?_phase hasks) (asks?_isDone hasks) hstride
  | operate o =>
    cases o with
    | run budget => exact Session.operandFails_of_run hconfined hdrives h
    | runToEnd patience =>
      obtain ⟨after, hends⟩ := h
      have hrun := (Session.runToEnd?_eq_some hends).1
      have herror : (d.session.run patience).2 = .error e := by rw [← hrun]
      have hafter : (d.act (.operate (.runToEnd patience))).session = (d.session.run patience).1 := by
        show d.session.perform (.runToEnd patience) = _
        rw [Session.perform, hends, ← hrun]
      rw [machine, hafter]
      exact Session.operandFails_of_run hconfined hdrives herror
    | load | insert | reset | stride | execute | jump | write | setRegisters | setMemory =>
      exact h.elim

end

/-! ## Bounds and errors -/

/-- **A loaded program never fetches outside memory.** Wherever driving it leads, the program
counter is an address of twelve bits, memory has the size that the settings ask for, and the last
address of the program is inside. An error that is reported is that of the instruction at the
program counter, whose operand is outside memory; with memory of full size there is none. -/
theorem loaded_programs_fetch_inside {s : Session} {text : String} {p : Program}
    {start d : Debugger} (hload : s.load text = (start.session, .ok p)) (hdriven : start.Driven d) :
    d.machine.pc.toNat < 4096 ∧ d.session.settings = s.settings ∧
      d.machine.memory.size = s.settings.memorySize.toNat ∧
      (∀ a, d.machine.lastAddress = some a → a.toNat < s.settings.memorySize.toNat) ∧
      (∀ a e, d.Drives a → d.Reports a e → (d.act a).machine.OperandFails e) ∧
      (s.settings.memorySize.toNat = fullSize → ∀ a e, d.Drives a → ¬d.Reports a e) := by
  obtain ⟨hsettings, hsize, hconfined⟩ := Session.confined_of_load hload
  have hkeeps := hdriven.keeps hload
  have hd : d.machine.Confined := hconfined.keeps hkeeps.machine
  have hdsize : d.machine.memory.size = s.settings.memorySize.toNat :=
    hkeeps.machine.size.trans hsize
  refine ⟨hd.pc_lt, hkeeps.settings.trans hsettings, hdsize, fun a ha => ?_,
    fun a e hdrives hreports => operandFails_of_reports hd hdrives hreports,
    fun hfull a e hdrives hreports => ?_⟩
  · rw [← hdsize]
    exact hd.last_lt a ha
  · have hlt := (operandFails_of_reports hd hdrives hreports).size_lt
    have hafter := ((hdriven.act hdrives).keeps hload).machine.size.trans hsize
    rw [machine, hafter, hfull] at hlt
    exact absurd hlt (by decide)

/-- A debugger of three words in a memory of four, of which the last one reaches outside. -/
def stumbling : Debugger := { session := Session.stumbling }

/-- The debugger before the last word. -/
def stumbled : Debugger := (stumbling.act (.press .step)).act (.operate (.run 1))

theorem loaded_programs_fetch_inside_of_stumbled :
    (∃ p, (Session.ofSettings { memorySize := 4 }).load "INC\nINC\nLDA 9" =
      (stumbling.session, .ok p)) ∧ stumbling.Driven stumbled ∧
      stumbled.machine.pc.toNat < 4096 ∧ stumbled.machine.memory.size = 4 ∧
      stumbled.Reports (.press .step) (.memory ⟨9, 4⟩) ∧
      (stumbled.act (.press .step)).machine.OperandFails (.memory ⟨9, 4⟩) := by
  have hload : (Session.ofSettings { memorySize := 4 }).load "INC\nINC\nLDA 9" =
      (stumbling.session, .ok { instructions := [.accu .inc, .accu .inc, .lda 9] }) := rfl
  have hdriven : stumbling.Driven stumbled := .act (.act .start trivial) rfl
  obtain ⟨hpc, -, hsize, -, herrors, -⟩ := loaded_programs_fetch_inside hload hdriven
  have hreports : stumbled.Reports (.press .step) (.memory ⟨9, 4⟩) := ⟨by simp, rfl⟩
  exact ⟨⟨_, hload⟩, hdriven, hpc, hsize, hreports, herrors _ _ trivial hreports⟩

end AccumulatorMachine.Debugger
