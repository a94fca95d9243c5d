import AccumulatorMachine.Proofs.Debugger.Trace
import AccumulatorMachine.Proofs.Session.BranchMark

/-! # The instruction on display

A debugger shows an instruction and its control lines (`Debugger.Displays`). Before a cycle this is
the instruction at the program counter, and from the first half on it is the one that the machine
holds, though the instruction may have overwritten its own cell or moved the program counter. It
stays while the cycle is not retired (`Debugger.Ongoing`), whatever else is done. A debugger looks
only at what the machine holds, and not at the phase. That a machine at rest holds nothing is an
invariant of all debuggers that come about (`Debugger.Reached`).
-/

namespace AccumulatorMachine
set_option autoImplicit false

/-! ## What is held -/

/-- The instruction that is held after this half of a cycle. -/
def Half.held? : Half → Option Instruction
  | executed _ i _ => some i
  | retired => none

namespace Machine

/-- The machine holds what the last half has executed, unless that has been retired. -/
def Loads (done : List Half) (m : Machine) : Prop := m.loaded? = done.getLast?.bind Half.held?

theorem enduring_loads : Enduring Loads where
  fresh _ _ := rfl
  edited _ _ _ h := h
  held _ _ := by simp [Loads, Half.held?, held]
  retired _ _ := by simp [Loads, Half.held?, retired]
  watched _ _ h := h

theorem Loads.execute {done : List Half} {m after : Machine} {i : Instruction} (h : m.Loads done)
    (hi : m.execute i = .ok after) : after.Loads done := by
  obtain ⟨-, rfl⟩ := execute_eq_ok_iff.1 hi
  rw [Loads, effect_loaded?]
  exact h

end Machine

theorem Session.loads_after {s : Session} (h : s.machine.Loads []) (history : List Operation) :
    (s.after history).machine.Loads (s.trace history) := by
  induction history with
  | nil => exact h
  | cons o earlier ih =>
    apply endures_perform Machine.enduring_loads ih
    intro i m _ hi
    exact ih.execute hi

/-! ## The display -/

/-- The values of all control lines for a kind, in the order of the lines. -/
def Kind.values (k : Kind) : List Bool := (List.range 12).map k.controlWord.getMsbD

namespace Debugger

/-- The debugger shows the instruction `i` and its control lines by name. -/
structure Displays (d : Debugger) (i : Instruction) : Prop where
  current : d.current? = some i
  signals : d.signals.map (fun r => (r.1.name, r.2)) =
    (Signal.all.map Signal.name).zip i.kind.values

variable {d : Debugger} {i : Instruction}

theorem displays_of_current (h : d.current? = some i) : d.Displays i := by
  refine ⟨h, ?_⟩
  simp only [signals, h]
  rfl

theorem displays_of_loaded (h : d.machine.loaded? = some i) : d.Displays i := by
  apply displays_of_current
  rw [current?, h]
  rfl

theorem current?_of_idle (hcoherent : d.machine.Coherent) (h : d.machine.phase = .idle) :
    d.current? =
      if d.machine.pc.toNat < d.machine.memory.size then some d.machine.current else none := by
  rw [current?, hcoherent.loaded?_of_idle h, Machine.fetch, Memory.read_word]
  by_cases hpc : d.machine.pc.toNat < d.machine.memory.size
  · rw [if_pos hpc, if_pos hpc]
    rfl
  · rw [if_neg hpc, if_neg hpc]
    rfl

/-! ## While a cycle goes on -/

/-- The action retires an instruction or gives a fresh machine. -/
def Settles (d : Debugger) (a : Action) : Prop :=
  ∃ o, d.request? a = some o ∧ d.session.Settles o

/-- What may have become of a debugger while nothing has been retired. -/
inductive Ongoing (start : Debugger) : Debugger → Prop
  | start : Ongoing start start
  | act {d : Debugger} {a : Action} : Ongoing start d → ¬d.Settles a → Ongoing start (d.act a)
  /-- Of the machine, what is open to everyone has been changed, and of the debugger anything but
  its session. -/
  | edit {d next : Debugger} (registers : Registers) (memory : Memory) (lastAddress : Option Word)
      (metrics : Metrics) : Ongoing start d →
      next.session =
        d.session.withMachine { d.machine with registers, memory, lastAddress, metrics } →
      Ongoing start next

end Debugger

/-- What settles nothing leaves the machine half way, with the instruction that it holds. -/
theorem Session.held_perform_of_not_settles {s : Session} {o : Operation}
    (hphase : s.machine.phase = .firstPhaseDone) (h : ¬s.Settles o) :
    (s.perform o).machine.phase = .firstPhaseDone ∧
      (s.perform o).machine.loaded? = s.machine.loaded? := by
  rw [Settles, not_or] at h
  have hdoes := s.perform_does o
  generalize (s.perform o).machine = after at hdoes ⊢
  cases hdoes with
  | renew _ _ hrenews => exact absurd hrenews h.1
  | edit => exact ⟨hphase, rfl⟩
  | execute hm =>
    obtain ⟨-, rfl⟩ := Machine.execute_eq_ok_iff.1 hm
    rw [Machine.effect_phase, Machine.effect_loaded?]
    exact ⟨hphase, rfl⟩
  | @stride x _ hx =>
    have hstride := Machine.phase_of_stride hx
    have hok := stride_eq_ok_iff.2 ⟨_, hx, rfl⟩
    rw [hphase] at hstride
    cases x with
    -- these begin at rest, and the machine is half way
    | firstHalf | whole => cases hstride
    | secondHalf => simp [count, hok, Stride.ends, Except.isOk, Except.toBool] at h
  | @cycles _ n m _ _ hrenews hcount _ hsteps =>
    -- each cycle would have retired an instruction
    have hn : n = 0 := by
      rw [hcount] at h
      omega
    subst hn
    cases hsteps
    exact ⟨hphase, rfl⟩

namespace Debugger

theorem Ongoing.held {d e : Debugger} (h : d.Ongoing e)
    (hphase : d.machine.phase = .firstPhaseDone) :
    e.machine.phase = .firstPhaseDone ∧ e.machine.loaded? = d.machine.loaded? := by
  induction h with
  | start => exact ⟨hphase, rfl⟩
  | @act e a _ ha ih =>
    rw [← ih.2, machine, session_act]
    cases hr : e.request? a with
    | none => exact ⟨ih.1, rfl⟩
    | some o =>
      apply Session.held_perform_of_not_settles ih.1
      intro ho
      exact ha ⟨o, hr, ho⟩
  | edit _ _ _ _ _ hsession ih =>
    rw [machine, hsession]
    exact ih

theorem displays_of_ongoing {d e : Debugger} {i : Instruction} (h : d.Ongoing e)
    (hphase : d.machine.phase = .firstPhaseDone) (hloaded : d.machine.loaded? = some i) :
    e.Displays i := by
  apply displays_of_loaded
  rw [(h.held hphase).2, hloaded]

/-! ## The debuggers that come about -/

/-- What a debugger may have become, whatever its settings were and whatever has been done. -/
inductive Reached : Debugger → Prop
  | start {d : Debugger} (settings : Settings) : d.session = .ofSettings settings → Reached d
  | act {d : Debugger} (a : Action) : Reached d → Reached (d.act a)
  /-- Of the machine, what is open to everyone has been changed, and of the debugger anything but
  its session. -/
  | edit {d next : Debugger} (registers : Registers) (memory : Memory) (lastAddress : Option Word)
      (metrics : Metrics) : Reached d →
      next.session =
        d.session.withMachine { d.machine with registers, memory, lastAddress, metrics } →
      Reached next
  /-- The machine of another debugger has been put in place of its own. -/
  | exchange {d other next : Debugger} : Reached d → Reached other →
      next.session = d.session.withMachine other.machine → Reached next

theorem Reached.after {d : Debugger} (h : d.Reached) (history : List Action) :
    (d.after history).Reached := by
  induction history with
  | nil => exact h
  | cons a earlier ih => exact .act a ih

theorem Reached.coherent {d : Debugger} (h : d.Reached) : d.machine.Coherent := by
  induction h with
  | start _ hsession =>
    rw [machine, hsession]
    exact Machine.coherent_fresh _ _
  | act a _ ih => exact coherent_act ih a
  | edit _ _ _ _ _ hsession ih =>
    rw [machine, hsession]
    exact ih
  | exchange _ _ hsession _ ih =>
    rw [machine, hsession]
    exact ih

/-- **The instruction on display is the one that the machine executes.** After any history a debugger
is half way through a cycle exactly if its machine holds an instruction, and this is the one that the
last half has executed. The same holds of whatever debugger comes about, also by changes from
outside, and there an instruction that the first half of a cycle executes is on display before, and
from then on until it is retired, with the lines of its kind. At rest there is nothing on display
exactly if the program counter is outside memory. -/
theorem displayed_is_executed :
    (∀ (start : Debugger) (settings : Settings) (history : List Action),
      start.session = .ofSettings settings →
      let m := (start.after history).machine
      (m.phase = .firstPhaseDone ↔ m.loaded?.isSome) ∧
      m.loaded? = (start.trace history).getLast?.bind Half.held?) ∧
    ∀ d : Debugger, d.Reached →
      (d.machine.phase = .firstPhaseDone ↔ d.machine.loaded?.isSome) ∧
      (∀ i session, d.session.firstHalf = .ok (i, session) →
        d.machine.phase = .idle ∧ d.Displays i ∧
        ∀ e, Ongoing { d with session } e → e.Displays i) ∧
      (d.machine.phase = .idle →
        (d.current? = none ↔ d.machine.memory.size ≤ d.machine.pc.toNat)) := by
  constructor
  · intro start settings history hstart m
    have hcoherent := Session.coherent_after (Reached.start settings hstart).coherent
      (start.requests history)
    have hloads := Session.loads_after (s := start.session) (by rw [hstart]; rfl)
      (start.requests history)
    rw [← session_after] at hcoherent hloads
    exact ⟨hcoherent, hloads⟩
  · intro d hd
    refine ⟨hd.coherent, ?_, ?_⟩
    · intro i session h
      obtain ⟨m, hm, rfl⟩ := Session.firstHalf_eq_ok_iff.1 h
      obtain ⟨hnone, rfl, rfl⟩ := Machine.firstHalf_eq_ok_iff.1 hm
      obtain ⟨hidle, hpc, -⟩ := Machine.cycleError?_eq_none_iff.1 hnone
      refine ⟨hidle, ?_, ?_⟩
      · apply displays_of_current
        exact (current?_of_idle hd.coherent hidle).trans (if_pos hpc)
      · intro e he
        exact displays_of_ongoing he rfl rfl
    · intro hidle
      rw [current?_of_idle hd.coherent hidle]
      simp

/-- About to store another word in the cell of the instruction itself. -/
def selfStoring : Debugger :=
  empty.after [.operate (.setRegisters { accumulator := 5 }), .operate (.load "STO 0")]

/-- About to branch. -/
def branching : Debugger := empty.after [.operate (.load "BRZ 2")]

theorem displayed_is_executed_of_selfStoring :
    (∃ session, selfStoring.Reached ∧ selfStoring.session.firstHalf = .ok (.sto 0, session) ∧
      session.machine.current = .sto 5 ∧ selfStoring.Displays (.sto 0) ∧
      (({ selfStoring with session } : Debugger).act (.press .toggleBreakpoint)).Displays (.sto 0)) ∧
    ∃ session, branching.Reached ∧ branching.session.firstHalf = .ok (.brz 2, session) ∧
      session.machine.pc = 2 ∧ branching.Displays (.brz 2) ∧
      (({ branching with session } : Debugger).act (.operate (.execute (.accu .inc)))).Displays
        (.brz 2) := by
  have hempty : empty.Reached := .start { memorySize := 4 } rfl
  constructor
  · have hreached : selfStoring.Reached := hempty.after _
    have hfirst : selfStoring.session.firstHalf =
        .ok (.sto 0, selfStoring.session.withMachine selfStoring.machine.held) := rfl
    obtain ⟨-, hbefore, hafter⟩ := (displayed_is_executed.2 selfStoring hreached).2.1 _ _ hfirst
    refine ⟨_, hreached, hfirst, by decide +kernel, hbefore, ?_⟩
    apply hafter
    apply Ongoing.act .start
    rintro ⟨o, ho, -⟩
    cases ho
  · have hreached : branching.Reached := hempty.after _
    have hfirst : branching.session.firstHalf =
        .ok (.brz 2, branching.session.withMachine branching.machine.held) := rfl
    obtain ⟨-, hbefore, hafter⟩ := (displayed_is_executed.2 branching hreached).2.1 _ _ hfirst
    refine ⟨_, hreached, hfirst, by decide +kernel, hbefore, ?_⟩
    apply hafter
    apply Ongoing.act .start
    rintro ⟨o, ho, hsettles⟩
    cases ho
    simp [Session.Settles, Session.Operation.renews, Session.count] at hsettles

end Debugger
end AccumulatorMachine
