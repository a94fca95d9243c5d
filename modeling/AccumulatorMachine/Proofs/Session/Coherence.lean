import AccumulatorMachine.Proofs.Session.History

/-! # Phase and instruction

The phase of a machine and the instruction that it holds are two fields, and both halves of a cycle
write one after the other, so that in between they do not agree. Between operations they do
(`Machine.Coherent`): each operation in place, whether it succeeds or fails, leaves a coherent
machine coherent, and so does a run of them; a change of what is open to everyone does not touch the
two. A fresh machine is coherent, and so is every one that a history leaves
(`Session.coherent_after`).
-/

namespace AccumulatorMachine
set_option autoImplicit false

namespace Machine

/-- The machine is half way through a cycle exactly if it holds an instruction. -/
def Coherent (m : Machine) : Prop := m.phase = .firstPhaseDone ↔ m.loaded?.isSome

theorem Coherent.loaded?_of_idle {m : Machine} (h : m.Coherent) (hidle : m.phase = .idle) :
    m.loaded? = none := by
  rw [Coherent, hidle] at h
  cases hloaded : m.loaded? with
  | none => rfl
  | some i =>
    rw [hloaded] at h
    cases h.2 rfl

/-! ## What the operations come to -/

theorem coherent_fresh (memory : Memory) (lastAddress : Option Word) :
    Coherent { memory, lastAddress } := by
  constructor
  · intro h
    cases h
  · intro h
    cases h

theorem Coherent.effect {m : Machine} (h : m.Coherent) (i : Instruction) :
    (m.effect i).Coherent := by
  rw [Coherent, effect_phase, effect_loaded?]
  exact h

theorem coherent_held (m : Machine) : m.held.Coherent := iff_of_true rfl rfl

theorem coherent_retired (m : Machine) : m.retired.Coherent := by
  constructor
  · intro h
    cases h
  · intro h
    cases h

end Machine

/-! ## Operations in place -/

namespace InPlace

variable {m : Machine}

theorem coherent_left {ε α : Type} {x : InPlace ε α} {e? : Option ε} {a : α} {done : Machine}
    (h : m.Coherent) (hx : x m = settled m e? a done) (hdone : done.Coherent) :
    (left x m).Coherent := by
  rw [left, hx]
  cases e? with
  | none => exact hdone
  | some e => exact h

theorem coherent_execute (h : m.Coherent) (i : Instruction) : (left (execute i) m).Coherent :=
  coherent_left h (execute_eq m i) (h.effect i.reduced)

theorem coherent_firstHalf (h : m.Coherent) : (left firstHalf m).Coherent :=
  coherent_left h (firstHalf_eq m) m.coherent_held

theorem coherent_secondHalf (h : m.Coherent) : (left secondHalf m).Coherent :=
  coherent_left h (secondHalf_eq m) m.coherent_retired

theorem coherent_step (h : m.Coherent) : (left step m).Coherent :=
  coherent_left h (step_eq m) m.held.coherent_retired

theorem coherent_stride (h : m.Coherent) (x : Stride) : (left x.inPlace m).Coherent := by
  cases x with
  | firstHalf =>
    rw [Stride.inPlace, left_discard]
    exact coherent_firstHalf h
  | secondHalf => exact coherent_secondHalf h
  | whole =>
    rw [Stride.inPlace, left_discard]
    exact coherent_step h

theorem coherent_load (h : m.Coherent) (source : String) : (left (load source) m).Coherent := by
  rw [left, load_eq]
  cases Program.assemble source m.memory.size with
  | ok p => exact h
  | error e => exact h

end InPlace

/-! ## Runs -/

namespace Machine

/-- Cycle by cycle, also by the one that fails. -/
theorem Coherent.advance {m : Machine} (h : m.Coherent) (budget count : Nat) :
    (advance budget count m).machine.Coherent := by
  induction budget generalizing count m with
  | zero => exact h
  | succ budget ih =>
    have hstep := InPlace.coherent_step h
    rw [InPlace.left] at hstep
    rw [Machine.advance]
    cases m.isDone with
    | true => exact h
    | false =>
      cases hs : InPlace.step m with
      | ok i after =>
        rw [hs] at hstep
        exact ih hstep (count + 1)
      | error e after =>
        rw [hs] at hstep
        exact hstep

theorem Coherent.run {m : Machine} (h : m.Coherent) (budget : Nat) :
    (m.run budget).machine.Coherent := by
  rw [run_eq_watched]
  exact h.advance budget 0

end Machine

/-! ## Histories -/

namespace Session

variable {s : Session}

theorem coherent_perform (h : s.machine.Coherent) (o : Operation) :
    (s.perform o).machine.Coherent := by
  cases o with
  | load text =>
    obtain ⟨memory, last, hload⟩ := s.machine_load text
    rw [perform, hload]
    exact Machine.coherent_fresh memory last
  | reset =>
    obtain ⟨memory, last, hreset⟩ := s.machine_reset
    rw [perform, hreset]
    exact Machine.coherent_fresh memory last
  | insert text => exact InPlace.coherent_load h text
  | stride x => exact InPlace.coherent_stride h x
  | run budget => exact h.run budget
  | runToEnd patience =>
    obtain hsame | hrun := s.perform_runToEnd patience
    · rw [hsame]
      exact h
    · rw [hrun]
      exact h.run patience
  | execute i => exact InPlace.coherent_execute h i
  | write address w =>
    rw [perform]
    cases s.machine.memory.write address w with
    | ok memory => exact h
    | error e => exact h
  | jump | setRegisters | setMemory => exact h

theorem coherent_after (h : s.machine.Coherent) (history : List Operation) :
    (s.after history).machine.Coherent := by
  induction history with
  | nil => exact h
  | cons o earlier ih => exact coherent_perform ih o

end Session
end AccumulatorMachine
