import AccumulatorMachine.Proofs.Machine.Snapshot
import AccumulatorMachine.Proofs.Session.Trace

/-! # The last execution

The snapshot of a machine shows its last execution, if it has had one since it was a fresh machine
(`Session.lastExecution?`). Executions are the first halves of cycles that succeed and the
instructions that are executed outside any cycle. Nothing else writes a snapshot: neither second
halves, nor what fails, nor what is changed from outside.
-/

namespace AccumulatorMachine
set_option autoImplicit false

namespace Machine

/-! ## Along the chain of halves -/

/-- The last execution after the next `n` halves of cycles, as far as they succeed. -/
def lastExecution? (earlier : Option Execution) : Nat → Machine → Option Execution
  | 0, _ => earlier
  | n + 1, m =>
    match m.phase with
    | .idle =>
      match m.firstHalf with
      | .ok (i, after) => lastExecution? (some ⟨i, m, after⟩) n after
      | .error _ => earlier
    | .firstPhaseDone =>
      match m.secondHalf with
      | .ok after => lastExecution? earlier n after
      | .error _ => earlier

theorem lastExecution?_of_idle {m : Machine} (h : m.cycleError? = none) (earlier : Option Execution)
    (n : Nat) :
    lastExecution? earlier (n + 1) m = lastExecution? (some ⟨m.current, m, m.held⟩) n m.held := by
  have hidle := (cycleError?_eq_none_iff.1 h).1
  have hfirst : m.firstHalf = .ok (m.current, m.held) := firstHalf_eq_ok_iff.2 ⟨h, rfl, rfl⟩
  rw [lastExecution?, hidle, hfirst]

theorem lastExecution?_of_executed {m : Machine} (h : m.phase = .firstPhaseDone)
    (earlier : Option Execution) (n : Nat) :
    lastExecution? earlier (n + 1) m = lastExecution? earlier n m.retired := by
  have hsecond : m.secondHalf = .ok m.retired := secondHalf_eq_ok_iff.2 ⟨h, rfl⟩
  rw [lastExecution?, h, hsecond]

/-- The snapshot of `m` shows the execution `last?`, which has come about in a first half or else
as `Outside` says. -/
structure Shows (Outside : Execution → Prop) (last? : Option Execution) (m : Machine) : Prop where
  snapshot : m.snapshot = (last?.map Execution.snapshot).getD {}
  origin : ∀ e, last? = some e → e.OfFirstHalf ∨ Outside e

variable {Outside : Execution → Prop} {last? : Option Execution} {m after : Machine}

theorem Shows.mono {Outside' : Execution → Prop} (h : m.Shows Outside last?)
    (himp : ∀ e, Outside e → Outside' e) : m.Shows Outside' last? := by
  refine ⟨h.snapshot, fun e he => ?_⟩
  obtain hfirst | houtside := h.origin e he
  · exact .inl hfirst
  · exact .inr (himp e houtside)

theorem shows_held (h : m.cycleError? = none) :
    m.held.Shows Outside (some ⟨m.current, m, m.held⟩) := by
  have hfirst : m.firstHalf = .ok (m.current, m.held) := firstHalf_eq_ok_iff.2 ⟨h, rfl, rfl⟩
  refine ⟨snapshot_of_firstHalf hfirst, ?_⟩
  intro e he
  cases he
  exact .inl hfirst

theorem Shows.halves (h : m.Shows Outside last?) {n : Nat} (hn : m.halves n = .ok after) :
    after.Shows Outside (lastExecution? last? n m) := by
  induction n generalizing m last? with
  | zero =>
    cases hn
    exact h
  | succ n ih =>
    have hnext : ∃ mid, m.half = .ok mid ∧ mid.halves n = .ok after := bind_eq_ok_iff.1 hn
    obtain ⟨mid, hhalf, hrest⟩ := hnext
    -- a first half replaces what is shown, and a second one leaves it
    obtain ⟨hnone, rfl⟩ | ⟨hphase, rfl⟩ := half_eq_ok hhalf
    · rw [lastExecution?_of_idle hnone]
      exact ih (shows_held hnone) hrest
    · rw [lastExecution?_of_executed hphase]
      exact ih ⟨h.snapshot, h.origin⟩ hrest

end Machine

/-! ## In a history -/

namespace Session

/-- The last execution after an operation, when it was `last?` before. -/
def recorded (s : Session) (last? : Option Execution) (o : Operation) : Option Execution :=
  match o with
  | .execute i =>
    match s.machine.execute i with
    | .ok after => some ⟨i, s.machine, after⟩
    | .error _ => last?
  | _ =>
    if o.renews then none
    else s.machine.lastExecution? last? (s.count Stride.begins o + s.count Stride.ends o)

/-- The last execution of a history since the machine was last a fresh one. -/
def lastExecution? (s : Session) : List Operation → Option Execution
  | [] => none
  | o :: earlier => (s.after earlier).recorded (s.lastExecution? earlier) o

section
variable {s : Session} {o : Operation} {last? : Option Execution}

theorem recorded_of_renews (h : o.renews = true) : s.recorded last? o = none := by
  cases o with
  | load | reset => rfl
  | _ => cases h

theorem recorded_of_execute {i : Instruction} {m : Machine} (h : s.machine.execute i = .ok m) :
    s.recorded last? (.execute i) = some ⟨i, s.machine, m⟩ := by
  simp only [recorded, h]

theorem recorded_of_cycles {n : Nat} (hrenews : o.renews = false)
    (hexecute : ∀ i, o ≠ .execute i) (h : ∀ part, s.count part o = n) :
    s.recorded last? o = s.machine.lastExecution? last? (2 * n) := by
  rw [recorded, hrenews, h, h, ← Nat.two_mul]
  · simp
  · exact hexecute

theorem recorded_of_nothing (hrenews : o.renews = false) (h : ∀ part, s.count part o = 0)
    (hexecute : ∀ i m, o = .execute i → s.machine.execute i ≠ .ok m) :
    s.recorded last? o = last? := by
  by_cases ho : ∃ i, o = .execute i
  · obtain ⟨i, rfl⟩ := ho
    rw [recorded]
    cases hi : s.machine.execute i with
    | error e => rfl
    | ok m => exact absurd hi (hexecute i m rfl)
  · rw [recorded_of_cycles hrenews (not_exists.1 ho) h]
    rfl

theorem recorded_of_stride {x : Stride} {m : Machine} (h : s.machine.stride x = .ok m) :
    s.recorded last? (.stride x) = s.machine.lastExecution? last? x.length := by
  have hok := stride_eq_ok_iff.2 ⟨m, h, rfl⟩
  rw [recorded, count, count, hok]
  · cases x with
    | firstHalf | secondHalf | whole => rfl
  · simp

end

/-- Executed outside any cycle by an operation of the history. -/
def ByOperation (history : List Operation) (e : Execution) : Prop :=
  e.OutsideCycle ∧ .execute e.instruction ∈ history

theorem shows_perform {s : Session} {history : List Operation} {last? : Option Execution}
    (h : s.machine.Shows (ByOperation history) last?) (o : Operation) :
    (s.perform o).machine.Shows (ByOperation (o :: history)) (s.recorded last? o) := by
  have hearlier : s.machine.Shows (ByOperation (o :: history)) last? :=
    h.mono fun e he => ⟨he.1, List.mem_cons_of_mem _ he.2⟩
  have hdoes := s.perform_does o
  generalize (s.perform o).machine = after at hdoes ⊢
  cases hdoes with
  | renew _ _ hrenews =>
    rw [recorded_of_renews hrenews]
    exact ⟨rfl, fun e he => by cases he⟩
  | edit _ _ _ hrenews hcount hexecute =>
    -- the snapshot is not open to changes from outside
    rw [recorded_of_nothing hrenews hcount hexecute]
    exact ⟨hearlier.snapshot, hearlier.origin⟩
  | @execute i m hm =>
    rw [recorded_of_execute hm]
    refine ⟨Machine.snapshot_of_execute hm, ?_⟩
    intro e he
    cases he
    exact .inr ⟨hm, List.mem_cons_self ..⟩
  | @stride x m hx =>
    rw [recorded_of_stride hx]
    exact hearlier.halves (Machine.halves_of_stride hx)
  | cycles _ _ hrenews hcount hexecute hsteps =>
    rw [recorded_of_cycles hrenews hexecute hcount]
    have hafter := hearlier.halves (Machine.halves_of_steps hsteps)
    exact ⟨hafter.snapshot, hafter.origin⟩

theorem shows_after (settings : Settings) (history : List Operation) :
    ((ofSettings settings).after history).machine.Shows (ByOperation history)
      ((ofSettings settings).lastExecution? history) := by
  induction history with
  | nil => exact ⟨rfl, fun e he => by cases he⟩
  | cons o earlier ih => exact shows_perform ih o

/-- **A snapshot describes the last execution.** An instruction that is executed leaves the snapshot
that `Execution.snapshot` describes, in which a word of memory is shown exactly if the instruction
reaches into memory, and the snapshot before makes no difference to the machine after. The first half
of a cycle leaves that of its instruction. What fails leaves the snapshot as it was, and so does a
second half. So the snapshot after any history is that of its last execution, which is a first half
unless the history has executed it outside any cycle; where there has been none it is empty. -/
theorem snapshot_describes_last_execution :
    (∀ (m : Machine) (i : Instruction) (after : Machine), m.execute i = .ok after →
      after.snapshot = Execution.snapshot ⟨i, m, after⟩ ∧
      (after.snapshot.memoryValue.isSome ↔ i.kind ∈ Kind.reaching)) ∧
    (∀ (m : Machine) (i : Instruction) (after : Machine), m.firstHalf = .ok (i, after) →
      after.snapshot = Execution.snapshot ⟨i, m, after⟩) ∧
    (∀ (m : Machine) (snapshot : Snapshot),
      (∀ i, ({ m with snapshot } : Machine).execute i = m.execute i) ∧
      ({ m with snapshot } : Machine).firstHalf = m.firstHalf) ∧
    (∀ m after : Machine,
      (∀ i e, InPlace.execute i m = .error e after → after.snapshot = m.snapshot) ∧
      (∀ e, InPlace.firstHalf m = .error e after → after.snapshot = m.snapshot) ∧
      (∀ e, InPlace.secondHalf m = .error e after → after.snapshot = m.snapshot) ∧
      (InPlace.secondHalf m = .ok () after → after.snapshot = m.snapshot)) ∧
    ∀ (settings : Settings) (history : List Operation),
      let last? := (ofSettings settings).lastExecution? history
      ((ofSettings settings).after history).machine.snapshot =
        (last?.map Execution.snapshot).getD {} ∧
      ∀ e, last? = some e → e.OfFirstHalf ∨ e.OutsideCycle ∧ .execute e.instruction ∈ history := by
  refine ⟨?_, ?_, ?_, ?_, ?_⟩
  · intro m i after h
    have hsnapshot := Machine.snapshot_of_execute h
    refine ⟨hsnapshot, ?_⟩
    obtain ⟨hnone, rfl⟩ := Machine.execute_eq_ok_iff.1 h
    rw [hsnapshot]
    exact Machine.isSome_memoryValue hnone
  · intro m i after h
    exact Machine.snapshot_of_firstHalf h
  · intro m snapshot
    exact ⟨m.execute_withSnapshot snapshot, m.firstHalf_withSnapshot snapshot⟩
  · intro m after
    refine ⟨?_, ?_, ?_, ?_⟩
    · intro i e h
      rw [(InPlace.execute_eq_error_iff.1 h).2]
    · intro e h
      rw [(InPlace.firstHalf_eq_error_iff.1 h).2]
    · intro e h
      rw [(InPlace.secondHalf_eq_error_iff.1 h).2]
    · intro h
      rw [InPlace.secondHalf_eq, InPlace.settled_eq_ok_iff] at h
      rw [h.2.2]
      rfl
  · intro settings history
    have hshows := shows_after settings history
    exact ⟨hshows.snapshot, hshows.origin⟩

/-- A word is loaded and a branch is executed that is not taken; what follows fails. -/
def passedBranch : List Operation :=
  [.execute (.lda 7), .stride .firstHalf, .stride .firstHalf, .stride .whole,
    .load "LDA 2\nBRZ 0\n:2:5"]

/-- A store whose operand has a bit too many, and a branch after a load. -/
theorem snapshot_describes_last_execution_of_passedBranch :
    (∃ after, (Machine.blank 4).execute (.sto 4099) = .ok after ∧
      after.snapshot = { instruction := Instruction.sto 3, memoryValue := some 0 }) ∧
    ((ofSettings { memorySize := 4 }).after passedBranch).machine.snapshot =
      { instruction := Instruction.brz 0, branchTaken := some false } := by
  obtain ⟨hexecute, -, -, -, hhistory⟩ := snapshot_describes_last_execution
  constructor
  · have hdone : (Machine.blank 4).execute (.sto 4099) = .ok ((Machine.blank 4).effect (.sto 3)) :=
      rfl
    refine ⟨_, hdone, ?_⟩
    rw [(hexecute _ _ _ hdone).1]
    decide
  · rw [(hhistory { memorySize := 4 } passedBranch).1]
    decide +kernel

end Session
end AccumulatorMachine
