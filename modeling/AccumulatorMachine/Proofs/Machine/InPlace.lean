import AccumulatorMachine.Proofs.Machine.Effect

/-! # Operations that settle

Every operation of the machine either comes to the machine that is described for it or fails and
leaves the machine as it was (`InPlace.settled`), though it works in place. The spec lemma of each
operation says so and names the error, and the operations seen from outside follow. To what drives a
machine this means that it may go by the operations as they are seen from outside
(`InPlace.Atomic`), since what a failed one leaves is no other machine.
-/

namespace AccumulatorMachine
set_option autoImplicit false

/-! ## Settling -/

namespace InPlace

/-- The machine of `done` after a success; after the error `e?` the machine `m` itself. -/
def settled {ε α : Type} (m : Machine) (e? : Option ε) (a : α) (done : Machine) :
    EStateM.Result ε Machine α :=
  match e? with
  | none => .ok a done
  | some e => .error e m

variable {ε ε' α β : Type}

theorem settled_eq_ok_iff {m done after : Machine} {e? : Option ε} {a b : α} :
    settled m e? a done = .ok b after ↔ e? = none ∧ b = a ∧ after = done := by
  cases e? with
  | none => simp [settled, eq_comm]
  | some e => simp [settled]

theorem settled_eq_error_iff {m done after : Machine} {e? : Option ε} {a : α} {e : ε} :
    settled m e? a done = .error e after ↔ e? = some e ∧ after = m := by
  cases e? with
  | none => simp [settled]
  | some e' => simp [settled, eq_comm]

theorem outcome_eq_ok_iff {x : InPlace ε α} {m done after : Machine} {e? : Option ε} {a b : α}
    (h : x m = settled m e? a done) :
    outcome x m = .ok (b, after) ↔ e? = none ∧ b = a ∧ after = done := by
  rw [outcome, h]
  cases e? with
  | none => simp [settled, eq_comm]
  | some e => simp [settled]

theorem outcome_eq_error_iff {x : InPlace ε α} {m done : Machine} {e? : Option ε} {a : α} {e : ε}
    (h : x m = settled m e? a done) : outcome x m = .error e ↔ e? = some e := by
  rw [outcome, h]
  cases e? with
  | none => simp [settled]
  | some e' => simp [settled]

/-- An operation that settles, followed by one that takes everything back if it fails, settles. -/
theorem bind_settled {x : InPlace ε α} {f : α → InPlace ε β} {m mid done : Machine}
    {e? e'? : Option ε} {a : α} {b : β} (hx : x m = settled m e? a mid)
    (hf : f a mid = settled m e'? b done) : (x >>= f) m = settled m (e?.or e'?) b done := by
  show EStateM.bind x f m = _
  rw [EStateM.bind, hx]
  cases e? with
  | none => exact hf
  | some e => rfl

theorem bind_settled_ok {x : InPlace ε α} {f : α → InPlace ε β} {m mid done : Machine}
    {e? : Option ε} {a : α} {b : β} (hx : x m = settled m e? a mid) (hf : f a mid = .ok b done) :
    (x >>= f) m = settled m e? b done := by
  have hf' : f a mid = settled m none b done := hf
  rw [bind_settled hx hf', Option.or_none]

theorem adaptExcept_settled {x : InPlace ε α} {m done : Machine} {e? : Option ε} {a : α}
    (h : x m = settled m e? a done) (f : ε → ε') :
    EStateM.adaptExcept f x m = settled m (e?.map f) a done := by
  cases e? with
  | none => simp only [EStateM.adaptExcept, h, settled, Option.map_none]
  | some e => simp only [EStateM.adaptExcept, h, settled, Option.map_some]

theorem discard_eq (x : InPlace ε α) : discard x = EStateM.map (fun _ => ()) x := rfl

theorem discard_settled {x : InPlace ε α} {m done : Machine} {e? : Option ε} {a : α}
    (h : x m = settled m e? a done) : discard x m = settled m e? () done := by
  rw [discard_eq, EStateM.map, h]
  cases e? with
  | none => rfl
  | some e => rfl

theorem left_discard (x : InPlace ε α) (m : Machine) : left (discard x) m = left x m := by
  rw [left, left, discard_eq, EStateM.map]
  cases x m with
  | ok a after => rfl
  | error e after => rfl

theorem readCell_eq (m : Machine) (a : Word) :
    readCell a m = settled m (m.faultAt? a) (m.memory.word a.toNat) m := by
  show ofExcept (m.memory.read a.toNat) m = _
  rw [Memory.read_word, Machine.faultAt?]
  by_cases h : a.toNat < m.memory.size
  · rw [if_pos h, if_pos h]
    rfl
  · rw [if_neg h, if_neg h]
    rfl

theorem writeCell_eq_ite (m : Machine) (a : Nat) (w : Word) :
    writeCell a w m =
      if a < m.memory.size then .ok () { m with memory := m.memory.put a w }
      else .error (m.memory.faultAt a) m := by
  show EStateM.bind (ofExcept (m.memory.write a w)) (fun memory => set { m with memory }) m = _
  rw [Memory.write_eq]
  by_cases h : a < m.memory.size
  · rw [if_pos h, if_pos h]
    rfl
  · rw [if_neg h, if_neg h]
    rfl

theorem writeCell_eq (m : Machine) (a w : Word) :
    writeCell a.toNat w m =
      settled m (m.faultAt? a) () { m with memory := m.memory.put a.toNat w } := by
  rw [writeCell_eq_ite, Memory.faultAt_word, Machine.faultAt?]
  by_cases h : a.toNat < m.memory.size
  · rw [if_pos h, if_pos h]
    rfl
  · rw [if_neg h, if_neg h]
    rfl

/-- An instruction in place comes to its effect or changes nothing: whatever can fail in it comes
before the first change. -/
theorem execute_eq (m : Machine) (i : Instruction) :
    execute i m = settled m (m.fault? i.reduced) () (m.effect i.reduced) := by
  show (carryOut i.reduced m.accumulator >>= fun s => modify ({ · with snapshot := s })) m = _
  generalize i.reduced = i
  cases i with
  | sto a => exact bind_settled_ok (bind_settled_ok (writeCell_eq m a m.accumulator) rfl) rfl
  | lda a => exact bind_settled_ok (bind_settled_ok (readCell_eq m a) rfl) rfl
  | alu op a => exact bind_settled_ok (bind_settled_ok (readCell_eq m a) rfl) rfl
  | brz a =>
    by_cases hz : m.accumulator == 0
    · simp only [carryOut, Machine.effect, hz, if_true]
      rfl
    · simp only [carryOut, Machine.effect, hz]
      rfl
  | accu op => rfl
  | nop => rfl

/-! ## The two halves -/

theorem fetch_eq (m : Machine) :
    ofExcept (m.fetch.mapError StepError.memory) m =
      settled m ((m.faultAt? m.pc).map .memory) m.current m := by
  rw [Machine.fetch, Memory.read_word, Machine.faultAt?]
  by_cases h : m.pc.toNat < m.memory.size
  · rw [if_pos h, if_pos h]
    rfl
  · rw [if_neg h, if_neg h]
    rfl

theorem expectPhase_eq (m : Machine) (expected : Phase) :
    expectPhase expected m = settled m (m.phaseError? expected) () m := by
  show (if m.phase ≠ expected then throw (StepError.sequence expected m.phase) else pure () :
    InPlace StepError Unit) m = _
  rw [Machine.phaseError?]
  by_cases h : m.phase = expected
  · rw [if_pos h, if_neg (not_not_intro h)]
    rfl
  · rw [if_neg h, if_pos h]
    rfl

theorem firstHalf_eq (m : Machine) : firstHalf m = settled m m.cycleError? m.current m.held := by
  have hexecute := adaptExcept_settled (execute_eq m m.current) StepError.memory
  rw [show m.current.reduced = m.current from Instruction.reduced_decode _] at hexecute
  rw [Machine.cycleError?, Machine.cycleFault?, Option.map_or]
  refine bind_settled (expectPhase_eq m .idle) ?_
  show (ofExcept (m.fetch.mapError StepError.memory) >>= _) m = _
  exact bind_settled (fetch_eq m) (bind_settled_ok hexecute rfl)

theorem secondHalf_eq (m : Machine) :
    secondHalf m = settled m (m.phaseError? .firstPhaseDone) () m.retired := by
  refine bind_settled_ok (expectPhase_eq m .firstPhaseDone) ?_
  -- the program counter moves on or not, and the rest is the same
  rcases m with ⟨_, _, _, _, _, _, _, branched⟩
  cases branched with
  | true => rfl
  | false => rfl

/-- The second half cannot fail after the first, so that a whole cycle fails only in the first. -/
theorem step_eq (m : Machine) : step m = settled m m.cycleError? m.current m.held.retired := by
  refine bind_settled_ok (firstHalf_eq m) ?_
  have hphase : m.held.phaseError? .firstPhaseDone = none := if_pos rfl
  have hsecond := secondHalf_eq m.held
  rw [hphase] at hsecond
  show _ = settled m.held none m.current m.held.retired
  exact bind_settled_ok hsecond rfl

end InPlace

/-! ## What a failed operation leaves -/

namespace InPlace

/-- Whatever the operation has changed by the time it fails, it leaves the machine as it was. -/
def Atomic {ε α : Type} (x : InPlace ε α) : Prop := ∀ m e after, x m = .error e after → after = m

section
variable {ε α : Type} {x : InPlace ε α}

theorem atomic_of_settled (h : ∀ m, ∃ e? a done, x m = settled m e? a done) : Atomic x := by
  intro m e after herror
  obtain ⟨e?, a, done, hx⟩ := h m
  rw [hx] at herror
  exact (settled_eq_error_iff.1 herror).2

theorem eq_ok_of_outcome {m after : Machine} {a : α} (h : outcome x m = .ok (a, after)) :
    x m = .ok a after := by
  rw [outcome] at h
  cases hx : x m with
  | ok b after' =>
    rw [hx, Except.ok.injEq, Prod.mk.injEq] at h
    rw [h.1, h.2]
  | error e after' =>
    rw [hx] at h
    cases h

theorem Atomic.eq_error_of_outcome (hx : Atomic x) {m : Machine} {e : ε}
    (h : outcome x m = .error e) : x m = .error e m := by
  rw [outcome] at h
  cases hm : x m with
  | ok a after =>
    rw [hm] at h
    cases h
  | error e' after =>
    rw [hm, Except.error.injEq] at h
    rw [h, hx m e' after hm]

theorem Atomic.left_eq (hx : Atomic x) (m : Machine) :
    left x m =
      match outcome x m with
      | .ok r => r.2
      | .error _ => m := by
  cases h : outcome x m with
  | ok r => rw [left, eq_ok_of_outcome h]
  | error e => rw [left, hx.eq_error_of_outcome h]

end

theorem atomic_execute (i : Instruction) : Atomic (execute i) :=
  atomic_of_settled fun m => ⟨_, _, _, execute_eq m i⟩

theorem atomic_firstHalf : Atomic firstHalf := atomic_of_settled fun m => ⟨_, _, _, firstHalf_eq m⟩

theorem atomic_secondHalf : Atomic secondHalf :=
  atomic_of_settled fun m => ⟨_, _, _, secondHalf_eq m⟩

theorem atomic_step : Atomic step := atomic_of_settled fun m => ⟨_, _, _, step_eq m⟩

end InPlace

/-! ## The operations from outside -/

namespace Machine

theorem execute_eq_ok_iff {m after : Machine} {i : Instruction} :
    m.execute i = .ok after ↔ m.fault? i.reduced = none ∧ after = m.effect i.reduced := by
  rw [execute, InPlace.outcome, InPlace.execute_eq]
  cases m.fault? i.reduced with
  | none => simp [InPlace.settled, Except.map, eq_comm]
  | some e => simp [InPlace.settled, Except.map]

theorem firstHalf_eq_ok_iff {m after : Machine} {i : Instruction} :
    m.firstHalf = .ok (i, after) ↔ m.cycleError? = none ∧ i = m.current ∧ after = m.held :=
  InPlace.outcome_eq_ok_iff (InPlace.firstHalf_eq m)

theorem step_eq_ok_iff {m after : Machine} {i : Instruction} :
    m.step = .ok (i, after) ↔ m.cycleError? = none ∧ i = m.current ∧ after = m.held.retired :=
  InPlace.outcome_eq_ok_iff (InPlace.step_eq m)

theorem step_eq_error_iff {m : Machine} {e : StepError} :
    m.step = .error e ↔ m.cycleError? = some e :=
  InPlace.outcome_eq_error_iff (InPlace.step_eq m)

theorem secondHalf_eq_ok_iff {m after : Machine} :
    m.secondHalf = .ok after ↔ m.phase = .firstPhaseDone ∧ after = m.retired := by
  rw [secondHalf, InPlace.outcome, InPlace.secondHalf_eq, phaseError?]
  by_cases h : m.phase = .firstPhaseDone
  · simp [h, InPlace.settled, Except.map, eq_comm]
  · simp [h, InPlace.settled, Except.map]

end Machine

end AccumulatorMachine
