import AccumulatorMachine.Proofs.Assembly.Loading
import AccumulatorMachine.Proofs.Machine.Running
import AccumulatorMachine.Session

/-! # What a session reaches

The sessions that come about by driving one (`Session.Reaches`), the end of an instruction in one
or two strides (`Session.Retires`), and a session that has just loaded a program.
-/

namespace AccumulatorMachine.Session
set_option autoImplicit false

/-! ## Operations on the machine of a session -/

/-- What an operation comes to for the session, if it leaves the machine as it was where it
fails. -/
theorem within_eq {ε α : Type} {x : InPlace ε α} (hx : InPlace.Atomic x) (s : Session) :
    s.within x =
      match InPlace.outcome x s.machine with
      | .ok (a, m) => .ok a (s.withMachine m)
      | .error e => .error e s := by
  cases h : InPlace.outcome x s.machine with
  | ok r => rw [within, InPlace.eq_ok_of_outcome h]
  | error e =>
    rw [within, hx.eq_error_of_outcome h]
    rfl

theorem within_firstHalf (s : Session) :
    s.within InPlace.firstHalf =
      match s.firstHalf with
      | .ok (i, after) => .ok i after
      | .error e => .error e s := by
  rw [within_eq InPlace.atomic_firstHalf, firstHalf, Machine.firstHalf]
  cases InPlace.outcome InPlace.firstHalf s.machine with
  | ok r => rfl
  | error e => rfl

theorem within_secondHalf (s : Session) :
    s.within InPlace.secondHalf =
      match s.secondHalf with
      | .ok after => .ok () after
      | .error e => .error e s := by
  rw [within_eq InPlace.atomic_secondHalf, secondHalf, Machine.secondHalf]
  cases InPlace.outcome InPlace.secondHalf s.machine with
  | ok r => rfl
  | error e => rfl

theorem within_step (s : Session) :
    s.within InPlace.step =
      match s.step with
      | .ok (i, after) => .ok i after
      | .error e => .error e s := by
  rw [within_eq InPlace.atomic_step, step, Machine.step]
  cases InPlace.outcome InPlace.step s.machine with
  | ok r => rfl
  | error e => rfl

theorem load_eq (s : Session) (text : String) :
    s.load text =
      match s.emptied.machine.load text with
      | .ok (p, machine) => ({ s.emptied with machine, source := some text }, .ok p)
      | .error e => (s.emptied, .error e) := by
  rw [load, within_eq (InPlace.atomic_load text), Machine.load]
  cases InPlace.outcome (InPlace.load text) s.emptied.machine with
  | ok r => rfl
  | error e => rfl

/-! ## Driving a session -/

/-- The sessions that come about by driving `s`: by halves of cycles, by whole cycles, and by
runs, which may fail. -/
inductive Reaches (s : Session) : Session → Prop
  | start : Reaches s s
  | firstHalf {r after : Session} {i : Instruction} :
      Reaches s r → r.firstHalf = .ok (i, after) → Reaches s after
  | secondHalf {r after : Session} : Reaches s r → r.secondHalf = .ok after → Reaches s after
  | step {r after : Session} {i : Instruction} :
      Reaches s r → r.step = .ok (i, after) → Reaches s after
  | run {r : Session} (budget : Nat) : Reaches s r → Reaches s (r.run budget).1
  | runToEnd {r after : Session} {patience : Nat} {result : Except StepError Nat} :
      Reaches s r → r.runToEnd? patience = some (after, result) → Reaches s after

/-- From `r` on, the instruction `i` is executed and retired, in one stride or in two. -/
inductive Retires (r : Session) (i : Instruction) (after : Session) : Prop
  | step : r.step = .ok (i, after) → Retires r i after
  | halves {mid : Session} : r.firstHalf = .ok (i, mid) → mid.secondHalf = .ok after →
      Retires r i after

theorem bind_withMachine_eq_ok_iff {s after : Session} {x : Except StepError (Instruction × Machine)}
    {i : Instruction} :
    (x >>= fun result => pure (result.1, s.withMachine result.2)) = .ok (i, after) ↔
      ∃ m, x = .ok (i, m) ∧ after = s.withMachine m := by
  simp only [bind, Except.bind]
  cases x with
  | error e => simp
  | ok result =>
    obtain ⟨j, m⟩ := result
    simp only [pure, Except.pure, Except.ok.injEq, Prod.mk.injEq]
    constructor
    · rintro ⟨rfl, rfl⟩
      exact ⟨m, ⟨rfl, rfl⟩, rfl⟩
    · rintro ⟨m', ⟨rfl, rfl⟩, rfl⟩
      exact ⟨rfl, rfl⟩

theorem firstHalf_eq_ok_iff {s after : Session} {i : Instruction} :
    s.firstHalf = .ok (i, after) ↔
      ∃ m, s.machine.firstHalf = .ok (i, m) ∧ after = s.withMachine m :=
  bind_withMachine_eq_ok_iff

theorem step_eq_ok_iff {s after : Session} {i : Instruction} :
    s.step = .ok (i, after) ↔ ∃ m, s.machine.step = .ok (i, m) ∧ after = s.withMachine m :=
  bind_withMachine_eq_ok_iff

theorem secondHalf_eq_ok_iff {s after : Session} :
    s.secondHalf = .ok after ↔ ∃ m, s.machine.secondHalf = .ok m ∧ after = s.withMachine m := by
  simp only [secondHalf, bind, Except.bind]
  cases h : s.machine.secondHalf with
  | error e => simp
  | ok m =>
    simp only [pure, Except.pure, Except.ok.injEq]
    constructor
    · rintro rfl
      exact ⟨m, rfl, rfl⟩
    · rintro ⟨m', rfl, rfl⟩
      rfl

/-- A run to the end that comes to one is a run with a budget, and not the budget has ended it. -/
theorem runToEnd?_eq_some {s : Session} {patience : Nat} {r : Session × Except StepError Nat}
    (h : s.runToEnd? patience = some r) :
    r = s.run patience ∧ (s.machine.run patience).isFinal = true := by
  rw [runToEnd?, Option.map_eq_some_iff] at h
  obtain ⟨run, hrun, rfl⟩ := h
  obtain ⟨rfl, hfinal⟩ := Machine.runToEnd?_eq_some_iff.1 hrun
  exact ⟨rfl, hfinal⟩

/-- Whatever a session reaches, its machine has kept what machines keep. -/
theorem Reaches.keeps {s r : Session} (h : s.Reaches r) : s.machine.Keeps r.machine := by
  induction h with
  | start => exact .refl s.machine
  | firstHalf _ hfirst ih =>
    obtain ⟨m, hm, rfl⟩ := firstHalf_eq_ok_iff.1 hfirst
    exact ih.trans (Machine.keeps_of_firstHalf hm)
  | secondHalf _ hsecond ih =>
    obtain ⟨m, hm, rfl⟩ := secondHalf_eq_ok_iff.1 hsecond
    exact ih.trans (Machine.keeps_of_secondHalf hm)
  | step _ hstep ih =>
    obtain ⟨m, hm, rfl⟩ := step_eq_ok_iff.1 hstep
    exact ih.trans (Machine.keeps_of_step hm)
  | run budget _ ih => exact ih.trans (Machine.keeps_run _ budget)
  | @runToEnd r after patience result _ hrun ih =>
    have hafter : after = (r.run patience).1 := by rw [← (runToEnd?_eq_some hrun).1]
    rw [hafter]
    exact ih.trans (Machine.keeps_run r.machine patience)

/-- An instruction is retired as in one whole cycle of the machine. -/
theorem Retires.machine_eq {r after : Session} {i : Instruction} (h : r.Retires i after) :
    r.machine.phase = .idle ∧ i = r.machine.current ∧ after.machine = r.machine.held.retired := by
  cases h with
  | step hstep =>
    obtain ⟨m, hm, rfl⟩ := step_eq_ok_iff.1 hstep
    obtain ⟨hnone, rfl, rfl⟩ := Machine.step_eq_ok_iff.1 hm
    exact ⟨(Machine.cycleError?_eq_none_iff.1 hnone).1, rfl, rfl⟩
  | halves hfirst hsecond =>
    obtain ⟨m, hm, rfl⟩ := firstHalf_eq_ok_iff.1 hfirst
    obtain ⟨m', hm', rfl⟩ := secondHalf_eq_ok_iff.1 hsecond
    obtain ⟨hnone, rfl, rfl⟩ := Machine.firstHalf_eq_ok_iff.1 hm
    obtain ⟨-, rfl⟩ := Machine.secondHalf_eq_ok_iff.1 hm'
    exact ⟨(Machine.cycleError?_eq_none_iff.1 hnone).1, rfl, rfl⟩

/-! ## A loaded program -/

theorem load_eq_ok_iff {s₀ s : Session} {text : String} {p : Program} :
    s₀.load text = (s, .ok p) ↔ ∃ m, (freshMachine s₀.settings).load text = .ok (p, m) ∧
      s = { settings := s₀.settings, machine := m, source := some text } := by
  have hfresh : s₀.emptied.machine = freshMachine s₀.settings := rfl
  cases h : (freshMachine s₀.settings).load text with
  | error e => simp [load_eq, hfresh, h]
  | ok result =>
    obtain ⟨q, m⟩ := result
    simp only [load_eq, hfresh, h, Prod.mk.injEq, Except.ok.injEq]
    constructor
    · rintro ⟨rfl, rfl⟩
      exact ⟨m, ⟨rfl, rfl⟩, rfl⟩
    · rintro ⟨m', ⟨rfl, rfl⟩, rfl⟩
      exact ⟨rfl, rfl⟩

theorem load_eq_error {s after : Session} {text : String} {e : AssemblyError}
    (h : s.load text = (after, .error e)) : after = ofSettings s.settings := by
  rw [load_eq] at h
  cases hload : s.emptied.machine.load text with
  | error e' =>
    rw [hload] at h
    exact (congrArg Prod.fst h).symm
  | ok r =>
    rw [hload] at h
    cases h

/-- The machine with a program just loaded. -/
theorem machine_of_load {s₀ s : Session} {text : String} {p : Program}
    (h : s₀.load text = (s, .ok p)) :
    Program.assemble text s₀.settings.memorySize.toNat = .ok p ∧
      s.machine = (freshMachine s₀.settings).withProgram p := by
  obtain ⟨m, hm, rfl⟩ := load_eq_ok_iff.1 h
  obtain ⟨hp, rfl⟩ := Machine.load_eq_ok_iff.1 hm
  rw [show (freshMachine s₀.settings).memory.size = s₀.settings.memorySize.toNat from
    Memory.size_zeros _] at hp
  exact ⟨hp, rfl⟩

theorem size_of_load {s₀ s : Session} {text : String} {p : Program}
    (h : s₀.load text = (s, .ok p)) : s.machine.memory.size = s₀.settings.memorySize.toNat := by
  rw [(machine_of_load h).2, Machine.size_withProgram]
  exact Memory.size_zeros _

/-- Where the program puts a word, there it stands after the load. -/
theorem word_of_load {s₀ s : Session} {text : String} {p : Program}
    (h : s₀.load text = (s, .ok p)) {a : Nat} {w : Word} (hw : p.word? a = some w) :
    s.machine.memory.word a = w := by
  obtain ⟨hp, hm⟩ := machine_of_load h
  have hfits := Program.image_inside hp
  have hfresh : (freshMachine s₀.settings).memory.size = s₀.settings.memorySize.toNat :=
    Memory.size_zeros _
  rw [← hfresh] at hfits
  rw [hm, Machine.withProgram, Program.word_putAll_image hfits, hw, Option.getD_some]

end AccumulatorMachine.Session
