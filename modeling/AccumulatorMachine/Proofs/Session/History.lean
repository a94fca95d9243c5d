import AccumulatorMachine.Proofs.Machine.Watch
import AccumulatorMachine.Proofs.Session.Reached

/-! # Histories of a session

All that can be done to a session from outside (`Session.Operation`), and what a history of such
operations leaves. They go on from what an operation on the machine leaves in place; if that has
failed, it is the session as it was (`Session.left_eq`). Whatever the operation, it comes to one of
five things for the machine: a fresh one, a change of what is open to everyone, an instruction
executed outside any cycle, a stride, or a number of whole cycles (`Session.perform_does`). An
invariant of histories is shown by these five cases.
-/

namespace AccumulatorMachine.Session
set_option autoImplicit false

/-! ## Operations -/

inductive Operation
  | load (text : String)
  /-- Puts a program into the machine as it stands. -/
  | insert (text : String)
  | reset
  | stride (x : Stride)
  | run (budget : Nat)
  | runToEnd (patience : Nat)
  /-- Executes an instruction outside any cycle. -/
  | execute (i : Instruction)
  | jump (target : Word)
  | write (address : Nat) (w : Word)
  | setRegisters (registers : Registers)
  | setMemory (memory : Memory)

def stride (s : Session) : Stride → Except StepError Session
  | .firstHalf => s.firstHalf.map Prod.snd
  | .secondHalf => s.secondHalf
  | .whole => s.step.map Prod.snd

/-- The session with what the operation on its machine leaves, whether it succeeds or fails. -/
def left {ε α : Type} (s : Session) (x : InPlace ε α) : Session :=
  s.withMachine (InPlace.left x s.machine)

def perform (s : Session) : Operation → Session
  | .load text => (s.load text).1
  | .insert text => s.left (InPlace.load text)
  | .reset => s.reset.1
  | .stride x => s.left x.inPlace
  | .run budget => (s.run budget).1
  | .runToEnd patience =>
    match s.runToEnd? patience with
    | some (after, _) => after
    | none => s
  | .execute i => s.left (InPlace.execute i)
  | .jump target => s.withMachine { s.machine with registers := s.machine.registers.jump target }
  | .write address w =>
    match s.machine.memory.write address w with
    | .ok memory => s.withMachine { s.machine with memory }
    | .error _ => s
  | .setRegisters registers => s.withMachine { s.machine with registers }
  | .setMemory memory => s.withMachine { s.machine with memory }

/-- The session after a history, the latest operation first. -/
def after (s : Session) : List Operation → Session
  | [] => s
  | o :: earlier => (s.after earlier).perform o

/-- Whether the machine is a fresh one afterwards. -/
def Operation.renews : Operation → Bool
  | load _ | reset => true
  | _ => false

/-- Whether the operation loads a text into the session. -/
def Operation.loads : Operation → Bool
  | load _ => true
  | _ => false

/-- How many instructions the operation executes within cycles (`Stride.begins`), or retires
(`Stride.ends`). -/
def count (s : Session) (part : Stride → Bool) : Operation → Nat
  | .stride x => if part x && (s.stride x).isOk then 1 else 0
  | .run budget => (s.machine.run budget).count
  | .runToEnd patience => ((s.machine.runToEnd? patience).map Run.count).getD 0
  | _ => 0

/-! ## What operations come to -/

theorem stride_eq (s : Session) (x : Stride) :
    s.stride x = (s.machine.stride x).map s.withMachine := by
  cases x with
  | firstHalf =>
    rw [stride, firstHalf, Machine.stride]
    cases s.machine.firstHalf with
    | error e => rfl
    | ok r => rfl
  | secondHalf =>
    rw [stride, secondHalf, Machine.stride]
    cases s.machine.secondHalf with
    | error e => rfl
    | ok m => rfl
  | whole =>
    rw [stride, step, Machine.stride]
    cases s.machine.step with
    | error e => rfl
    | ok r => rfl

theorem stride_eq_ok_iff {s after : Session} {x : Stride} :
    s.stride x = .ok after ↔ ∃ m, s.machine.stride x = .ok m ∧ after = s.withMachine m := by
  rw [stride_eq]
  cases s.machine.stride x with
  | error e => simp [Except.map]
  | ok m => simp [Except.map, eq_comm]

theorem stride_eq_error_iff {s : Session} {x : Stride} {e : StepError} :
    s.stride x = .error e ↔ s.machine.stride x = .error e := by
  rw [stride_eq]
  cases s.machine.stride x with
  | error e => simp [Except.map]
  | ok m => simp [Except.map]

theorem left_eq {ε α : Type} {x : InPlace ε α} (hx : InPlace.Atomic x) (s : Session) :
    s.left x =
      match InPlace.outcome x s.machine with
      | .ok r => s.withMachine r.2
      | .error _ => s := by
  rw [left, hx.left_eq]
  cases InPlace.outcome x s.machine with
  | ok r => rfl
  | error e => rfl

theorem perform_insert (s : Session) (text : String) :
    s.perform (.insert text) =
      match s.machine.load text with
      | .ok (_, m) => s.withMachine m
      | .error _ => s := by
  rw [perform, left_eq (InPlace.atomic_load text), Machine.load]
  cases InPlace.outcome (InPlace.load text) s.machine with
  | ok r => rfl
  | error e => rfl

theorem perform_stride (s : Session) (x : Stride) :
    s.perform (.stride x) =
      match s.stride x with
      | .ok after => after
      | .error _ => s := by
  rw [perform, left, InPlace.left, Machine.inPlace_eq]
  cases h : s.machine.strideError? x with
  | none =>
    rw [stride_eq_ok_iff.2 ⟨_, Machine.stride_eq_ok_iff.2 ⟨h, rfl⟩, rfl⟩]
    rfl
  | some e =>
    rw [stride_eq_error_iff.2 (Machine.stride_eq_error_iff.2 h)]
    rfl

theorem perform_execute (s : Session) (i : Instruction) :
    s.perform (.execute i) =
      match s.machine.execute i with
      | .ok m => s.withMachine m
      | .error _ => s := by
  rw [perform, left_eq (InPlace.atomic_execute i), Machine.execute]
  cases InPlace.outcome (InPlace.execute i) s.machine with
  | ok r => rfl
  | error e => rfl

/-- A run to the end is a run, if there is an end. -/
theorem perform_runToEnd (s : Session) (patience : Nat) :
    s.perform (.runToEnd patience) = s ∨
      s.perform (.runToEnd patience) = s.perform (.run patience) := by
  cases h : s.runToEnd? patience with
  | none =>
    left
    simp only [perform, h]
  | some r =>
    right
    simp only [perform, h]
    rw [(runToEnd?_eq_some h).1]

/-- Only a load or a reset touches more than the machine. -/
theorem perform_eq_withMachine (s : Session) {o : Operation} (h : o.renews = false) :
    ∃ m, s.perform o = s.withMachine m := by
  cases o with
  | load | reset => cases h
  | runToEnd patience =>
    rw [perform, runToEnd?]
    cases s.machine.runToEnd? patience with
    | none => exact ⟨s.machine, rfl⟩
    | some r => exact ⟨r.machine, rfl⟩
  | write address w =>
    rw [perform]
    cases s.machine.memory.write address w with
    | error e => exact ⟨s.machine, rfl⟩
    | ok memory => exact ⟨{ s.machine with memory }, rfl⟩
  | insert | stride | run | execute | jump | setRegisters | setMemory => exact ⟨_, rfl⟩

/-- A load leaves a machine that has done nothing yet, whether it succeeds or not. -/
theorem machine_load (s : Session) (text : String) :
    ∃ memory lastAddress, (s.load text).1.machine = { memory, lastAddress } := by
  rw [load_eq]
  cases h : s.emptied.machine.load text with
  | error e => exact ⟨_, _, rfl⟩
  | ok r =>
    obtain ⟨p, m⟩ := r
    obtain ⟨-, rfl⟩ := Machine.load_eq_ok_iff.1 h
    exact ⟨s.emptied.machine.memory.putAll p.image, p.lastAddress, rfl⟩

theorem machine_reset (s : Session) :
    ∃ memory lastAddress, s.reset.1.machine = { memory, lastAddress } := by
  rw [reset]
  cases s.source with
  | none => exact ⟨_, _, rfl⟩
  | some text => exact s.machine_load text

/-- What an operation comes to for the machine of `s`, which is the last argument afterwards. -/
inductive Does (s : Session) : Operation → Machine → Prop
  | renew {o : Operation} (memory : Memory) (lastAddress : Option Word) :
      o.renews = true → Does s o { memory, lastAddress }
  /-- Nothing changes but what is open to everyone, and of that perhaps nothing. -/
  | edit {o : Operation} (registers : Registers) (memory : Memory) (lastAddress : Option Word) :
      o.renews = false → (∀ part, s.count part o = 0) →
      (∀ i m, o = .execute i → s.machine.execute i ≠ .ok m) →
      Does s o { s.machine with registers, memory, lastAddress }
  | execute {i : Instruction} {m : Machine} :
      s.machine.execute i = .ok m → Does s (.execute i) m
  | stride {x : Stride} {m : Machine} : s.machine.stride x = .ok m → Does s (.stride x) m
  | cycles {o : Operation} {n : Nat} {m : Machine} (running measured : Bool) :
      o.renews = false → (∀ part, s.count part o = n) → (∀ i, o ≠ .execute i) →
      s.machine.steps n = .ok m → Does s o (m.watched running measured)

theorem Does.nothing {s : Session} {o : Operation} (hrenews : o.renews = false)
    (hcount : ∀ part, s.count part o = 0)
    (hexecute : ∀ i m, o = .execute i → s.machine.execute i ≠ .ok m) : s.Does o s.machine :=
  .edit s.machine.registers s.machine.memory s.machine.lastAddress hrenews hcount hexecute

/-- An operation that does a run comes to as many whole cycles as it counts. -/
theorem does_of_run {s : Session} {o : Operation} {budget : Nat} (hrenews : o.renews = false)
    (hcount : ∀ part, s.count part o = (s.machine.run budget).count)
    (hexecute : ∀ i, o ≠ .execute i) : s.Does o (s.machine.run budget).machine := by
  obtain ⟨n, hn, hsteps⟩ := Machine.steps_of_advance budget 0 s.machine
  rw [Nat.zero_add] at hn
  have hrun := Machine.run_eq_watched s.machine budget
  rw [hrun] at hcount ⊢
  exact .cycles false true hrenews (fun part => (hcount part).trans hn) hexecute hsteps

theorem perform_does (s : Session) (o : Operation) : s.Does o (s.perform o).machine := by
  cases o with
  | load text =>
    obtain ⟨memory, last, h⟩ := s.machine_load text
    rw [perform, h]
    exact .renew memory last rfl
  | reset =>
    obtain ⟨memory, last, h⟩ := s.machine_reset
    rw [perform, h]
    exact .renew memory last rfl
  | insert text =>
    rw [perform_insert]
    cases h : s.machine.load text with
    | error e => exact .nothing rfl (fun _ => rfl) (by simp)
    | ok r =>
      obtain ⟨p, m⟩ := r
      obtain ⟨-, rfl⟩ := Machine.load_eq_ok_iff.1 h
      exact .edit s.machine.registers (s.machine.memory.putAll p.image) p.lastAddress rfl
        (fun _ => rfl) (by simp)
  | stride x =>
    rw [perform_stride]
    cases h : s.machine.stride x with
    | error e =>
      rw [stride_eq_error_iff.2 h]
      refine .nothing rfl (fun part => ?_) (by simp)
      rw [count, stride_eq_error_iff.2 h]
      simp [Except.isOk, Except.toBool]
    | ok m =>
      rw [stride_eq_ok_iff.2 ⟨m, h, rfl⟩]
      exact .stride h
  | run budget => exact does_of_run rfl (fun _ => rfl) (by simp)
  | runToEnd patience =>
    cases h : s.machine.runToEnd? patience with
    | none =>
      rw [perform, runToEnd?, h]
      refine .nothing rfl (fun _ => ?_) (by simp)
      rw [count, h]
      rfl
    | some r =>
      obtain ⟨hr, -⟩ := Machine.runToEnd?_eq_some_iff.1 h
      rw [perform, runToEnd?, h]
      show s.Does (.runToEnd patience) r.machine
      rw [hr]
      refine does_of_run rfl (fun _ => ?_) (by simp)
      rw [count, h, hr]
      rfl
  | execute i =>
    rw [perform_execute]
    cases h : s.machine.execute i with
    | error e =>
      refine .nothing rfl (fun _ => rfl) fun j m hj => ?_
      cases hj
      rw [h]
      simp
    | ok m => exact .execute h
  | jump target =>
    exact .edit (s.machine.registers.jump target) s.machine.memory s.machine.lastAddress rfl
      (fun _ => rfl) (by simp)
  | write address w =>
    rw [perform]
    cases h : s.machine.memory.write address w with
    | error e => exact .nothing rfl (fun _ => rfl) (by simp)
    | ok memory =>
      exact .edit s.machine.registers memory s.machine.lastAddress rfl (fun _ => rfl) (by simp)
  | setRegisters registers =>
    exact .edit registers s.machine.memory s.machine.lastAddress rfl (fun _ => rfl) (by simp)
  | setMemory memory =>
    exact .edit s.machine.registers memory s.machine.lastAddress rfl (fun _ => rfl) (by simp)

end AccumulatorMachine.Session
