import AccumulatorMachine.Proofs.Machine.Trail
import AccumulatorMachine.Proofs.Session.History

/-! # The trace of a session

What the halves of cycles have done in a history of operations since the machine was last a fresh
one (`Session.trace`). What lasts, lasts through the operations that drive the machine, and what endures
is kept by all of them (`Session.endures_perform`). So the counters count just what was done, unless
an instruction was executed outside any cycle (`Session.counts_after`).
-/

namespace AccumulatorMachine.Session
set_option autoImplicit false

/-- What the halves of cycles do that belong to the operation. -/
def halves (s : Session) (o : Operation) : List Half :=
  s.machine.trail (s.count Stride.begins o + s.count Stride.ends o)

/-- What has been done by an operation and before it, when that was `done`. -/
def traced (s : Session) (done : List Half) (o : Operation) : List Half :=
  if o.renews then [] else done ++ s.halves o

/-- What the halves of cycles have done since the machine was last a fresh one, the first of them
first. -/
def trace (s : Session) : List Operation → List Half
  | [] => []
  | o :: earlier => (s.after earlier).traced (s.trace earlier) o

section
variable {s : Session} {o : Operation}

theorem halves_of_stride {x : Stride} {m : Machine} (h : s.machine.stride x = .ok m) :
    s.halves (.stride x) = s.machine.trail x.length := by
  have hok := stride_eq_ok_iff.2 ⟨m, h, rfl⟩
  rw [halves, count, count, hok]
  cases x with
  | firstHalf | secondHalf | whole => rfl

theorem traced_of_stride {done : List Half} {x : Stride} {m : Machine}
    (h : s.machine.stride x = .ok m) :
    s.traced done (.stride x) = done ++ s.machine.trail x.length := by
  rw [traced, halves_of_stride h]
  rfl

theorem traced_of_cycles {done : List Half} {n : Nat} (hrenews : o.renews = false)
    (h : ∀ part, s.count part o = n) : s.traced done o = done ++ s.machine.trail (2 * n) := by
  rw [traced, hrenews, halves, h, h, ← Nat.two_mul]
  rfl

theorem traced_of_nothing {done : List Half} (hrenews : o.renews = false)
    (h : ∀ part, s.count part o = 0) : s.traced done o = done := by
  rw [traced_of_cycles hrenews h, Nat.mul_zero, Machine.trail, List.append_nil]

/-! ## What lasts -/

section
variable {P : List Half → Machine → Prop} {done : List Half}

theorem lasts_stride (hP : Machine.Lasting P) (h : P done s.machine) {x : Stride}
    (hdone : s.machine.phase = .idle → s.machine.isDone = false) :
    P (s.traced done (.stride x)) (s.perform (.stride x)).machine := by
  rw [perform_stride]
  cases hx : s.machine.stride x with
  | error e =>
    have hcount (part : Stride → Bool) : s.count part (.stride x) = 0 := by
      rw [count, stride_eq_error_iff.2 hx]
      simp [Except.isOk, Except.toBool]
    rw [stride_eq_error_iff.2 hx, traced_of_nothing rfl hcount]
    exact h
  | ok m =>
    rw [stride_eq_ok_iff.2 ⟨m, hx, rfl⟩, traced_of_stride hx]
    exact hP.stride h hdone hx

theorem lasts_run (hP : Machine.Lasting P) (h : P done s.machine) (budget : Nat) :
    P (s.traced done (.run budget)) (s.perform (.run budget)).machine := by
  rw [traced_of_cycles rfl fun _ => rfl]
  exact hP.run h budget

theorem lasts_runToEnd (hP : Machine.Lasting P) (h : P done s.machine) (patience : Nat) :
    P (s.traced done (.runToEnd patience)) (s.perform (.runToEnd patience)).machine := by
  have hcount (part : Stride → Bool) : s.count part (.runToEnd patience) =
      ((s.machine.runToEnd? patience).map Run.count).getD 0 := rfl
  rw [perform, runToEnd?]
  cases hr : s.machine.runToEnd? patience with
  | none =>
    rw [hr] at hcount
    rw [traced_of_nothing rfl hcount]
    exact h
  | some r =>
    rw [hr] at hcount
    rw [traced_of_cycles rfl hcount]
    obtain ⟨rfl, -⟩ := Machine.runToEnd?_eq_some_iff.1 hr
    exact hP.run h patience

end

/-! ## What endures -/

/-- What endures is kept by any operation, if it is kept where an instruction is executed outside
any cycle. -/
theorem endures_perform {P : List Half → Machine → Prop} {done : List Half}
    (hP : Machine.Enduring P) (h : P done s.machine)
    (hexecute : ∀ i m, o = .execute i → s.machine.execute i = .ok m → P done m) :
    P (s.traced done o) (s.perform o).machine := by
  have hdoes := s.perform_does o
  generalize (s.perform o).machine = after at hdoes ⊢
  cases hdoes with
  | renew memory lastAddress hrenews =>
    rw [traced, if_pos hrenews]
    exact hP.fresh memory lastAddress
  | edit registers memory lastAddress hrenews hcount =>
    rw [traced_of_nothing hrenews hcount]
    exact hP.edited registers memory lastAddress h
  | @execute i m hm =>
    rw [traced_of_nothing rfl fun _ => rfl]
    exact hexecute i _ rfl hm
  | @stride x _ hx =>
    rw [traced_of_stride hx]
    exact hP.halves h (Machine.halves_of_stride hx)
  | cycles running measured hrenews hcount _ hsteps =>
    rw [traced_of_cycles hrenews hcount]
    exact hP.watched running measured (hP.halves h (Machine.halves_of_steps hsteps))

/-! ## The counters -/

theorem counts_after {history : List Operation} (h : s.machine.Counts [])
    (hhistory : ∀ o ∈ history, ∀ i, o ≠ .execute i) :
    (s.after history).machine.Counts (s.trace history) := by
  induction history with
  | nil => exact h
  | cons o earlier ih =>
    rw [List.forall_mem_cons] at hhistory
    apply endures_perform Machine.enduring_counts (ih hhistory.2)
    intro i m ho
    exact absurd ho (hhistory.1 i)

end

end AccumulatorMachine.Session
