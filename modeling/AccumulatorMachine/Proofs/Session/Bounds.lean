import AccumulatorMachine.Proofs.Session.BoundedRuns
import AccumulatorMachine.Proofs.Session.History

/-! # The bounds of a loaded program

A loaded program lies inside memory, and a machine that is not done has its program counter within
the program (`Machine.Confined`). So every fetch finds a cell, and a cycle can only fail because an
instruction reaches outside memory (`Machine.OperandFails`). Strides and runs keep the bounds.
-/

namespace AccumulatorMachine
set_option autoImplicit false

/-! ## Bounds -/

namespace Machine

/-- The instruction at the program counter reaches for a cell that memory does not have, and `e`
says so. -/
def OperandFails (m : Machine) (e : StepError) : Prop :=
  ∃ w, m.memory.cells[m.pc.toNat]? = some w ∧ (Instruction.decode w).kind ∈ Kind.reaching ∧
    m.memory.size ≤ w.toNat % 4096 ∧ e = .memory ⟨(w.toNat % 4096 : Nat), m.memory.size⟩

/-- The program counter is an address of twelve bits, and the program lies inside memory. -/
structure Confined (m : Machine) : Prop where
  pc_lt : m.pc.toNat < 4096
  last_lt : ∀ a, m.lastAddress = some a → a.toNat < m.memory.size

variable {m after : Machine} {e : StepError}

theorem Confined.keeps (h : m.Confined) (hkeeps : m.Keeps after) : after.Confined where
  pc_lt := hkeeps.pc_lt h.pc_lt
  last_lt a ha := by
    rw [hkeeps.size]
    rw [hkeeps.lastAddress] at ha
    exact h.last_lt a ha

theorem Confined.pc_lt_size (h : m.Confined) (hdone : m.isDone = false) :
    m.pc.toNat < m.memory.size := by
  obtain ⟨last, hlast, hle⟩ := isDone_eq_false_iff.1 hdone
  exact hle.trans_lt (h.last_lt last hlast)

theorem Confined.operandFails (h : m.Confined) (hidle : m.phase = .idle) (hdone : m.isDone = false)
    (he : m.CycleFails e) : m.OperandFails e := by
  cases he with
  | phase hne => exact absurd hidle hne
  | fetch _ hle => exact absurd (h.pc_lt_size hdone) (Nat.not_lt.2 hle)
  | operand _ hw hk hle => exact ⟨_, hw, hk, hle, rfl⟩

theorem OperandFails.size_lt (h : m.OperandFails e) : m.memory.size < 4096 := by
  obtain ⟨w, -, -, hle, -⟩ := h
  omega

end Machine

namespace Session
variable {s after : Session}

/-! ## A session at work -/

/-- What stays from `s` to `after` while the session is at work on its program. -/
structure Keeps (s after : Session) : Prop where
  settings : after.settings = s.settings
  source : after.source = s.source
  machine : s.machine.Keeps after.machine

theorem Keeps.refl (s : Session) : s.Keeps s := ⟨rfl, rfl, .refl s.machine⟩

theorem Keeps.trans {mid : Session} (h : s.Keeps mid) (h' : mid.Keeps after) : s.Keeps after :=
  ⟨h'.settings.trans h.settings, h'.source.trans h.source, h.machine.trans h'.machine⟩

theorem keeps_withMachine {m : Machine} (h : s.machine.Keeps m) : s.Keeps (s.withMachine m) :=
  ⟨rfl, rfl, h⟩

theorem keeps_stride (s : Session) (x : Stride) : s.Keeps (s.perform (.stride x)) := by
  rw [perform_stride]
  cases h : s.stride x with
  | error e => exact .refl s
  | ok r =>
    obtain ⟨m, hm, rfl⟩ := stride_eq_ok_iff.1 h
    exact keeps_withMachine (Machine.keeps_of_stride hm)

theorem keeps_run (s : Session) (budget : Nat) : s.Keeps (s.perform (.run budget)) :=
  keeps_withMachine (s.machine.keeps_run budget)

theorem keeps_runToEnd (s : Session) (patience : Nat) : s.Keeps (s.perform (.runToEnd patience)) := by
  obtain h | h := s.perform_runToEnd patience
  · rw [h]
    exact .refl s
  · rw [h]
    exact s.keeps_run patience

theorem load_congr (h : after.settings = s.settings) (text : String) :
    after.load text = s.load text := by
  rw [load, load, emptied, emptied, h]

/-- A session that still has the settings and the text of a load is reset to what it was after it,
whatever its machine is. -/
theorem reset_of_source {s₀ : Session} {text : String} {p : Program}
    (hload : s₀.load text = (s, .ok p)) (hsettings : after.settings = s.settings)
    (hsource : after.source = s.source) : after.reset = (s, .ok ()) := by
  obtain ⟨m, -, rfl⟩ := load_eq_ok_iff.1 hload
  have htext : after.source = some text := hsource
  rw [reset, htext]
  show ((after.load text).1, (after.load text).2.map fun _ => ()) = _
  rw [load_congr (s := s₀) hsettings, hload]
  rfl

theorem confined_of_load {s₀ : Session} {text : String} {p : Program}
    (hload : s₀.load text = (s, .ok p)) :
    s.settings = s₀.settings ∧ s.machine.memory.size = s₀.settings.memorySize.toNat ∧
      s.machine.Confined := by
  obtain ⟨hassemble, hm⟩ := machine_of_load hload
  obtain ⟨m, -, hs⟩ := load_eq_ok_iff.1 hload
  have hlength : p.instructions.length ≤ min s₀.settings.memorySize.toNat 4096 :=
    Program.length_le_of_assemble hassemble
  have hsize : s.machine.memory.size = s₀.settings.memorySize.toNat := by
    rw [hm, Machine.size_withProgram]
    exact Memory.size_zeros _
  refine ⟨?_, hsize, ?_, fun a ha => ?_⟩
  · rw [hs]
  · rw [hm]
    show (0 : Word).toNat < 4096
    decide
  · rw [hm] at ha
    have hlast := (Program.lastAddress_eq_some_iff (by omega)).1 ha
    omega

/-! ## Errors -/

/-- A stride that its phase allows, and that does not begin when the program is done, fails only
because an instruction reaches outside memory. -/
theorem operandFails_of_stride {x : Stride} {e : StepError} (h : s.machine.Confined)
    (hphase : s.machine.phase = x.phase)
    (hdone : s.machine.phase = .idle → s.machine.isDone = false) (herror : s.stride x = .error e) :
    s.machine.OperandFails e := by
  rw [stride_eq_error_iff, Machine.stride_eq_error_iff] at herror
  cases x with
  | firstHalf | whole =>
    exact h.operandFails hphase (hdone hphase) (Machine.cycleError?_eq_some_iff.1 herror)
  | secondHalf =>
    -- the second half has nothing left that could fail
    have hexecuted : s.machine.phase = .firstPhaseDone := hphase
    rw [Machine.strideError?, Machine.phaseError?, if_pos hexecuted] at herror
    cases herror

/-- A run from between two instructions fails only because an instruction reaches outside memory,
and leaves the program counter at that instruction. -/
theorem operandFails_of_run {budget : Nat} {e : StepError} (h : s.machine.Confined)
    (hidle : s.machine.phase = .idle) (herror : (s.run budget).2 = .error e) :
    (s.run budget).1.machine.OperandFails e := by
  have hafter : (s.run budget).1.machine.Confined := h.keeps (s.machine.keeps_run budget)
  obtain ⟨k, m, e?, hsteps, hends, hrun⟩ := s.run_ends budget
  rw [hrun] at herror hafter ⊢
  cases hends with
  | done | spent => cases herror
  | failed _ hdone hstep =>
    cases herror
    -- the run leaves the machine that failed, up to the watch
    have hcycle := Machine.step_eq_error_iff.1 hstep
    rw [← Machine.cycleError?_watched false true] at hcycle
    exact hafter.operandFails ((Machine.phase_of_steps hsteps).trans hidle) hdone
      (Machine.cycleError?_eq_some_iff.1 hcycle)

end Session
end AccumulatorMachine
