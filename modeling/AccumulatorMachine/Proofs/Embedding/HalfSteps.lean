import AccumulatorMachine.Embedding
import AccumulatorMachine.Proofs.Debugger.Keys
import AccumulatorMachine.Proofs.Session.Bounds
import AccumulatorMachine.Proofs.Session.Range
import Mathlib.Logic.Function.Iterate

/-! # Half steps through the embedding and through the debugger

On a memory of full size no half of a cycle fails (`Machine.Roomy.half_eq`), so either way of doing
half steps goes along the chain of halves. The debugger stays where the program is done between two
cycles, and the embedding goes on: from there on the two differ, and what the embedding executes is
whatever stands after the program.
-/

namespace AccumulatorMachine
set_option autoImplicit false

/-! ## Machines on which no half fails -/

namespace Machine
variable {m : Machine}

/-- The machine after the half of the cycle that comes next, if that does not fail. -/
def halved (m : Machine) : Machine :=
  match m.phase with
  | .idle => m.held
  | .firstPhaseDone => m.retired

/-- Every address of twelve bits has a cell, the program counter is such an address, and at rest no
branch is left over. -/
structure Roomy (m : Machine) : Prop where
  size : m.memory.size = fullSize
  pc_lt : m.pc.toNat < 4096
  branched : m.phase = .idle → m.branched = false

theorem Roomy.cycleError? (h : m.Roomy) (hidle : m.phase = .idle) : m.cycleError? = none := by
  have hfull : m.memory.size = 4096 := h.size
  cases he : m.cycleError? with
  | none => rfl
  | some e =>
    cases cycleError?_eq_some_iff.1 he with
    | phase hne => exact absurd hidle hne
    | fetch _ hle =>
      have hpc := h.pc_lt
      omega
    | operand _ _ _ hle => omega

theorem Roomy.half_eq (h : m.Roomy) : m.half = .ok m.halved := by
  rw [halved]
  cases hp : m.phase with
  | idle =>
    rw [half_of_idle hp, stride_eq_ok_iff]
    exact ⟨h.cycleError? hp, rfl⟩
  | firstPhaseDone => exact half_of_executed hp

theorem Roomy.halved (h : m.Roomy) : m.halved.Roomy := by
  rw [Machine.halved]
  cases m.phase with
  | idle => exact ⟨m.keeps_held.size.trans h.size, m.keeps_held.pc_lt h.pc_lt, fun hp => by cases hp⟩
  | firstPhaseDone =>
    exact ⟨m.keeps_retired.size.trans h.size, m.keeps_retired.pc_lt h.pc_lt, fun _ => rfl⟩

theorem Roomy.iterate (h : m.Roomy) (k : Nat) : (Machine.halved^[k] m).Roomy :=
  Function.Iterate.rec Roomy h (fun _ hm => hm.halved) k

theorem Roomy.halves_eq (h : m.Roomy) (k : Nat) : m.halves k = .ok (Machine.halved^[k] m) := by
  induction k with
  | zero => rfl
  | succ k ih =>
    rw [Function.iterate_succ_apply', halves, times_succ_eq_ok_iff]
    exact ⟨_, ih, (h.iterate k).half_eq⟩

/-! ## Stopping at the end -/

/-- The program is done, and no cycle is under way. -/
def Finished (m : Machine) : Prop := m.phase = .idle ∧ m.isDone = true

instance (m : Machine) : Decidable m.Finished := inferInstanceAs (Decidable (_ ∧ _))

/-- The machine after the next half, which is left out when the program is done before it. -/
def driven (m : Machine) : Machine := if m.Finished then m else m.halved

theorem Roomy.driven (h : m.Roomy) (k : Nat) : (Machine.driven^[k] m).Roomy := by
  refine Function.Iterate.rec Roomy h (fun a ha => ?_) k
  rw [Machine.driven]
  split
  · exact ha
  · exact ha.halved

theorem driven_of_unfinished {k : Nat} (h : ∀ j < k, ¬(driven^[j] m).Finished) :
    driven^[k] m = Machine.halved^[k] m := by
  induction k with
  | zero => rfl
  | succ k ih =>
    have hk := h k (Nat.lt_succ_self k)
    have hsame := ih fun j hj => h j (Nat.lt_succ_of_lt hj)
    rw [Function.iterate_succ_apply', Function.iterate_succ_apply', driven, if_neg hk, hsame]

theorem driven_of_finished {k : Nat} (h : (driven^[k] m).Finished) (n : Nat) :
    driven^[k + n] m = driven^[k] m := by
  have hfixed : driven (driven^[k] m) = driven^[k] m := if_pos h
  rw [Nat.add_comm, Function.iterate_add_apply]
  exact Function.iterate_fixed hfixed n

/-- If the program was done before place `k`, the machine stands at an earlier place. -/
theorem exists_driven_eq {k j : Nat} (hj : j < k) (h : (driven^[j] m).Finished) :
    ∃ i < k, driven^[k] m = Machine.halved^[i] m := by
  induction j using Nat.strong_induction_on with
  | _ j ih =>
    by_cases hfirst : ∀ i < j, ¬(driven^[i] m).Finished
    · refine ⟨j, hj, ?_⟩
      have hstays := driven_of_finished h (k - j)
      rw [Nat.add_sub_cancel' (Nat.le_of_lt hj)] at hstays
      rw [hstays, driven_of_unfinished hfirst]
    · push Not at hfirst
      obtain ⟨i, hi, hfinished⟩ := hfirst
      exact ih i hi (hi.trans hj) hfinished

/-! ## Machines that stay as they are -/

/-- No register and no cell differs. -/
def SameState (m m' : Machine) : Prop := m'.registers = m.registers ∧ m'.memory = m.memory

theorem brz_and_addressMask {w a : Word} (h : Instruction.decode w = .brz a) : a &&& addressMask = a := by
  have hreduced := Instruction.reduced_decode w
  rw [h] at hreduced
  exact Instruction.brz.inj hreduced

/-- A taken branch to itself. -/
structure Spins (m : Machine) : Prop where
  current : m.current = .brz m.pc
  accumulator : m.accumulator = 0

theorem spins_of_pc (h : m.Roomy) (hidle : m.phase = .idle) (hpc : m.held.retired.pc = m.pc) :
    m.Spins := by
  have hlt := h.pc_lt
  have hnext := toNat_pc_held_retired (h.branched hidle)
  rw [hpc] at hnext
  cases hcurrent : m.current with
  | brz a =>
    have ha : (a &&& addressMask).toNat = a.toNat % 4096 := Registers.toNat_and_addressMask a
    rw [brz_and_addressMask hcurrent] at ha
    rw [hcurrent] at hnext
    by_cases hzero : m.accumulator = 0
    · simp only [target?, hzero, beq_self_eq_true, if_true, Option.map_some, Option.getD_some] at hnext
      have hself : a = m.pc := UInt16.toNat_inj.1 (by omega)
      exact ⟨hself ▸ hcurrent, hzero⟩
    · have htarget : m.target? (.brz a) = none :=
        target?_eq_none_iff.2 fun hbranch => hzero hbranch.2
      rw [htarget, Option.map_none, Option.getD_none] at hnext
      omega
  | sto | lda | alu | accu | nop =>
    rw [hcurrent] at hnext
    simp only [target?, Option.map_none, Option.getD_none] at hnext
    omega

theorem Spins.congr {x : Machine} (h : m.Spins) (hsame : m.SameState x) : x.Spins := by
  have hpc : x.pc = m.pc := congrArg Registers.pc hsame.1
  have haccumulator : x.accumulator = m.accumulator := congrArg Registers.accumulator hsame.1
  have hcurrent : x.current = m.current := by
    show Instruction.decode (x.memory.word x.pc.toNat) = Instruction.decode (m.memory.word m.pc.toNat)
    rw [hsame.2, hpc]
  exact ⟨by rw [hcurrent, hpc, h.current], by rw [haccumulator, h.accumulator]⟩

/-- The branch is taken, to where it stands. -/
theorem Spins.held (h : m.Spins) : m.SameState m.held ∧ m.held.branched = true := by
  have htaken : (m.accumulator == 0) = true := beq_iff_eq.2 h.accumulator
  have hself : m.pc &&& addressMask = m.pc := brz_and_addressMask h.current
  rw [Machine.held, h.current, effect_brz_of_taken m.pc htaken]
  refine ⟨⟨?_, rfl⟩, rfl⟩
  show (⟨m.accumulator, m.pc &&& addressMask⟩ : Registers) = m.registers
  rw [hself]
  rfl

theorem sameState_retired (h : m.branched = true) : m.SameState m.retired :=
  ⟨if_pos h, rfl⟩

theorem Spins.iterate (h : m.Spins) (hidle : m.phase = .idle) (n : Nat) :
    let x := halved^[n] m
    m.SameState x ∧ (x.phase = .idle ∨ x.phase = .firstPhaseDone ∧ x.branched = true) := by
  induction n with
  | zero => exact ⟨⟨rfl, rfl⟩, .inl hidle⟩
  | succ n ih =>
    rw [Function.iterate_succ_apply']
    obtain ⟨hsame, hphase⟩ := ih
    rcases hphase with hphase | ⟨hphase, hbranched⟩
    · obtain ⟨hheld, hbranched⟩ := (h.congr hsame).held
      rw [halved, hphase]
      exact ⟨⟨hheld.1.trans hsame.1, hheld.2.trans hsame.2⟩, .inr ⟨rfl, hbranched⟩⟩
    · have hretired := sameState_retired hbranched
      rw [halved, hphase]
      exact ⟨⟨hretired.1.trans hsame.1, hretired.2.trans hsame.2⟩, .inl rfl⟩

/-- Going on leaves everything as it is only on a branch that is taken to itself. -/
theorem stays_iff (h : m.Roomy) (hidle : m.phase = .idle) :
    (∀ n, m.SameState (Machine.halved^[n] m)) ↔ m.fetch = .ok (.brz m.pc) ∧ m.accumulator = 0 := by
  have hpc : m.pc.toNat < m.memory.size := by
    rw [h.size]
    exact h.pc_lt
  rw [fetch_of_lt hpc, Except.ok.injEq]
  constructor
  · intro hstays
    have htwo : Machine.halved^[2] m = m.held.retired := by
      show m.halved.halved = _
      rw [Machine.halved, Machine.halved, hidle]
      rfl
    have hsame := hstays 2
    rw [htwo] at hsame
    obtain ⟨hcurrent, hzero⟩ := spins_of_pc h hidle (congrArg Registers.pc hsame.1)
    exact ⟨hcurrent, hzero⟩
  · rintro ⟨hcurrent, hzero⟩ n
    exact (Spins.iterate ⟨hcurrent, hzero⟩ hidle n).1

end Machine

/-! ## Sessions -/

namespace Session
variable {s : Session}

theorem firstHalf_of_roomy (h : s.machine.Roomy) (hidle : s.machine.phase = .idle) :
    ∃ i, s.firstHalf = .ok (i, s.withMachine s.machine.halved) := by
  have hhalf := h.half_eq
  rw [Machine.half_of_idle hidle, Machine.stride, map_snd_eq_ok_iff] at hhalf
  obtain ⟨i, hi⟩ := hhalf
  refine ⟨i, ?_⟩
  rw [firstHalf, hi]
  rfl

theorem secondHalf_of_roomy (h : s.machine.Roomy) (hexecuted : s.machine.phase = .firstPhaseDone) :
    s.secondHalf = .ok (s.withMachine s.machine.halved) := by
  have hhalf : s.machine.secondHalf = .ok s.machine.halved := by
    rw [← h.half_eq, Machine.half, hexecuted]
    rfl
  rw [secondHalf, hhalf]
  rfl

end Session

namespace Embedding
variable {e : Embedding}

/-- The embedding after `k` half steps. One that fails changes nothing. -/
def halfSteps (k : Nat) (e : Embedding) : Embedding := (fun e => e.halfStep.getD e)^[k] e

theorem halfStep_of_roomy (h : e.session.machine.Roomy) :
    e.halfStep = some ⟨e.session.withMachine e.session.machine.halved⟩ := by
  rw [halfStep]
  cases hp : e.session.machine.phase with
  | idle =>
    obtain ⟨i, hi⟩ := Session.firstHalf_of_roomy h hp
    simp only [hi]
    rfl
  | firstPhaseDone =>
    simp only [Session.secondHalf_of_roomy h hp]
    rfl

theorem halfSteps_of_roomy (h : e.session.machine.Roomy) (k : Nat) :
    e.halfSteps k = ⟨e.session.withMachine (Machine.halved^[k] e.session.machine)⟩ := by
  induction k with
  | zero => rfl
  | succ k ih =>
    have hk : (e.halfSteps k).session.machine.Roomy := by
      rw [ih]
      exact h.iterate k
    rw [halfSteps, Function.iterate_succ_apply', ← halfSteps, halfStep_of_roomy hk, ih,
      Function.iterate_succ_apply']
    rfl

end Embedding

namespace Debugger
variable {d : Debugger}

def halfSteps (k : Nat) (d : Debugger) : Debugger := halfStep^[k] d

theorem session_halfStep (h : d.machine.Roomy) :
    d.halfStep.session = d.session.withMachine d.machine.driven := by
  rw [Machine.driven]
  split
  · next hfinished =>
    rw [halfStep, hfinished.1, hfinished.2]
    rfl
  · next hunfinished =>
    rw [halfStep]
    cases hp : d.machine.phase with
    | idle =>
      have hdone : ¬d.machine.isDone = true := fun hdone => hunfinished ⟨hp, hdone⟩
      obtain ⟨i, hi⟩ := Session.firstHalf_of_roomy h hp
      simp only [if_neg hdone, Session.within_firstHalf, hi]
      rfl
    | firstPhaseDone =>
      simp only [Session.within_secondHalf, Session.secondHalf_of_roomy h hp]
      rfl

theorem session_halfSteps (h : d.machine.Roomy) (k : Nat) :
    (d.halfSteps k).session = d.session.withMachine (Machine.driven^[k] d.machine) := by
  induction k with
  | zero => rfl
  | succ k ih =>
    have hk : (d.halfSteps k).machine = Machine.driven^[k] d.machine := congrArg Session.machine ih
    have hroomy : (d.halfSteps k).machine.Roomy := hk ▸ h.driven k
    rw [halfSteps, Function.iterate_succ_apply', ← halfSteps, session_halfStep hroomy, hk, ih,
      Function.iterate_succ_apply']
    rfl

end Debugger

/-! ## The two side by side -/

section
variable {s₀ s : Session} {text : String} {p : Program}

theorem Session.roomy_of_load (hsettings : s₀.settings = {}) (hload : s₀.load text = (s, .ok p)) :
    s.machine.Roomy ∧ s.machine.phase = .idle := by
  have hm := (Session.machine_of_load hload).2
  have hsize := Session.size_of_load hload
  rw [hsettings] at hsize
  refine ⟨⟨hsize, ?_, fun _ => ?_⟩, ?_⟩
  · rw [hm]
    show (0 : Word).toNat < 4096
    decide
  · rw [hm]
    rfl
  · rw [hm]
    rfl

end

/-- The embedding and the debugger show the same machine, and the same counter of instructions. -/
structure Alike (e : Embedding) (d : Debugger) : Prop where
  pc : e.pc = d.machine.pc
  accumulator : e.accumulator = d.machine.accumulator
  memory : e.session.machine.memory = d.machine.memory
  phase : e.session.machine.phase = d.machine.phase
  instructions : e.instructions = d.machine.metrics.instructions

theorem Alike.of_machine {e : Embedding} {d : Debugger} (h : e.session.machine = d.machine) :
    Alike e d where
  pc := congrArg Machine.pc h
  accumulator := congrArg Machine.accumulator h
  memory := congrArg Machine.memory h
  phase := congrArg Machine.phase h
  instructions := congrArg (fun m => m.metrics.instructions) h

/-- **Half steps through the embedding and through the debugger** come to the same until the debugger
has found the program done, and to something else after that. The debugger then changes nothing any
more. The embedding goes on, and everything stays as it is only on a branch that is taken to
itself. -/
theorem half_steps_exact {e₀ : Embedding} {d₀ : Debugger} (he : e₀.session.settings = {})
    (hd : d₀.session.settings = {}) {text : String} {s : Session} {p : Program}
    (hload : (Session.ofSettings {}).load text = (s, .ok p)) :
    let e := (e₀.load text).1
    let d := { d₀ with session := (d₀.session.load text).1 }
    (∀ k, (e.halfSteps k).halfStep.isSome) ∧
      (∀ k, (∀ j < k, ¬(d.halfSteps j).machine.Finished) → Alike (e.halfSteps k) (d.halfSteps k)) ∧
      (∀ k < 2 ^ 65, Alike (e.halfSteps k) (d.halfSteps k) →
        ∀ j < k, ¬(d.halfSteps j).machine.Finished) ∧
      (∀ k, (d.halfSteps k).machine.Finished →
        ∀ n, (d.halfSteps (k + n)).session = (d.halfSteps k).session) ∧
      ∀ k, let m := (e.halfSteps k).session.machine
        m.Finished → ((∀ n, m.SameState (e.halfSteps (k + n)).session.machine) ↔
          m.fetch = .ok (.brz m.pc) ∧ m.accumulator = 0) := by
  intro e d
  have heload : e₀.session.load text = (s, .ok p) := (Session.load_congr he text).trans hload
  have hdload : d₀.session.load text = (s, .ok p) := (Session.load_congr hd text).trans hload
  obtain ⟨hroomy, hidle⟩ := Session.roomy_of_load rfl hload
  have hes : e.session = s := congrArg Prod.fst heload
  have hds : d.session = s := congrArg Prod.fst hdload
  have hem (k : Nat) : (e.halfSteps k).session.machine = Machine.halved^[k] s.machine := by
    rw [Embedding.halfSteps_of_roomy (hes ▸ hroomy), hes]
    rfl
  have hdm (k : Nat) : (d.halfSteps k).session = s.withMachine (Machine.driven^[k] s.machine) := by
    rw [Debugger.session_halfSteps (by rw [Debugger.machine, hds]; exact hroomy), Debugger.machine, hds]
  have hdm' (k : Nat) : (d.halfSteps k).machine = Machine.driven^[k] s.machine :=
    congrArg Session.machine (hdm k)
  refine ⟨fun k => ?_, fun k hunfinished => ?_, fun k hk halike j hj hfinished => ?_,
    fun k hfinished n => ?_, ?_⟩
  · have hk : (e.halfSteps k).session.machine.Roomy := hem k ▸ hroomy.iterate k
    rw [Embedding.halfStep_of_roomy hk]
    rfl
  · simp only [hdm'] at hunfinished
    refine .of_machine ?_
    rw [hem, hdm', Machine.driven_of_unfinished hunfinished]
  · rw [hdm'] at hfinished
    obtain ⟨i, hi, hsame⟩ := Machine.exists_driven_eq hj hfinished
    have hphase := halike.phase
    have hcount : (e.halfSteps k).session.machine.metrics.instructions =
        (d.halfSteps k).machine.metrics.instructions := halike.instructions
    rw [hem, hdm', hsame] at hphase hcount
    -- the embedding is at place `k` of the chain, and the debugger at an earlier one
    have hplace := Machine.atPlace_of_halves hidle (hroomy.halves_eq k)
    have hplace' := Machine.atPlace_of_halves hidle (hroomy.halves_eq i)
    have heq := hplace.unique hplace' hk (hi.trans hk) hphase hcount
    omega
  · rw [hdm'] at hfinished
    rw [hdm, hdm, Machine.driven_of_finished hfinished]
  · intro k m hfinished
    have hm : m = Machine.halved^[k] s.machine := hem k
    have hlater (n : Nat) : (e.halfSteps (k + n)).session.machine = Machine.halved^[n] m := by
      rw [hem, hm, Nat.add_comm, Function.iterate_add_apply]
    simp only [hlater]
    exact Machine.stays_iff (hm ▸ hroomy.iterate k) hfinished.1

/-- One instruction in the embedding. -/
def increment : Embedding := (Embedding.initial.load "INC").1

/-- The same one in the debugger. -/
def incrementing : Debugger := { session := ((Session.ofSettings {}).load "INC").1 }

theorem half_steps_exact_of_increment :
    Alike (increment.halfSteps 2) (incrementing.halfSteps 2) ∧
      ¬Alike (increment.halfSteps 3) (incrementing.halfSteps 3) ∧
      (incrementing.halfSteps 7).session = (incrementing.halfSteps 2).session ∧
      ¬∀ n, (increment.halfSteps 2).session.machine.SameState
        (increment.halfSteps (2 + n)).session.machine := by
  have hrunning : ∀ j < 2, ¬(incrementing.halfSteps j).machine.Finished := by decide +kernel
  have hdone : (incrementing.halfSteps 2).machine.Finished := by decide +kernel
  have hdone' : (increment.halfSteps 2).session.machine.Finished := by decide +kernel
  have hone : (increment.halfSteps 2).session.machine.accumulator ≠ 0 := by decide +kernel
  have hresult : ((Session.ofSettings {}).load "INC").2 = .ok { instructions := [.accu .inc] } := by
    decide +kernel
  have hload : (Session.ofSettings {}).load "INC" =
      (((Session.ofSettings {}).load "INC").1, .ok { instructions := [.accu .inc] }) := by
    rw [← hresult]
  unfold increment incrementing at *
  obtain ⟨-, halike, hunlike, hstays, hgoes⟩ := half_steps_exact
    (show Embedding.initial.session.settings = {} from rfl)
    (show ({ session := .ofSettings {} } : Debugger).session.settings = {} from rfl) hload
  exact ⟨halike 2 hrunning, fun h => hunlike 3 (by decide) h 2 (by decide) hdone,
    hstays 2 hdone 5, fun h => hone ((hgoes 2 hdone').1 h).2⟩

/-- The program is done, and the half step after it stores the accumulator over the program. -/
theorem embedding_overwrites_program :
    (increment.halfSteps 2).isDone = true ∧ (increment.halfSteps 2).session.machine.phase = .idle ∧
      (increment.halfSteps 2).memoryAt 0 = some 0x9000 ∧ (increment.halfSteps 3).memoryAt 0 = some 1 ∧
      (incrementing.halfSteps 3).machine.memory.read 0 = .ok 0x9000 := by
  decide +kernel

end AccumulatorMachine
