import AccumulatorMachine.Proofs.Machine.StraightLine
import AccumulatorMachine.Proofs.Machine.Trail

/-! # Counting down

A loop that takes one from a cell until the cell is zero. Where the loop stands is told by five
numbers (`Countdown`), and a cycle of the machine moves on as they say (`Countdown.At.runs_next`).
One round takes six cycles and leaves the counter one lower; with the counter at zero the machine
leaves the loop in three. So it is known beforehand how a run goes (`Countdown.At.run`).
-/

namespace AccumulatorMachine
set_option autoImplicit false

/-! ## Exact runs -/

namespace Machine

/-- Just `n` whole cycles lead from one machine to the other, each begun before the program was
done. -/
inductive Runs : Nat → Machine → Machine → Prop
  | refl (m : Machine) : Runs 0 m m
  | step {n : Nat} {m mid after : Machine} {i : Instruction} : m.isDone = false →
      m.step = .ok (i, mid) → Runs n mid after → Runs (n + 1) m after

theorem Runs.trans {n k : Nat} {m mid after : Machine} (h : Runs n m mid) (h' : Runs k mid after) :
    Runs (n + k) m after := by
  induction h with
  | refl => simpa using h'
  | @step n m _ _ i hdone hstep _ ih =>
    have hsum : n + 1 + k = n + k + 1 := by omega
    rw [hsum]
    exact .step hdone hstep (ih h')

theorem Runs.advance_of_le {n : Nat} {m after : Machine} (h : Runs n m after)
    (hdone : after.isDone = true) {budget : Nat} (hle : n ≤ budget) (count : Nat) :
    advance budget count m = { machine := after, count := count + n } := by
  induction h generalizing budget count with
  | refl => exact advance_of_done hdone budget count
  | @step n _ _ _ _ hgoes hstep _ ih =>
    obtain ⟨rest, rfl⟩ : ∃ rest, budget = rest + 1 := ⟨budget - 1, by omega⟩
    have hsum : count + 1 + n = count + (n + 1) := by omega
    rw [advance_of_step hgoes hstep, ih hdone (by omega), hsum]

theorem Runs.advance_of_lt {n : Nat} {m after : Machine} (h : Runs n m after) {budget : Nat}
    (hlt : budget < n) (count : Nat) :
    ∃ mid, mid.isDone = false ∧
      advance budget count m = { machine := mid, count := count + budget } := by
  induction h generalizing budget count with
  | refl => omega
  | @step n m _ _ _ hgoes hstep _ ih =>
    cases budget with
    | zero => exact ⟨m, hgoes, rfl⟩
    | succ budget =>
      obtain ⟨mid, hmid, hrest⟩ := ih (Nat.lt_of_succ_lt_succ hlt) (count + 1)
      have hsum : count + 1 + budget = count + (budget + 1) := by omega
      exact ⟨mid, hmid, by rw [advance_of_step hgoes hstep, hrest, hsum]⟩

end Machine

/-! ## The loop -/

/-- Where the loop stands: at which address, with what in the accumulator and in the counter, and
after how many branches. -/
structure Countdown where
  pc : Nat
  accumulator : Word
  counter : Word
  branches : Nat

namespace Countdown

/-- The counter is the cell at 100, and the cell at 101 holds a one. -/
def code : List Instruction :=
  [.lda 100, .brz 6, .alu .sub 101, .sto 100, .accu .zro, .brz 0, .nop]

/-- The word of one of the two cells. -/
def cell (x : Countdown) (a : Word) : Word := if a = 100 then x.counter else 1

/-- What comes of the instruction `i` of the loop. -/
def does (x : Countdown) (i : Instruction) : Countdown :=
  match i with
  | .sto _ => { x with pc := x.pc + 1, counter := x.accumulator }
  | .lda a => { x with pc := x.pc + 1, accumulator := x.cell a }
  | .brz a =>
    if x.accumulator = 0 then { x with pc := a.toNat, branches := x.branches + 1 }
    else { x with pc := x.pc + 1 }
  | .alu op a => { x with pc := x.pc + 1, accumulator := op.apply x.accumulator (x.cell a) }
  | .accu op => { x with pc := x.pc + 1, accumulator := op.apply x.accumulator }
  | .nop => { x with pc := x.pc + 1 }

theorem does_brz (x : Countdown) (a : Word) :
    (x.does (.brz a)).accumulator = x.accumulator ∧ (x.does (.brz a)).counter = x.counter := by
  by_cases h : x.accumulator = 0
  · simp [does, h]
  · simp [does, h]

/-- Where the loop stands after the next cycle. -/
def next (x : Countdown) : Countdown := (code[x.pc]?.map x.does).getD x

/-- The machine is about to fetch where `x` says, with the loop in its memory. -/
structure At (x : Countdown) (m : Machine) : Prop where
  holds : Machine.Holds code m
  size : 101 < m.memory.size
  lastAddress : m.lastAddress = some 6
  pc : m.pc.toNat = x.pc
  accumulator : m.accumulator = x.accumulator
  counter : m.memory.word 100 = x.counter
  one : m.memory.word 101 = 1
  branches : m.metrics.branches = UInt64.ofNat x.branches

variable {x : Countdown} {m : Machine} {i : Instruction}

theorem At.isDone_iff (h : x.At m) : m.isDone = true ↔ 7 ≤ x.pc := by
  rw [← h.pc]
  exact Machine.isDone_iff (by omega) (by omega) h.lastAddress

/-! ## One cycle -/

theorem mem_code_iff : i ∈ code ↔ i = .lda 100 ∨ i = .brz 6 ∨ i = .alu .sub 101 ∨ i = .sto 100 ∨
    i = .accu .zro ∨ i = .brz 0 ∨ i = .nop := by
  simp [code]

theorem At.current (h : x.At m) (hi : code[x.pc]? = some i) : m.current = i := by
  have hcurrent := h.holds.current (h.pc ▸ hi)
  have hmem : i ∈ code := List.mem_of_getElem? hi
  rw [hcurrent]
  rw [mem_code_iff] at hmem
  rcases hmem with rfl | rfl | rfl | rfl | rfl | rfl | rfl <;> rfl

theorem At.word_cell (h : x.At m) {a : Word} (ha : a = 100 ∨ a = 101) :
    m.memory.word a.toNat = x.cell a := by
  obtain rfl | rfl := ha
  · exact h.counter
  · exact h.one

theorem At.cycleError? (h : x.At m) (hi : code[x.pc]? = some i) : m.cycleError? = none := by
  have hlt : x.pc < code.length := (List.getElem?_eq_some_iff.1 hi).1
  have hroom := h.holds.room
  have hsize := h.size
  have hpc := h.pc
  have hmem : i ∈ code := List.mem_of_getElem? hi
  rw [Machine.cycleError?_eq_none_iff, h.current hi]
  refine ⟨h.holds.idle, by omega, ?_⟩
  have hcell (a : Word) (ha : a.toNat ≤ 101) : m.faultAt? a = none :=
    Machine.faultAt?_eq_none_iff.2 (by omega)
  rw [mem_code_iff] at hmem
  rcases hmem with rfl | rfl | rfl | rfl | rfl | rfl | rfl
  · exact hcell 100 (by decide)
  · rfl
  · exact hcell 101 (by decide)
  · exact hcell 100 (by decide)
  · rfl
  · rfl
  · rfl

/-- Whatever the instruction, the loop itself stays in memory, and so does the one. -/
theorem At.frame (h : x.At m) (hi : code[x.pc]? = some i) :
    Machine.Holds code m.held.retired ∧ 101 < m.held.retired.memory.size ∧
      m.held.retired.lastAddress = some 6 ∧ m.held.retired.memory.word 101 = 1 := by
  have hmem : i ∈ code := List.mem_of_getElem? hi
  have hkeeps := m.keeps_held.trans m.held.keeps_retired
  -- the one cell that is stored to lies behind the loop and is not that of the one
  have hstored (a : Word) (ha : m.current = .sto a) : a = 100 := by
    rw [h.current hi] at ha
    subst ha
    simpa [mem_code_iff] using hmem
  refine ⟨h.holds.held_retired ?_, ?_, ?_, ?_⟩
  · intro a ha
    rw [hstored a ha]
    decide
  · rw [hkeeps.size]
    exact h.size
  · rw [hkeeps.lastAddress]
    exact h.lastAddress
  · show (m.effect m.current).memory.word 101 = 1
    rw [Machine.word_effect, h.one]
    intro a ha
    rw [hstored a ha]
    decide

theorem At.pc_does (h : x.At m) (hi : code[x.pc]? = some i) :
    m.held.retired.pc.toNat = (x.does i).pc := by
  have hlt : x.pc < 7 := (List.getElem?_eq_some_iff.1 hi).1
  rw [Machine.toNat_pc_held_retired h.holds.unmarked, h.current hi, h.pc]
  cases i with
  | brz a =>
    have ha : a.toNat % 4096 = a.toNat := by
      have hmem : .brz a ∈ code := List.mem_of_getElem? hi
      simp only [mem_code_iff, Instruction.brz.injEq, reduceCtorEq, or_false, false_or] at hmem
      obtain rfl | rfl := hmem <;> rfl
    by_cases hzero : x.accumulator = 0
    · simp [Machine.target?, Countdown.does, h.accumulator, hzero, ha]
    · simp [Machine.target?, Countdown.does, h.accumulator, hzero]
      omega
  | sto | lda | alu | accu | nop =>
    simp only [Machine.target?, Countdown.does, Option.map_none, Option.getD_none]
    omega

theorem At.accumulator_does (h : x.At m) (hi : code[x.pc]? = some i) :
    m.held.retired.accumulator = (x.does i).accumulator := by
  have hmem : i ∈ code := List.mem_of_getElem? hi
  rw [Machine.retired_accumulator]
  show (m.effect m.current).accumulator = _
  rw [h.current hi]
  cases i with
  | lda a =>
    have ha : a = 100 := by simpa [mem_code_iff] using hmem
    exact h.word_cell (.inl ha)
  | alu op a =>
    have ha : a = 101 := by simp [mem_code_iff] at hmem; exact hmem.2
    show op.apply m.accumulator (m.memory.word a.toNat) = _
    rw [h.word_cell (.inr ha), h.accumulator]
    rfl
  | accu op =>
    show op.apply m.accumulator = _
    rw [h.accumulator]
    rfl
  | brz a =>
    rw [m.effect_brz_accumulator, h.accumulator]
    exact (x.does_brz a).1.symm
  | sto | nop => exact h.accumulator

theorem At.counter_does (h : x.At m) (hi : code[x.pc]? = some i) :
    m.held.retired.memory.word 100 = (x.does i).counter := by
  have hmem : i ∈ code := List.mem_of_getElem? hi
  have hsize : (100 : Word).toNat < m.memory.size := Nat.lt_trans (by decide) h.size
  show (m.effect m.current).memory.word 100 = _
  rw [h.current hi, Machine.effect_memory]
  cases i with
  | sto a =>
    have ha : a = 100 := by simpa [mem_code_iff] using hmem
    subst ha
    exact (Memory.word_put m.memory m.accumulator hsize 100).trans h.accumulator
  | brz a => exact h.counter.trans (x.does_brz a).2.symm
  | lda | alu | accu | nop => exact h.counter

theorem At.branches_does (h : x.At m) (hi : code[x.pc]? = some i) :
    m.held.retired.metrics.branches = UInt64.ofNat (x.does i).branches := by
  show (m.effect m.current).metrics.branches = _
  rw [m.effect_branches m.current, h.current hi, h.branches, h.accumulator]
  cases i with
  | brz a =>
    by_cases hzero : x.accumulator = 0
    · simp [Countdown.does, Instruction.kind, hzero, UInt64.ofNat_add]
    · simp [Countdown.does, Instruction.kind, hzero]
  | sto | lda | alu | accu | nop => simp [Countdown.does, Instruction.kind]

theorem At.runs_next (h : x.At m) (hpc : x.pc < 7) :
    ∃ after, Machine.Runs 1 m after ∧ x.next.At after := by
  have hlt : x.pc < code.length := hpc
  have hi : code[x.pc]? = some code[x.pc] := List.getElem?_eq_getElem hlt
  obtain ⟨hholds, hsize, hlast, hone⟩ := h.frame hi
  have hgoes : m.isDone = false := by
    rw [← Bool.not_eq_true, h.isDone_iff]
    omega
  have hstep : m.step = .ok (m.current, m.held.retired) :=
    Machine.step_eq_ok_iff.2 ⟨h.cycleError? hi, rfl, rfl⟩
  refine ⟨m.held.retired, .step hgoes hstep (.refl _), ?_⟩
  rw [next, hi]
  exact ⟨hholds, hsize, hlast, h.pc_does hi, h.accumulator_does hi, h.counter_does hi, hone,
    h.branches_does hi⟩

/-! ## Rounds -/

/-- The loop comes from `x` to `y` in just `n` cycles, each of them at an instruction. -/
def Leads : Nat → Countdown → Countdown → Prop
  | 0, x, y => x = y
  | n + 1, x, y => x.pc < 7 ∧ Leads n x.next y

theorem Leads.trans {n k : Nat} {x y z : Countdown} (h : Leads n x y) (h' : Leads k y z) :
    Leads (n + k) x z := by
  induction n generalizing x with
  | zero =>
    cases h
    simpa using h'
  | succ n ih =>
    have hsum : n + 1 + k = n + k + 1 := by omega
    rw [hsum]
    exact ⟨h.1, ih h.2⟩

theorem leads_round {a c : Word} {b : Nat} (hc : c ≠ 0) :
    Leads 6 ⟨0, a, c, b⟩ ⟨0, 0, c - 1, b + 1⟩ := by
  simp [Leads, next, code, does, cell, AluOp.apply, AccuOp.apply, hc]

theorem leads_out (a : Word) (b : Nat) : Leads 3 ⟨0, a, 0, b⟩ ⟨7, 0, 0, b + 1⟩ := by
  simp [Leads, next, code, does, cell]

/-- As many rounds as the counter says, and then the way out. -/
theorem leads_down (a c : Word) (b : Nat) :
    Leads (6 * c.toNat + 3) ⟨0, a, c, b⟩ ⟨7, 0, 0, b + c.toNat + 1⟩ := by
  generalize hn : c.toNat = n
  -- a round begins by loading the counter, so the accumulator may be anything
  induction n generalizing a b c with
  | zero =>
    have hc : c = 0 := UInt16.toNat_inj.1 hn
    subst hc
    exact leads_out a b
  | succ n ih =>
    have hc : c ≠ 0 := by
      rintro rfl
      cases hn
    have hone : 1 ≤ c := by
      rw [UInt16.le_iff_toNat_le, hn]
      exact Nat.succ_pos n
    have hpred : (c - 1).toNat = n := by
      rw [UInt16.toNat_sub_of_le _ _ hone, hn]
      rfl
    have hcycles : 6 * (n + 1) + 3 = 6 + (6 * n + 3) := by omega
    have hbranches : b + (n + 1) + 1 = b + 1 + n + 1 := by omega
    rw [hcycles, hbranches]
    exact (leads_round hc).trans (ih 0 (c - 1) (b + 1) hpred)

theorem At.runs {n : Nat} {y : Countdown} (h : x.At m) (hleads : Leads n x y) :
    ∃ after, Machine.Runs n m after ∧ y.At after := by
  induction n generalizing x m with
  | zero =>
    cases hleads
    exact ⟨m, .refl m, h⟩
  | succ n ih =>
    obtain ⟨mid, hnext, hmid⟩ := h.runs_next hleads.1
    obtain ⟨after, hrest, hafter⟩ := ih hmid hleads.2
    rw [Nat.add_comm]
    exact ⟨after, hnext.trans hrest, hafter⟩

theorem At.watched (h : x.At m) (running measured : Bool) : x.At (m.watched running measured) :=
  ⟨⟨h.holds.idle, h.holds.unmarked, h.holds.room, h.holds.word⟩, h.size, h.lastAddress, h.pc,
    h.accumulator, h.counter, h.one, h.branches⟩

/-- How a run of the loop ends, with budget enough and with less. -/
theorem At.run {a c : Word} {b : Nat} (h : At ⟨0, a, c, b⟩ m) (budget : Nat) :
    (6 * c.toNat + 3 ≤ budget → ∃ after,
      m.run budget = { machine := after, count := 6 * c.toNat + 3 } ∧
      At ⟨7, 0, 0, b + c.toNat + 1⟩ after) ∧
    (budget < 6 * c.toNat + 3 → ∃ after,
      m.run budget = { machine := after, count := budget } ∧ after.isDone = false) := by
  obtain ⟨after, hruns, hafter⟩ := h.runs (leads_down a c b)
  rw [Machine.run_eq_watched]
  constructor
  · intro hle
    have hdone : after.isDone = true := hafter.isDone_iff.2 (Nat.le_refl 7)
    refine ⟨after.watched false true, ?_, hafter.watched false true⟩
    rw [hruns.advance_of_le hdone hle, Nat.zero_add]
  · intro hlt
    obtain ⟨mid, hmid, hadvance⟩ := hruns.advance_of_lt hlt 0
    refine ⟨mid.watched false true, ?_, hmid⟩
    rw [hadvance, Nat.zero_add]

/-- What there is to see behind the loop. -/
theorem At.seen {b : Nat} (h : At ⟨7, 0, 0, b⟩ m) :
    m.isDone = true ∧ m.memory.cells[100]? = some 0 ∧ m.memory.cells[101]? = some 1 ∧
      m.accumulator = 0 ∧ m.pc = 7 ∧ m.metrics.branches = UInt64.ofNat b := by
  have hsize := h.size
  refine ⟨h.isDone_iff.2 (Nat.le_refl 7), ?_, ?_, h.accumulator, UInt16.toNat_inj.1 h.pc, h.branches⟩
  · rw [Memory.getElem?_eq_some_iff]
    exact ⟨by omega, h.counter.symm⟩
  · rw [Memory.getElem?_eq_some_iff]
    exact ⟨hsize, h.one.symm⟩

end Countdown
end AccumulatorMachine
