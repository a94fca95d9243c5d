import AccumulatorMachine.Proofs.Instruction.Encoding
import AccumulatorMachine.Proofs.Machine.Running

/-! # Straight-line programs

A program that never branches and never stores among its own instructions executes them one after
the other. A run therefore counts them and ends behind the last one, as long as there is an address
behind it; a program that fills the whole range of the program counter begins anew instead.
-/

namespace AccumulatorMachine.Machine
set_option autoImplicit false

/-- The instructions never branch, their cells are cells of a memory of `size`, and what they store
lies behind them. -/
structure Straight (code : List Instruction) (size : Nat) : Prop where
  unbranching : ∀ i ∈ code, i.kind ≠ .brz
  inside : ∀ i ∈ code, ∀ a, i.operand? = some a → a.toNat < size
  apart : ∀ i ∈ code, i.kind = .sto → ∀ a, i.operand? = some a → code.length ≤ a.toNat

/-- The machine is about to fetch, and the instructions stand at the beginning of its memory. -/
structure Holds (code : List Instruction) (m : Machine) : Prop where
  idle : m.phase = .idle
  unmarked : m.branched = false
  room : code.length ≤ m.memory.size
  word : ∀ k i, code[k]? = some i → m.memory.word k = i.encode

theorem Holds.withMetrics {code : List Instruction} {m : Machine} (h : Holds code m)
    (metrics : Metrics) : Holds code (m.withMetrics metrics) :=
  ⟨h.idle, h.unmarked, h.room, h.word⟩

/-! ## One cycle -/

section
variable {code : List Instruction} {m : Machine} {i : Instruction}

theorem Holds.current (h : Holds code m) (hi : code[m.pc.toNat]? = some i) :
    m.current = i.reduced := by
  rw [Machine.current, currentWord, h.word _ i hi, Instruction.decode_encode]

theorem Holds.cycleError? (h : Holds code m) (hs : Straight code m.memory.size)
    (hi : code[m.pc.toNat]? = some i) : m.cycleError? = none := by
  have hlt : m.pc.toNat < code.length := (List.getElem?_eq_some_iff.1 hi).1
  have hroom := h.room
  refine cycleError?_eq_none_iff.2 ⟨h.idle, by omega, ?_⟩
  rw [h.current hi]
  refine Option.eq_none_iff_forall_ne_some.2 fun e he => ?_
  cases fault?_reduced_eq_some_iff.1 he with
  | operand _ ha hle =>
    have hin := hs.inside i (List.mem_of_getElem? hi) _ ha
    omega

/-- A cycle that stores nothing among the instructions leaves all of them in place. -/
theorem Holds.held_retired (h : Holds code m)
    (hstored : ∀ a, m.current = .sto a → code.length ≤ a.toNat) : Holds code m.held.retired := by
  have hkeeps := m.keeps_held.trans m.held.keeps_retired
  refine ⟨rfl, rfl, ?_, ?_⟩
  · rw [hkeeps.size]
    exact h.room
  · intro k j hj
    have hk : k < code.length := (List.getElem?_eq_some_iff.1 hj).1
    have hother (a : Word) (ha : m.current = .sto a) : k ≠ a.toNat := by
      have hbehind := hstored a ha
      omega
    show (m.effect m.current).memory.word k = j.encode
    rw [word_effect hother]
    exact h.word k j hj

theorem target?_of_ne_brz (m : Machine) (h : i.kind ≠ .brz) : m.target? i = none := by
  cases i with
  | brz a => exact absurd rfl h
  | sto | lda | alu | accu | nop => rfl

/-- A cycle executes the next instruction, which leaves all of them in place. -/
theorem Holds.step (h : Holds code m) (hs : Straight code m.memory.size)
    (hi : code[m.pc.toNat]? = some i) :
    ∃ after, m.step = .ok (i.reduced, after) ∧ Holds code after ∧
      after.pc.toNat = (m.pc.toNat + 1) % 4096 := by
  have hcurrent := h.current hi
  have hmem : i ∈ code := List.mem_of_getElem? hi
  have hstep : m.step = .ok (m.current, m.held.retired) :=
    step_eq_ok_iff.2 ⟨h.cycleError? hs hi, rfl, rfl⟩
  refine ⟨m.held.retired, hcurrent ▸ hstep, h.held_retired ?_, ?_⟩
  · intro a ha
    rw [hcurrent] at ha
    have hkind : i.kind = .sto := by rw [← Instruction.kind_reduced, ha]; rfl
    have hoperand : i.operand? = some a := by
      have hcell := i.cell?_reduced
      rw [ha, hkind, if_pos (by decide)] at hcell
      exact hcell.symm
    exact hs.apart i hmem hkind a hoperand
  · rw [toNat_pc_held_retired h.unmarked, target?_of_ne_brz]
    · rfl
    · rw [hcurrent, Instruction.kind_reduced]
      exact hs.unbranching i hmem

end

/-! ## Runs -/

section
variable {code : List Instruction} {m : Machine}

/-- Short of the whole range of the program counter, a run executes what is left of the
instructions and is done. -/
theorem advance_straight (hlast : m.lastAddress = some (UInt16.ofNat (code.length - 1)))
    (hpos : 0 < code.length) (hlen : code.length < 4096) (hs : Straight code m.memory.size)
    (h : Holds code m) (hpc : m.pc.toNat ≤ code.length) {budget : Nat}
    (hbudget : code.length - m.pc.toNat ≤ budget) (count : Nat) :
    let r := advance budget count m
    r.count = count + (code.length - m.pc.toNat) ∧ r.error = none ∧ r.machine.isDone = true := by
  induction budget generalizing m count with
  | zero =>
    have heq : m.pc.toNat = code.length := by omega
    refine ⟨?_, rfl, (isDone_iff hpos (by omega) hlast).2 (by omega)⟩
    show count = count + (code.length - m.pc.toNat)
    omega
  | succ budget ih =>
    cases hdone : m.isDone with
    | true =>
      have hge := (isDone_iff hpos (by omega) hlast).1 hdone
      rw [advance_of_done hdone]
      refine ⟨?_, rfl, hdone⟩
      show count = count + (code.length - m.pc.toNat)
      omega
    | false =>
      have hlt : m.pc.toNat < code.length := by
        refine Nat.lt_of_not_le fun hle => ?_
        rw [(isDone_iff hpos (by omega) hlast).2 hle] at hdone
        cases hdone
      obtain ⟨after, hstep, hafter, hnext⟩ := h.step hs (List.getElem?_eq_getElem hlt)
      have hkeeps := keeps_of_step hstep
      have hnext' : after.pc.toNat = m.pc.toNat + 1 := by omega
      rw [advance_of_step hdone hstep]
      obtain ⟨hcount, herror, hend⟩ := ih (hkeeps.lastAddress.trans hlast)
        (hkeeps.size ▸ hs) hafter (by omega) (by omega) (count + 1)
      refine ⟨?_, herror, hend⟩
      rw [hcount]
      omega

/-- A program that fills the whole range of the program counter is never done. -/
theorem advance_full (hlast : m.lastAddress = some (UInt16.ofNat (code.length - 1)))
    (hlen : code.length = 4096) (hs : Straight code m.memory.size) (h : Holds code m)
    (hpc : m.pc.toNat < 4096) (budget count : Nat) :
    let r := advance budget count m
    r.count = count + budget ∧ r.error = none ∧ r.machine.isDone = false := by
  have hdone : m.isDone = false := by
    rw [← Bool.not_eq_true, isDone_iff (by omega) (by omega) hlast]
    omega
  induction budget generalizing m count with
  | zero => exact ⟨rfl, rfl, hdone⟩
  | succ budget ih =>
    obtain ⟨after, hstep, hafter, hnext⟩ := h.step hs (List.getElem?_eq_getElem (by omega))
    have hkeeps := keeps_of_step hstep
    have hlt : after.pc.toNat < 4096 := by omega
    have hlast' := hkeeps.lastAddress.trans hlast
    have hdone' : after.isDone = false := by
      rw [← Bool.not_eq_true, isDone_iff (by omega) (by omega) hlast']
      omega
    rw [advance_of_step hdone hstep]
    obtain ⟨hcount, herror, hend⟩ := ih hlast' (hkeeps.size ▸ hs) hafter hlt (count + 1) hdone'
    refine ⟨?_, herror, hend⟩
    rw [hcount]
    omega

end

end AccumulatorMachine.Machine
