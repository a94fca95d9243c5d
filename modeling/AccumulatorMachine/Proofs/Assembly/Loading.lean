import AccumulatorMachine.Proofs.Assembly.Image
import AccumulatorMachine.Proofs.Machine.InPlace

/-! # Loading

A program is put into memory cell by cell and in place, so that a load could stop half way. It never
does: whatever has been assembled for a memory fits into it, and a text that is refused is refused
before the first cell is written. So a load comes to the machine with the program
(`Machine.withProgram`), or it leaves the machine as it was.
-/

namespace AccumulatorMachine
set_option autoImplicit false
open Assembly

/-! ## Putting a program into memory -/

namespace Machine

def withProgram (m : Machine) (p : Program) : Machine :=
  { m with memory := m.memory.putAll p.image, lastAddress := p.lastAddress }

@[simp] theorem size_withProgram (m : Machine) (p : Program) :
    (m.withProgram p).memory.size = m.memory.size :=
  Memory.size_putAll m.memory p.image

end Machine

namespace InPlace

/-- Cells that memory has are all written, one after the other. -/
theorem writeCells_eq {m : Machine} {cells : List (Nat × Word)}
    (h : ∀ c ∈ cells, c.1 < m.memory.size) :
    writeCells cells m = .ok () { m with memory := m.memory.putAll cells } := by
  induction cells generalizing m with
  | nil => rfl
  | cons c cells ih =>
    -- the first cell written, the others still lie inside
    have hrest : ∀ d ∈ cells, d.1 < (m.memory.put c.1 c.2).size := by
      intro d hd
      rw [Memory.size_put]
      exact h d (List.mem_cons_of_mem c hd)
    rw [writeCells, writeCell_eq_ite, if_pos (h c List.mem_cons_self)]
    exact ih hrest

theorem place_eq {m : Machine} {p : Program} (h : ∀ c ∈ p.image, c.1 < m.memory.size) :
    place p m = .ok () (m.withProgram p) := by
  show EStateM.bind (writeCells p.image) (fun _ => modify ({ · with lastAddress := p.lastAddress }))
    m = _
  rw [EStateM.bind, writeCells_eq h]
  rfl

/-- A load fails only where the text cannot be assembled, and then it has changed nothing. -/
theorem load_eq (m : Machine) (source : String) :
    load source m =
      match Program.assemble source m.memory.size with
      | .ok p => .ok p (m.withProgram p)
      | .error e => .error e m := by
  show EStateM.bind (ofExcept (Program.assemble source m.memory.size)) (fun p =>
    EStateM.bind (EStateM.adaptExcept AssemblyError.memory (place p)) (fun _ => pure p)) m = _
  cases h : Program.assemble source m.memory.size with
  | error e => rfl
  | ok p =>
    have hplace := place_eq (Program.image_inside h)
    show EStateM.bind (EStateM.adaptExcept AssemblyError.memory (place p)) (fun _ => pure p) m = _
    rw [EStateM.bind, EStateM.adaptExcept, hplace]
    rfl

theorem atomic_load (source : String) : Atomic (load source) := by
  intro m e after h
  rw [load_eq] at h
  cases hp : Program.assemble source m.memory.size with
  | ok p =>
    rw [hp] at h
    cases h
  | error e' =>
    rw [hp] at h
    cases h
    rfl

end InPlace

/-! ## Loads from outside -/

namespace Machine

theorem load_eq_ok_iff {m after : Machine} {source : String} {p : Program} :
    m.load source = .ok (p, after) ↔
      Program.assemble source m.memory.size = .ok p ∧ after = m.withProgram p := by
  rw [load, InPlace.outcome, InPlace.load_eq]
  cases Program.assemble source m.memory.size with
  | error e => simp
  | ok q =>
    simp only [Except.ok.injEq, Prod.mk.injEq]
    constructor
    · rintro ⟨rfl, rfl⟩
      exact ⟨rfl, rfl⟩
    · rintro ⟨rfl, rfl⟩
      exact ⟨rfl, rfl⟩

end Machine

/-! ## All or nothing -/

/-- No text is refused because its program does not go into memory. -/
theorem Assembly.Refuses.ne_memory {source : String} {size : Nat} {e : AssemblyError}
    (h : Refuses source size e) (fault : AddressFault) : e ≠ .memory fault := by
  rintro rfl
  cases h with
  | statement _ _ _ _ _ hfault => cases hfault

namespace InPlace

/-- **A load does all or nothing.** A text that is refused leaves the machine as it was, and the
reason is never a cell that memory does not have. Else each cell holds what the program says about
its address, the last datum before the instruction, and what it held before where the program says
nothing; the last address is that of the last instruction, and all else stays. -/
theorem load_all_or_nothing (m : Machine) (source : String) :
    match load source m with
    | .error e after =>
      Refuses source m.memory.size e ∧ (∀ fault, e ≠ .memory fault) ∧ after = m
    | .ok p after =>
      Assembles source m.memory.size p ∧ after.memory.size = m.memory.size ∧
      (∀ a, after.memory.read a = (m.memory.read a).map fun w => (p.word? a).getD w) ∧
      (∀ a, after.lastAddress = some a ↔ a.toNat + 1 = p.instructions.length) ∧
      after = { m with memory := after.memory, lastAddress := after.lastAddress } := by
  rw [load_eq]
  cases h : Program.assemble source m.memory.size with
  | error e =>
    have hrefuses := assemble_eq_error_iff.1 h
    exact ⟨hrefuses, hrefuses.ne_memory, rfl⟩
  | ok p =>
    have hlength : p.instructions.length ≤ min m.memory.size 4096 := Program.length_le_of_assemble h
    refine ⟨assemble_eq_ok_iff.1 h, m.size_withProgram p, fun a => ?_, fun a => ?_, rfl⟩
    · have hword := Program.word_putAll_image (Program.image_inside h) a
      rw [Memory.read_eq, Memory.read_eq, m.size_withProgram p]
      by_cases ha : a < m.memory.size
      · rw [if_pos ha, if_pos ha]
        exact congrArg Except.ok hword
      · rw [if_neg ha, if_neg ha]
        exact congrArg Except.error (Memory.faultAt_congr (m.size_withProgram p) a)
    · exact Program.lastAddress_eq_some_iff (by omega)

end InPlace

end AccumulatorMachine
