import AccumulatorMachine.Proofs.Assembly.RoundTrip
import AccumulatorMachine.Proofs.Machine.Trail

/-! # Programs that stay intact

A program whose data and whose stores lie behind its instructions (`Program.Apart`) cannot change
itself. Its instructions then stand in memory as they were assembled, and the machine executes
nothing else (`Machine.Intact`): a first half begins before the program is done, that is, at the
address of one of them. This lasts through whatever drives the machine (`Machine.lasting_intact`).
-/

namespace AccumulatorMachine
set_option autoImplicit false

/-- The data of the program lie behind its instructions, and so do the cells that it stores. -/
structure Program.Apart (p : Program) : Prop where
  data : ∀ c ∈ p.data, p.instructions.length ≤ c.1
  stores : ∀ a, .sto a ∈ p.instructions → p.instructions.length ≤ a.toNat

namespace Machine

/-- The machine has executed only instructions of `p`, each at its own address, and they still
stand there. Of the words of `start`, only those of cells that it has stored are others. -/
structure Intact (p : Program) (start : Memory) (done : List Half) (m : Machine) : Prop where
  lastAddress : m.lastAddress = p.lastAddress
  size : m.memory.size = start.size
  code : ∀ k i, p.instructions[k]? = some i → m.memory.word k = i.encode
  executed : ∀ pc i before, .executed pc i before ∈ done → p.instructions[pc.toNat]? = some i
  untouched : ∀ a, (∀ h ∈ done, h.stored? ≠ some a) → m.memory.word a = start.word a

section
variable {source : String} {size : Nat} {p : Program} {start : Memory} {done : List Half}
  {m : Machine}

/-- Before the program is done, the program counter is at one of its instructions. -/
theorem Intact.pc_lt (h : Intact p start done m) (hp : Program.assemble source size = .ok p)
    (hdone : m.isDone = false) : m.pc.toNat < p.instructions.length := by
  have hlength : p.instructions.length ≤ min size 4096 := Program.length_le_of_assemble hp
  obtain ⟨last, hlast, hle⟩ := isDone_eq_false_iff.1 hdone
  rw [h.lastAddress, Program.lastAddress_eq_some_iff (by omega)] at hlast
  omega

/-- What the machine fetches is that instruction as it was assembled, since its operand has no more
bits than a word has room for. -/
theorem Intact.current (h : Intact p start done m) (hp : Program.assemble source size = .ok p)
    (hdone : m.isDone = false) : p.instructions[m.pc.toNat]? = some m.current := by
  have hlt := h.pc_lt hp hdone
  have hget := List.getElem?_eq_getElem hlt
  have hreduced := Program.reduced_of_assemble hp (List.getElem_mem hlt)
  rw [Machine.current, currentWord, h.code _ _ hget, Instruction.decode_encode, hreduced, hget]

theorem Intact.held (h : Intact p start done m) (hp : Program.assemble source size = .ok p)
    (hapart : p.Apart) (hdone : m.isDone = false) :
    Intact p start (done ++ [.executed m.pc m.current m.accumulator]) m.held := by
  have hcurrent := h.current hp hdone
  refine ⟨(m.effect_lastAddress m.current).trans h.lastAddress,
    (m.size_effect m.current).trans h.size, fun k i hi => ?_, fun pc i before hmem => ?_,
    fun a ha => ?_⟩
  · -- the instruction can only store behind the program
    have hk : k < p.instructions.length := (List.getElem?_eq_some_iff.1 hi).1
    have hstored (b : Word) (hb : m.current = .sto b) : k ≠ b.toNat := by
      rw [hb] at hcurrent
      have hle := hapart.stores b (List.mem_of_getElem? hcurrent)
      omega
    exact (word_effect hstored).trans (h.code k i hi)
  · rw [List.mem_append, List.mem_singleton] at hmem
    obtain hmem | hlast := hmem
    · exact h.executed pc i before hmem
    · cases hlast
      exact hcurrent
  · rw [List.forall_mem_append, List.forall_mem_singleton] at ha
    have hstored (b : Word) (hb : m.current = .sto b) : a ≠ b.toNat := by
      rintro rfl
      rw [hb] at ha
      exact ha.2 rfl
    exact (word_effect hstored).trans (h.untouched a ha.1)

theorem Intact.retired (h : Intact p start done m) :
    Intact p start (done ++ [.retired]) m.retired := by
  refine ⟨h.lastAddress, h.size, h.code, fun pc i before hmem => ?_, fun a ha => ?_⟩
  · rw [List.mem_append, List.mem_singleton] at hmem
    obtain hmem | hlast := hmem
    · exact h.executed pc i before hmem
    · cases hlast
  · rw [List.forall_mem_append] at ha
    exact h.untouched a ha.1

theorem lasting_intact (hp : Program.assemble source size = .ok p) (hapart : p.Apart) :
    Lasting (Intact p start) where
  held h hdone _ := h.held hp hapart hdone
  retired h _ := h.retired
  watched _ _ h := ⟨h.lastAddress, h.size, h.code, h.executed, h.untouched⟩

end

end Machine
end AccumulatorMachine
