import AccumulatorMachine.Json.Forms
import AccumulatorMachine.Json.Reader
import AccumulatorMachine.Proofs.Machine.Trail
import AccumulatorMachine.Proofs.Session.History

/-! # The range of the program counter

Whatever sets the program counter sets it to an address of twelve bits, except that a register file
may be read from a text, which gives any number (`Registers.Obtained`). The number stays until the
program counter is set, also in a machine that the registers have been put into
(`Machine.Ranges`). So the program counter is an address of twelve bits, and a machine with a cell
for each of them can always fetch, unless it is still the number that was read.
-/

namespace AccumulatorMachine
set_option autoImplicit false

/-! ## Register files -/

namespace Registers

/-- The register file that a text stands for. -/
def ofText? (text : String) : Option Registers := (Json.read? text).bind ofJson?

/-- The register files that can be come by. The program counter that was read is `given`, as long
as it has not been set since. -/
inductive Obtained : Option Word → Registers → Prop
  | new : Obtained none {}
  | read {text : String} {r : Registers} : ofText? text = some r → Obtained (some r.pc) r
  | jump {given : Option Word} {r : Registers} (target : Word) :
      Obtained given r → Obtained none (r.jump target)
  | advance {given : Option Word} {r : Registers} : Obtained given r → Obtained none r.advance
  | reset {given : Option Word} {r : Registers} : Obtained given r → Obtained none {}
  /-- The accumulator is open to everyone. -/
  | accumulate {given : Option Word} {r : Registers} (w : Word) :
      Obtained given r → Obtained given { r with accumulator := w }

theorem Obtained.range {given : Option Word} {r : Registers} (h : Obtained given r) :
    (given = none ∧ r.pc.toNat < 4096) ∨ given = some r.pc := by
  induction h with
  | new => exact .inl ⟨rfl, by decide⟩
  | read => exact .inr rfl
  | jump target => exact .inl ⟨rfl, toNat_jump_pc_lt _ target⟩
  | advance => exact .inl ⟨rfl, toNat_advance_pc_lt _⟩
  | reset => exact .inl ⟨rfl, by decide⟩
  | accumulate w _ ih => exact ih

end Registers

/-! ## Machines -/

namespace Machine

variable {m after : Machine}

theorem ranges_halves {n : Nat} (h : m.halves n = .ok after) : m.Ranges after := by
  -- what has been done does not matter here
  refine @halves_induction (fun _ after => m.Ranges after) m after n [] h (.refl m) ?_ ?_
  · intro _ after hafter _
    exact hafter.trans (after.ranges_effect after.current)
  · intro _ after hafter _
    exact hafter.trans after.ranges_retired

theorem ranges_run (m : Machine) (budget : Nat) : m.Ranges (m.run budget).machine := by
  obtain ⟨k, -, hsteps⟩ := steps_of_advance budget 0 m
  have hadvance : m.Ranges (advance budget 0 m).machine := ranges_halves (halves_of_steps hsteps)
  rw [run_eq_watched]
  exact hadvance

theorem fetch_of_lt (h : m.pc.toNat < m.memory.size) : m.fetch = .ok m.current := by
  rw [fetch, Memory.read_word, if_pos h]
  rfl

theorem fetch_of_le (h : m.memory.size ≤ m.pc.toNat) :
    m.fetch = .error ⟨m.pc.toNat, m.memory.size⟩ := by
  rw [fetch, Memory.read_word, if_neg (Nat.not_lt.2 h)]
  rfl

end Machine

/-! ## Sessions -/

namespace Session

/-- No operation but the replacement of the registers gives the program counter more bits than an
address has. -/
theorem ranges_perform {s : Session} {o : Operation} (ho : ∀ r, o ≠ .setRegisters r) :
    s.machine.Ranges (s.perform o).machine := by
  cases o with
  | load text =>
    obtain ⟨memory, last, h⟩ := s.machine_load text
    rw [perform, h]
    exact .inl (Nat.zero_lt_succ 4095)
  | reset =>
    obtain ⟨memory, last, h⟩ := s.machine_reset
    rw [perform, h]
    exact .inl (Nat.zero_lt_succ 4095)
  | insert text =>
    rw [perform_insert]
    cases h : s.machine.load text with
    | error e => exact .refl s.machine
    | ok r =>
      obtain ⟨p, m⟩ := r
      obtain ⟨-, rfl⟩ := Machine.load_eq_ok_iff.1 h
      exact .inr rfl
  | stride x =>
    rw [perform_stride]
    cases h : s.stride x with
    | error e => exact .refl s.machine
    | ok after =>
      obtain ⟨m, hm, rfl⟩ := stride_eq_ok_iff.1 h
      exact Machine.ranges_halves (Machine.halves_of_stride hm)
  | run budget => exact s.machine.ranges_run budget
  | runToEnd patience =>
    obtain h | h := s.perform_runToEnd patience
    · rw [h]
      exact .refl s.machine
    · rw [h]
      exact s.machine.ranges_run patience
  | execute i =>
    rw [perform_execute]
    cases h : s.machine.execute i with
    | error e => exact .refl s.machine
    | ok m =>
      obtain ⟨-, rfl⟩ := Machine.execute_eq_ok_iff.1 h
      exact s.machine.ranges_effect i.reduced
  | jump target => exact .inl (Registers.toNat_jump_pc_lt s.machine.registers target)
  | write address w =>
    rw [perform]
    cases s.machine.memory.write address w with
    | error e => exact .refl s.machine
    | ok memory => exact .inr rfl
  | setRegisters registers => exact absurd rfl (ho registers)
  | setMemory memory => exact .inr rfl

theorem ranges_after {s : Session} {history : List Operation}
    (h : ∀ o ∈ history, ∀ r, o ≠ .setRegisters r) : s.machine.Ranges (s.after history).machine := by
  induction history with
  | nil => exact .refl s.machine
  | cons o earlier ih =>
    rw [List.forall_mem_cons] at h
    exact (ih h.2).trans (ranges_perform h.1)

/-- **The program counter is an address of twelve bits, unless it is still a greater number that was
read.** This is so for every register file that can be come by, and for every machine that was given
such registers, whatever has happened to it since. A machine with 4096 cells then fetches, just if
the program counter is such an address, and the fault that it reports otherwise names the number
that was read. -/
theorem program_counter_range_exact {given : Option Word} {r : Registers}
    (hr : Registers.Obtained given r) :
    (r.pc.toNat < 4096 ↔ ∀ w, given = some w → w.toNat < 4096) ∧
    ∀ (s : Session) (history : List Operation), (∀ o ∈ history, ∀ other, o ≠ .setRegisters other) →
      let m := ((s.perform (.setRegisters r)).after history).machine
      (m.pc.toNat < 4096 ↔ ∀ w, given = some w → m.pc = w → w.toNat < 4096) ∧
      (m.memory.size = fullSize →
        ((∃ i, m.fetch = .ok i) ↔ m.pc.toNat < 4096) ∧
        ∀ e, m.fetch = .error e → given = some m.pc ∧ e = ⟨m.pc.toNat, fullSize⟩) := by
  have hrange := hr.range
  refine ⟨?_, ?_⟩
  · obtain ⟨rfl, hlt⟩ | rfl := hrange
    · simp [hlt]
    · simp
  · intro s history hhistory m
    have hranges : m.pc.toNat < 4096 ∨ m.pc = r.pc := ranges_after hhistory
    -- a program counter that is no address has not been set since it was read
    have hread (hle : 4096 ≤ m.pc.toNat) : given = some m.pc := by
      obtain hlt | heq := hranges
      · omega
      · rw [heq] at hle ⊢
        obtain ⟨-, hlt⟩ | hgiven := hrange
        · omega
        · exact hgiven
    have hexact : m.pc.toNat < 4096 ↔ ∀ w, given = some w → m.pc = w → w.toNat < 4096 := by
      refine ⟨fun hlt w _ hw => hw ▸ hlt, fun h => ?_⟩
      refine Nat.lt_of_not_le fun hle => ?_
      have hlt := h m.pc (hread hle) rfl
      omega
    refine ⟨hexact, fun hsize => ⟨⟨?_, fun hlt => ?_⟩, fun e he => ?_⟩⟩
    · rintro ⟨i, hi⟩
      refine Nat.lt_of_not_le fun hle => ?_
      rw [Machine.fetch_of_le (hsize.trans_le hle)] at hi
      cases hi
    · exact ⟨m.current, Machine.fetch_of_lt (hsize ▸ hlt)⟩
    · have hle : m.memory.size ≤ m.pc.toNat := by
        refine Nat.le_of_not_lt fun hlt => ?_
        rw [Machine.fetch_of_lt hlt] at he
        cases he
      rw [Machine.fetch_of_le hle, hsize] at he
      rw [hsize] at hle
      exact ⟨hread hle, (Except.error.inj he).symm⟩

/-- The registers of a text whose program counter has thirteen bits. -/
def overlong : Registers := { pc := 5000 }

theorem ofText?_overlong : Registers.ofText? "[0,5000]" = some overlong := by decide +kernel

theorem program_counter_range_exact_of_overlong :
    Registers.Obtained (some 5000) overlong ∧ ¬overlong.pc.toNat < 4096 ∧
      (∀ o ∈ [Operation.jump 5000], ∀ other, o ≠ .setRegisters other) ∧
      (((ofSettings {}).perform (.setRegisters overlong)).after [.jump 5000]).machine.pc = 904 ∧
      ∃ i, (((ofSettings {}).perform (.setRegisters overlong)).after [.jump 5000]).machine.fetch =
        .ok i := by
  have hread : Registers.Obtained (some 5000) overlong := .read ofText?_overlong
  have hhistory : ∀ o ∈ [Operation.jump 5000], ∀ other, o ≠ .setRegisters other := by simp
  obtain ⟨hrange, hmachine⟩ := program_counter_range_exact hread
  obtain ⟨-, hfetch⟩ := hmachine (ofSettings {}) [.jump 5000] hhistory
  have hsize : (freshMachine {}).memory.size = fullSize := Memory.size_zeros _
  refine ⟨hread, fun hlt => absurd (hrange.1 hlt 5000 rfl) (by decide), hhistory, rfl, ?_⟩
  exact (hfetch hsize).1.2 (by decide)

/-- A machine with all 4096 cells cannot fetch with these registers. -/
theorem overlong_cannot_step :
    Registers.ofText? "[0,5000]" = some overlong ∧
      ¬((ofSettings {}).perform (.setRegisters overlong)).machine.pc.toNat < 4096 ∧
      ((ofSettings {}).perform (.setRegisters overlong)).machine.memory.size = fullSize ∧
      ((ofSettings {}).perform (.setRegisters overlong)).machine.step =
        .error (.memory ⟨5000, fullSize⟩) := by
  have hsize : ((ofSettings {}).perform (.setRegisters overlong)).machine.memory.size = fullSize :=
    Memory.size_zeros _
  refine ⟨ofText?_overlong, by decide, hsize, ?_⟩
  rw [Machine.step_eq_error_iff, Machine.cycleError?_eq_some_iff, ← hsize]
  refine .fetch rfl ?_
  rw [hsize]
  decide

end Session
end AccumulatorMachine
