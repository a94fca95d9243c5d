import AccumulatorMachine.Proofs.Assembly.RoundTrip
import AccumulatorMachine.Proofs.Machine.StraightLine
import AccumulatorMachine.Proofs.Session.Reached

/-! # The end of a program

A program is done once the program counter is past its last instruction. It gets there behind the
last instruction, and by a branch to a label that stands behind the last instruction, whenever
there is an address behind it: a program as long as the range of the program counter has none. The
counter is then at zero again, where the program begins.
-/

namespace AccumulatorMachine
set_option autoImplicit false
open Assembly

/-! ## Branches to the end -/

namespace Machine

theorem target?_of_taken {m : Machine} (a : Word) (h : m.accumulator = 0) :
    m.target? (.brz a) = some a := by
  rw [target?, h]
  rfl

end Machine

/-- The instruction of a branch to a name is a branch to the value of the name. -/
theorem Program.brz_of_name {source : String} {size : Nat} {p : Program}
    (h : assemble source size = .ok p) {texts : List (List Char)} {ls : List Line}
    (hreads : Reads source texts ls) {k : Nat} {s : String} {i : Instruction} {n : Nat}
    (hcommand : (commands ls)[k]? = some ⟨.brz, some (.name s)⟩)
    (hi : p.instructions[k]? = some i) (hs : (s, (n : Int)) ∈ p.symbols) :
    i = .brz (UInt16.ofNat (n % 4096)) := by
  obtain ⟨texts', ls', hreads', hp⟩ := assemble_eq_ok_iff.1 h
  obtain ⟨-, rfl⟩ := hreads.unique hreads'
  have hmeans : CommandMeans ls ⟨.brz, some (.name s)⟩ i := by
    obtain ⟨hk, hget⟩ := List.getElem?_eq_some_iff.1 hcommand
    obtain ⟨hk', hget'⟩ := List.getElem?_eq_some_iff.1 hi
    rw [← hget, ← hget']
    exact hp.instructions.get hk hk'
  cases hmeans with
  | addressed hv =>
    have hn := hreads.value_unique hv ((hp.symbols s n).1 hs)
    rw [Int.ofNat_inj.1 hn]
    rfl

namespace Session

/-! ## The last instruction -/

section
variable {s₀ s r after : Session} {text : String} {p : Program} {i : Instruction}

/-- The facts about a loaded program that no operation changes. -/
theorem lastAddress_of_reaches (hload : s₀.load text = (s, .ok p)) (hpos : 0 < p.instructions.length)
    (hreach : s.Reaches r) :
    r.machine.lastAddress = some (UInt16.ofNat (p.instructions.length - 1)) ∧ r.machine.Rested := by
  obtain ⟨-, hm⟩ := machine_of_load hload
  have hkeeps := hreach.keeps
  constructor
  · rw [hkeeps.lastAddress, hm]
    exact Program.lastAddress_of_ne_nil (List.ne_nil_of_length_pos hpos)
  · apply hkeeps.rested
    rw [hm]
    exact fun _ => rfl

/-- An instruction that leaves the program counter at the address behind the program, as far as
there is one, leaves the program done just if there is one. -/
theorem isDone_of_retires (hload : s₀.load text = (s, .ok p)) (hpos : 0 < p.instructions.length)
    (hreach : s.Reaches r) (hretires : r.Retires i after)
    (hpc : ((r.machine.target? i).map fun a => a.toNat % 4096).getD
      ((r.machine.pc.toNat + 1) % 4096) = p.instructions.length % 4096) :
    after.machine.isDone = true ↔ p.instructions.length < fullSize := by
  have hlength : p.instructions.length ≤ min s₀.settings.memorySize.toNat 4096 :=
    Program.length_le_of_assemble (machine_of_load hload).1
  have hle : p.instructions.length ≤ 4096 := by omega
  obtain ⟨hlast, hrested⟩ := lastAddress_of_reaches hload hpos hreach
  obtain ⟨hidle, rfl, hafter⟩ := hretires.machine_eq
  have hlast' : after.machine.lastAddress = some (UInt16.ofNat (p.instructions.length - 1)) := by
    rw [hafter, (r.machine.keeps_held.trans r.machine.held.keeps_retired).lastAddress, hlast]
  rw [Machine.isDone_iff hpos hle hlast', hafter,
    Machine.toNat_pc_held_retired (hrested hidle), hpc]
  show _ ↔ p.instructions.length < 4096
  omega

/-! ## Straight-line programs -/

theorem holds_of_load (hload : s₀.load text = (s, .ok p))
    (hdata : ∀ d ∈ p.data, p.instructions.length ≤ d.1) :
    Machine.Holds p.instructions s.machine ∧
      s.machine.memory.size = s₀.settings.memorySize.toNat := by
  obtain ⟨hp, hm⟩ := machine_of_load hload
  have hsize := size_of_load hload
  have hlength : p.instructions.length ≤ min s₀.settings.memorySize.toNat 4096 :=
    Program.length_le_of_assemble hp
  refine ⟨⟨?_, ?_, ?_, ?_⟩, hsize⟩
  · rw [hm]
    rfl
  · rw [hm]
    rfl
  · omega
  · intro k i hi
    have hk : k < p.instructions.length := (List.getElem?_eq_some_iff.1 hi).1
    apply word_of_load hload
    apply Program.word?_of_code hi
    intro d hd
    have hle := hdata d hd
    omega

theorem run_eq (s : Session) (budget : Nat) :
    ∃ metrics, let r := Machine.advance budget 0 (s.machine.withMetrics metrics)
      (s.run budget).2 = r.result ∧ (s.run budget).1.machine.isDone = r.machine.isDone :=
  ⟨_, rfl, rfl⟩

/-- A straight-line program runs to its end, or forever if it fills the range of the program
counter. -/
theorem run_straight (hload : s₀.load text = (s, .ok p)) (hpos : 0 < p.instructions.length)
    (hs : Machine.Straight p.instructions s₀.settings.memorySize.toNat)
    (hdata : ∀ d ∈ p.data, p.instructions.length ≤ d.1) (budget : Nat) :
    (p.instructions.length < fullSize → p.instructions.length ≤ budget →
      (s.run budget).2 = .ok p.instructions.length ∧ (s.run budget).1.machine.isDone = true) ∧
    (p.instructions.length = fullSize →
      (s.run budget).2 = .ok budget ∧ (s.run budget).1.machine.isDone = false) := by
  obtain ⟨hlast, -⟩ := lastAddress_of_reaches hload hpos .start
  obtain ⟨hholds, hsize⟩ := holds_of_load hload hdata
  obtain ⟨-, hm⟩ := machine_of_load hload
  obtain ⟨metrics, hresult, hend⟩ := s.run_eq budget
  rw [← hsize] at hs
  have hpc : (s.machine.withMetrics metrics).pc.toNat = 0 := by
    rw [hm]
    rfl
  rw [hresult, hend]
  constructor
  · intro hlt hbudget
    have hleft : p.instructions.length - (s.machine.withMetrics metrics).pc.toNat ≤ budget := by omega
    obtain ⟨hcount, herror, hdone⟩ := Machine.advance_straight (m := s.machine.withMetrics metrics)
      hlast hpos hlt hs (hholds.withMetrics metrics) (by omega) hleft 0
    refine ⟨?_, hdone⟩
    rw [Run.result, herror, hcount, hpc]
    simp
  · intro hfull
    obtain ⟨hcount, herror, hdone⟩ := Machine.advance_full (m := s.machine.withMetrics metrics)
      hlast hfull hs (hholds.withMetrics metrics) (by omega) budget 0
    refine ⟨?_, hdone⟩
    rw [Run.result, herror, hcount, Nat.zero_add]

end

/-! ## The end of a program -/

/-- **A program ends behind its last instruction, exactly if there is an address behind it.** Where
the last instruction retires without a branch, and where a branch to a name with the address behind
the last instruction is taken, the program is done just if it is shorter than the range of the
program counter. A straight-line program so short runs to its end; one that fills the range spends
any budget and is not done. -/
theorem completion_exact {s₀ s : Session} {text : String} {p : Program}
    (hload : s₀.load text = (s, .ok p)) (hpos : 0 < p.instructions.length) :
    (∀ r i after, s.Reaches r → r.Retires i after →
      r.machine.pc.toNat + 1 = p.instructions.length →
      ¬(i.kind = .brz ∧ r.machine.accumulator = 0) →
      (after.machine.isDone = true ↔ p.instructions.length < fullSize)) ∧
    (∀ r i after texts (ls : List Line) (k : Nat) name, s.Reaches r → r.Retires i after →
      Reads text texts ls → (commands ls)[k]? = some ⟨.brz, some (.name name)⟩ →
      p.instructions[k]? = some i → (name, (p.instructions.length : Int)) ∈ p.symbols →
      r.machine.accumulator = 0 →
      (after.machine.isDone = true ↔ p.instructions.length < fullSize)) ∧
    (Machine.Straight p.instructions s₀.settings.memorySize.toNat →
      (∀ d ∈ p.data, p.instructions.length ≤ d.1) → ∀ budget,
      (p.instructions.length < fullSize → p.instructions.length ≤ budget →
        (s.run budget).2 = .ok p.instructions.length ∧ (s.run budget).1.machine.isDone = true) ∧
      (p.instructions.length = fullSize →
        (s.run budget).2 = .ok budget ∧ (s.run budget).1.machine.isDone = false)) := by
  refine ⟨?_, ?_, fun hs hdata budget => run_straight hload hpos hs hdata budget⟩
  · intro r i after hreach hretires hpc hbranch
    refine isDone_of_retires hload hpos hreach hretires ?_
    rw [Machine.target?_eq_none_iff.2 hbranch, hpc]
    rfl
  · intro r i after texts ls k name hreach hretires hreads hcommand hi hname hzero
    have hbrz := Program.brz_of_name (machine_of_load hload).1 hreads hcommand hi hname
    refine isDone_of_retires hload hpos hreach hretires ?_
    have hlt : p.instructions.length % 4096 < 65536 := by omega
    rw [hbrz, Machine.target?_of_taken _ hzero, Option.map_some, Option.getD_some,
      UInt16.toNat_ofNat_of_lt' hlt, Nat.mod_mod]

/-- A session with room for four words that has loaded a program. -/
def loaded (text : String) : Session := ((ofSettings { memorySize := 4 }).load text).1

/-- Two programs of four words: one that counts and does nothing, one that branches to its end. -/
theorem completion_exact_of_two_short_programs :
    (∃ i after, ((loaded "INC\nNOP").run 1).1.Retires i after ∧ after.machine.isDone = true) ∧
    ((loaded "INC\nNOP").run 5).2 = .ok 2 ∧
    ∃ i after, (loaded "BRZ END\nEND:").Retires i after ∧ after.machine.isDone = true := by
  have hplain : (ofSettings { memorySize := 4 }).load "INC\nNOP" =
      (loaded "INC\nNOP", .ok { instructions := [.accu .inc, .nop] }) := rfl
  have hbranch : (ofSettings { memorySize := 4 }).load "BRZ END\nEND:" =
      (loaded "BRZ END\nEND:", .ok { instructions := [.brz 1], symbols := [("END", 1)] }) := rfl
  obtain ⟨hlast, -, hrun⟩ := completion_exact hplain (by decide)
  obtain ⟨-, htaken, -⟩ := completion_exact hbranch (by decide)
  refine ⟨?_, ?_, ?_⟩
  · have hretires : ((loaded "INC\nNOP").run 1).1.Retires .nop
        (((loaded "INC\nNOP").run 1).1.withMachine
          ((loaded "INC\nNOP").run 1).1.machine.held.retired) := .step rfl
    exact ⟨_, _, hretires, (hlast _ _ _ (.run 1 .start) hretires rfl (by decide)).2 (by decide)⟩
  · have hstraight : Machine.Straight [.accu .inc, .nop] 4 := by
      constructor <;> simp [Instruction.kind, Instruction.operand?, Instruction.given?]
    exact ((hrun hstraight (by simp) 5).1 (by decide) (by decide)).1
  · have hretires : (loaded "BRZ END\nEND:").Retires (.brz 1)
        ((loaded "BRZ END\nEND:").withMachine (loaded "BRZ END\nEND:").machine.held.retired) :=
      .step rfl
    have hreads : Reads "BRZ END\nEND:" ["BRZ END".toList, "END:".toList]
        [.command ⟨.brz, some (.name "END")⟩, .label "END" none] :=
      ⟨Text.splits_iff.2 rfl,
        .cons (readLine_eq_some_iff.1 rfl) (.cons (readLine_eq_some_iff.1 rfl) .nil), by decide⟩
    exact ⟨_, _, hretires, (htaken _ _ _ _ _ 0 "END" .start hretires hreads rfl rfl
      (by decide) rfl).2 (by decide)⟩

/-! ## The longest programs -/

/-- The text of `n` instructions that do nothing. -/
def idleText (n : Nat) : List Char := (List.replicate n ['N', 'O', 'P', '\n']).flatten

theorem ofList_idleText (n : Nat) :
    String.ofList (idleText n) = Text.unlines (written (List.replicate n .nop) []) := by
  apply String.toList_inj.1
  rw [String.toList_ofList, Text.toList_unlines, written, List.map_nil, List.append_nil,
    List.map_replicate, List.map_replicate, List.flatMap_def, List.map_replicate]
  rfl

theorem assembles_idleText {n size : Nat} (h : n ≤ room size) (hsize : size ≤ magnitudeLimit) :
    Assembles (String.ofList (idleText n)) size { instructions := List.replicate n .nop } := by
  have hlength : (List.replicate n Instruction.nop).length ≤ room size := by
    rw [List.length_replicate]
    exact h
  have hnone : ∀ c ∈ ([] : List (Nat × Word)), c.1 < size := by simp
  have hwritten := assembles_written hlength hnone hsize
  rw [List.map_replicate] at hwritten
  rw [ofList_idleText]
  exact hwritten

/-- A program of the greatest length is accepted. It neither branches nor stores, and no run of it
is ever done. -/
theorem idleText_never_done :
    ∃ s p, (ofSettings {}).load (String.ofList (idleText fullSize)) = (s, .ok p) ∧
      p.instructions.length = fullSize ∧ Machine.Straight p.instructions 4096 ∧ p.data = [] ∧
      ∀ budget, (s.run budget).2 = .ok budget ∧ (s.run budget).1.machine.isDone = false := by
  have hroom : fullSize ≤ room 4096 := by decide
  have hassemble := assemble_eq_ok_iff.2 (assembles_idleText hroom (by decide))
  have hsize : (freshMachine {}).memory.size = 4096 := Memory.size_zeros _
  rw [← hsize] at hassemble
  have hload : (ofSettings {}).load (String.ofList (idleText fullSize)) = (_, .ok _) :=
    load_eq_ok_iff.2 ⟨_, Machine.load_eq_ok_iff.2 ⟨hassemble, rfl⟩, rfl⟩
  have hlength : (List.replicate fullSize Instruction.nop).length = fullSize :=
    List.length_replicate
  have hstraight : Machine.Straight (List.replicate fullSize Instruction.nop) 4096 := by
    constructor
    all_goals
      intro i hi
      rw [List.eq_of_mem_replicate hi]
    · decide
    · intro a ha
      cases ha
    · intro hk
      cases hk
  have hpos : 0 < (List.replicate fullSize Instruction.nop).length := by
    rw [hlength]
    decide
  refine ⟨_, _, hload, hlength, hstraight, rfl, fun budget => ?_⟩
  exact (run_straight hload hpos hstraight (fun _ hd => by cases hd) budget).2 hlength

end Session

end AccumulatorMachine
