import AccumulatorMachine.Proofs.Machine.Enlarged
import AccumulatorMachine.Proofs.Session.Bounds

/-! # Sessions with more memory

A text that loads into a memory loads into any larger one as the same program, and what it comes to
there is the small machine with zeros above its cells (`machine_enlarged_of_load`). So a run that
succeeds is the same run for both, and it leaves the additional cells alone.
-/

namespace AccumulatorMachine
set_option autoImplicit false

theorem Machine.enlarged_withProgram {m : Machine} {p : Program}
    (h : ∀ c ∈ p.image, c.1 < m.memory.size) (n : Nat) :
    (m.withProgram p).enlarged n = (m.enlarged n).withProgram p := by
  rw [enlarged, enlarged, withProgram, withProgram, Memory.putAll_extended h]

namespace Session
variable {s₀ t₀ s : Session} {text : String} {p : Program}

theorem machine_enlarged_of_load (hle : s₀.settings.memorySize ≤ t₀.settings.memorySize)
    (hload : s₀.load text = (s, .ok p)) :
    ∃ t, t₀.load text = (t, .ok p) ∧
      t.machine = s.machine.enlarged t₀.settings.memorySize.toNat := by
  obtain ⟨hassemble, hs⟩ := machine_of_load hload
  have hsizes : s₀.settings.memorySize.toNat ≤ t₀.settings.memorySize.toNat :=
    UInt64.le_iff_toNat_le.1 hle
  have hfresh : (freshMachine s₀.settings).enlarged t₀.settings.memorySize.toNat =
      freshMachine t₀.settings := by
    show Machine.mk .. = Machine.mk ..
    rw [Machine.mk.injEq]
    exact ⟨rfl, Memory.zeros_extended hsizes, rfl, rfl, rfl, rfl, rfl, rfl⟩
  have hinside : ∀ c ∈ p.image, c.1 < (freshMachine s₀.settings).memory.size := by
    rw [show (freshMachine s₀.settings).memory.size = _ from Memory.size_zeros _]
    exact Program.image_inside hassemble
  have hlarge : (freshMachine t₀.settings).load text =
      .ok (p, (freshMachine t₀.settings).withProgram p) := by
    refine Machine.load_eq_ok_iff.2 ⟨?_, rfl⟩
    rw [show (freshMachine t₀.settings).memory.size = _ from Memory.size_zeros _]
    exact Program.assemble_of_le hsizes hassemble
  refine ⟨_, load_eq_ok_iff.2 ⟨_, hlarge, rfl⟩, ?_⟩
  rw [hs, Machine.enlarged_withProgram hinside, hfresh]

/-- **More memory never changes a run that succeeds.** A text that loads into a memory loads into a
larger one as the same program. A run of it that ends well ends just so with more memory: nothing
but memory differs afterwards, the cells that both have hold the same words, and the others hold
zeros. -/
theorem more_memory_same_run {s₀ t₀ s : Session} {text : String} {p : Program}
    (hle : s₀.settings.memorySize ≤ t₀.settings.memorySize) (hload : s₀.load text = (s, .ok p)) :
    ∃ t, t₀.load text = (t, .ok p) ∧ ∀ budget n, (s.run budget).2 = .ok n →
      let small := (s.run budget).1.machine
      let large := (t.run budget).1.machine
      (t.run budget).2 = .ok n ∧ large = { small with memory := large.memory } ∧
        large.isDone = small.isDone ∧
        (∀ a, a < s₀.settings.memorySize.toNat →
          ∃ w, small.memory.read a = .ok w ∧ large.memory.read a = .ok w) ∧
        ∀ a, s₀.settings.memorySize.toNat ≤ a → a < t₀.settings.memorySize.toNat →
          large.memory.read a = .ok 0 := by
  obtain ⟨t, ht, hmachine⟩ := machine_enlarged_of_load hle hload
  refine ⟨t, ht, fun budget n hrun => ?_⟩
  obtain ⟨herror, hcount⟩ := Run.result_eq_ok_iff.1 hrun
  have hsame := Machine.run_enlarged herror t₀.settings.memorySize.toNat
  rw [← hmachine] at hsame
  have hlarge : (t.run budget).1.machine =
      (s.run budget).1.machine.enlarged t₀.settings.memorySize.toNat := congrArg Run.machine hsame
  have hsizes : s₀.settings.memorySize.toNat ≤ t₀.settings.memorySize.toNat :=
    UInt64.le_iff_toNat_le.1 hle
  have hsize : (s.run budget).1.machine.memory.size = s₀.settings.memorySize.toNat :=
    (s.machine.keeps_run budget).size.trans (confined_of_load hload).2.1
  have hread (a : Nat) (ha : a < t₀.settings.memorySize.toNat) :
      (t.run budget).1.machine.memory.read a = .ok ((s.run budget).1.machine.memory.word a) := by
    rw [hlarge]
    exact Memory.read_extended (hsize.trans_le hsizes) ha
  refine ⟨?_, ?_, ?_, fun a ha => ⟨(s.run budget).1.machine.memory.word a, ?_, ?_⟩,
    fun a ha ha' => ?_⟩
  · show (t.machine.run budget).result = .ok n
    rw [hsame]
    exact hrun
  · rw [hlarge]
    rfl
  · rw [hlarge]
    rfl
  · rw [Memory.read_eq, if_pos (ha.trans_eq hsize.symm)]
  · exact hread a (ha.trans_le hsizes)
  · rw [hread a ha', Memory.word_of_le (hsize.trans_le ha)]

/-- Four words in a memory of four. The third one stores a word over the last one, which is then
executed and stores it over the third one. -/
def overwriting : Session := ((ofSettings { memorySize := 4 }).load "INC\nINC\nSTO 3\nNOP").1

theorem more_memory_same_run_of_overwriting :
    (ofSettings { memorySize := 4 }).settings.memorySize ≤ (ofSettings {}).settings.memorySize ∧
      (overwriting.run 9).2 = .ok 4 ∧
      ∃ p t, (ofSettings {}).load "INC\nINC\nSTO 3\nNOP" = (t, .ok p) ∧ (t.run 9).2 = .ok 4 ∧
        (t.run 9).1.machine.isDone = true ∧ (t.run 9).1.machine.memory.read 2 = .ok 2 ∧
        (t.run 9).1.machine.memory.read 4095 = .ok 0 := by
  have hle : (ofSettings { memorySize := 4 }).settings.memorySize ≤
      (ofSettings {}).settings.memorySize := by decide
  have hload : (ofSettings { memorySize := 4 }).load "INC\nINC\nSTO 3\nNOP" =
      (overwriting, .ok { instructions := [.accu .inc, .accu .inc, .sto 3, .nop] }) := rfl
  have hrun : (overwriting.run 9).2 = .ok 4 := rfl
  obtain ⟨t, ht, hruns⟩ := more_memory_same_run hle hload
  obtain ⟨hresult, -, hdone, hbelow, habove⟩ := hruns 9 4 hrun
  obtain ⟨w, hw, hlarge⟩ := hbelow 2 (by decide)
  have htwo : (overwriting.run 9).1.machine.memory.read 2 = .ok 2 := rfl
  rw [htwo, Except.ok.injEq] at hw
  refine ⟨hle, hrun, _, t, ht, hresult, hdone, ?_, habove 4095 (by decide) (by decide)⟩
  rw [hlarge, hw]

end Session
end AccumulatorMachine
