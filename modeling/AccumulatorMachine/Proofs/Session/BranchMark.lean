import AccumulatorMachine.Proofs.Session.History

/-! # The branch mark

A taken branch sets the program counter and marks the machine, so that the counter is not moved on
when the branch is retired. A branch in a cycle has its mark wiped out with it. A branch executed
outside any cycle leaves its mark behind (`Session.Marked`), and the next cycle, whatever its
instruction, does not move the counter on (`Session.program_counter_exact`).
-/

namespace AccumulatorMachine
set_option autoImplicit false

/-- The address at which the instruction `i` says that execution goes on. -/
def Instruction.next (i : Instruction) (accumulator pc : Word) : Nat :=
  match i with
  | brz a => if accumulator = 0 then a.toNat % 4096 else (pc.toNat + 1) % 4096
  | sto _ | lda _ | alu _ _ | accu _ | nop => (pc.toNat + 1) % 4096

/-! ## A cycle with a mark -/

namespace Machine

theorem next_eq (m : Machine) (i : Instruction) :
    i.next m.accumulator m.pc =
      ((m.target? i).map fun a => a.toNat % 4096).getD ((m.pc.toNat + 1) % 4096) := by
  cases i with
  | brz a =>
    by_cases h : m.accumulator = 0
    · simp [Instruction.next, target?, h]
    · simp [Instruction.next, target?, h]
  | sto | lda | alu | accu | nop => rfl

theorem pc_held_retired_of_branched {m : Machine} (h : m.branched = true) :
    m.held.retired.pc = ((m.target? m.current).map (· &&& addressMask)).getD m.pc := by
  have hmark : m.held.branched = true := by
    show (m.effect m.current).branched = true
    rw [effect_branched, h, Bool.or_true]
  rw [retired_pc_of_branched hmark]
  exact effect_pc m m.current

theorem pc_held_retired_iff (m : Machine) :
    m.held.retired.pc.toNat = m.current.next m.accumulator m.pc ↔
      m.branched = false ∨ (m.current.kind = .brz ∧ m.accumulator = 0) := by
  rw [next_eq]
  cases h : m.branched with
  | false => simp [toNat_pc_held_retired h]
  | true =>
    rw [pc_held_retired_of_branched h]
    cases ht : m.target? m.current with
    | none =>
      have htaken := target?_eq_none_iff.1 ht
      have hmoved : m.pc.toNat ≠ (m.pc.toNat + 1) % 4096 := by omega
      simp only [Option.map_none, Option.getD_none, hmoved, false_iff, not_or]
      exact ⟨by decide, htaken⟩
    | some a =>
      have htaken : m.current.kind = .brz ∧ m.accumulator = 0 := by
        refine Decidable.byContradiction fun hn => ?_
        rw [target?_eq_none_iff.2 hn] at ht
        cases ht
      have ha : (a &&& addressMask).toNat = a.toNat % 4096 := Registers.toNat_and_addressMask a
      simp only [Option.map_some, Option.getD_some, ha, htaken, and_self, or_true]

end Machine

/-! ## The mark in a history -/

namespace Session

/-- The operation executes a branch outside any cycle, and the branch is taken. -/
def Stray (s : Session) (o : Operation) : Prop :=
  s.machine.phase = .idle ∧ ∃ i, o = .execute i ∧ i.kind = .brz ∧ s.machine.accumulator = 0

/-- The operation retires an instruction or gives a fresh machine. -/
def Settles (s : Session) (o : Operation) : Prop :=
  o.renews = true ∨ 0 < s.count Stride.ends o

/-- A branch outside any cycle was taken in the history, and nothing has settled it since. -/
inductive Marked (s : Session) : List Operation → Prop
  | stray {earlier : List Operation} {o : Operation} :
      (s.after earlier).Stray o → Marked s (o :: earlier)
  | remains {earlier : List Operation} {o : Operation} :
      Marked s earlier → ¬(s.after earlier).Settles o → Marked s (o :: earlier)

theorem Stray.execute {s : Session} {o : Operation} (h : s.Stray o) :
    ∃ i m, o = .execute i ∧ s.machine.execute i = .ok m := by
  obtain ⟨-, i, rfl, hk, -⟩ := h
  obtain ⟨m, hm⟩ := InPlace.execute_of_brz s.machine hk
  rw [InPlace.execute_eq, InPlace.settled_eq_ok_iff] at hm
  exact ⟨i, m, rfl, Machine.execute_eq_ok_iff.2 ⟨hm.1, hm.2.2⟩⟩

theorem branched_of_settles {s : Session} {o : Operation} (h : s.Settles o) :
    (s.perform o).machine.branched = false := by
  have hdoes := s.perform_does o
  generalize (s.perform o).machine = after at hdoes ⊢
  cases hdoes with
  | renew => rfl
  | edit _ _ _ hrenews hcount =>
    rw [Settles, hrenews, hcount] at h
    simp at h
  | execute => simp [Settles, Operation.renews, count] at h
  | @stride x m hstride =>
    obtain ⟨-, rfl⟩ := Machine.stride_eq_ok_iff.1 hstride
    cases x with
    | firstHalf => simp [Settles, Operation.renews, count, Stride.ends] at h
    | secondHalf | whole => rfl
  | @cycles _ n m _ _ hrenews hcount _ hsteps =>
    rw [Settles, hrenews, hcount] at h
    obtain ⟨k, rfl⟩ : ∃ k, n = k + 1 := ⟨n - 1, by simp at h; omega⟩
    exact (Machine.idle_of_steps hsteps).2.2

/-- At rest, an operation that settles nothing has kept the mark, or made one by a stray branch. -/
theorem branched_of_not_settles {s : Session} {o : Operation} (h : ¬s.Settles o)
    (hidle : (s.perform o).machine.phase = .idle) :
    s.machine.phase = .idle ∧
      ((s.perform o).machine.branched = true ↔ s.Stray o ∨ s.machine.branched = true) := by
  rw [Settles, not_or] at h
  have hdoes := s.perform_does o
  generalize (s.perform o).machine = after at hdoes hidle ⊢
  cases hdoes with
  | renew _ _ hrenews => exact absurd hrenews h.1
  | edit _ _ _ _ _ hexecute =>
    have hstray : ¬s.Stray o := by
      intro hs
      obtain ⟨i, m, ho, hm⟩ := hs.execute
      exact hexecute i m ho hm
    exact ⟨hidle, by simp [hstray]⟩
  | @execute i m hm =>
    obtain ⟨-, rfl⟩ := Machine.execute_eq_ok_iff.1 hm
    have hrest : s.machine.phase = .idle := by
      rw [Machine.effect_phase] at hidle
      exact hidle
    refine ⟨hrest, ?_⟩
    have htaken : (s.machine.target? i.reduced).isSome = true ↔ s.Stray (.execute i) := by
      rw [Option.isSome_iff_ne_none, ne_eq, Machine.target?_eq_none_iff, Decidable.not_not,
        Instruction.kind_reduced, Stray]
      simp [hrest]
    rw [Machine.effect_branched, Bool.or_eq_true, htaken]
  | @stride x m hstride =>
    obtain ⟨-, rfl⟩ := Machine.stride_eq_ok_iff.1 hstride
    cases x with
    | firstHalf => cases hidle
    | secondHalf | whole =>
      have hok := stride_eq_ok_iff.2 ⟨_, hstride, rfl⟩
      simp [count, hok, Stride.ends, Except.isOk, Except.toBool] at h
  | @cycles _ n m _ _ hrenews hcount hexecute hsteps =>
    have hn : n = 0 := by
      rw [hcount] at h
      omega
    subst hn
    cases hsteps
    have hstray : ¬s.Stray o := by
      rintro ⟨-, i, ho, -⟩
      exact hexecute i ho
    exact ⟨hidle, by simp [hstray]⟩

/-- At rest a machine carries a mark just if its history has left one. -/
theorem branched_iff_marked (settings : Settings) (history : List Operation)
    (hidle : ((ofSettings settings).after history).machine.phase = .idle) :
    ((ofSettings settings).after history).machine.branched = true ↔
      (ofSettings settings).Marked history := by
  induction history with
  | nil =>
    constructor
    · intro h
      cases h
    · intro h
      cases h
  | cons o earlier ih =>
    -- what settles wipes the mark out; anything else that ends at rest has begun at rest, so that
    -- the hypothesis holds of what came before
    by_cases hsettles : ((ofSettings settings).after earlier).Settles o
    · rw [after, branched_of_settles hsettles]
      constructor
      · intro h
        cases h
      · intro h
        cases h with
        | stray hs =>
          obtain ⟨-, i, rfl, -⟩ := hs
          simp [Settles, Operation.renews, count] at hsettles
        | remains _ hn => exact absurd hsettles hn
    · obtain ⟨hrest, hmark⟩ := branched_of_not_settles hsettles hidle
      rw [after, hmark, ih hrest]
      constructor
      · rintro (hs | hm)
        · exact .stray hs
        · exact .remains hm hsettles
      · intro h
        cases h with
        | stray hs => exact .inl hs
        | remains hm _ => exact .inr hm

/-! ## Where a cycle leaves the program counter -/

/-- **A cycle leaves the program counter where its instruction says, exactly if no stray branch has
left a mark, or else a branch is taken once more.** Otherwise the counter stays where it was. -/
theorem program_counter_exact (settings : Settings) (history : List Operation)
    (hidle : ((ofSettings settings).after history).machine.phase = .idle) :
    let s := (ofSettings settings).after history
    (s.machine.branched = true ↔ (ofSettings settings).Marked history) ∧
    ∀ i r, s.step = .ok (i, r) →
      (r.machine.pc.toNat = i.next s.machine.accumulator s.machine.pc ↔
        ¬(ofSettings settings).Marked history ∨ (i.kind = .brz ∧ s.machine.accumulator = 0)) ∧
      ((ofSettings settings).Marked history → ¬(i.kind = .brz ∧ s.machine.accumulator = 0) →
        r.machine.pc = s.machine.pc) := by
  intro s
  have hmark := branched_iff_marked settings history hidle
  refine ⟨hmark, fun i r hstep => ?_⟩
  obtain ⟨m, hm, rfl⟩ := step_eq_ok_iff.1 hstep
  obtain ⟨-, rfl, rfl⟩ := Machine.step_eq_ok_iff.1 hm
  constructor
  · show s.machine.held.retired.pc.toNat = _ ↔ _
    rw [Machine.pc_held_retired_iff, ← hmark, Bool.not_eq_true]
  · intro hmarked htaken
    show s.machine.held.retired.pc = _
    rw [Machine.pc_held_retired_of_branched (hmark.2 hmarked), Machine.target?_eq_none_iff.2 htaken]
    rfl

/-- Four words that count are loaded, and a branch to the third one is taken outside any cycle. -/
def strayed : List Operation := [.execute (.brz 2), .load "INC\nINC\nINC\nINC"]

/-- Once an instruction has been run after it, the branch has no more effect. -/
theorem program_counter_exact_of_strayed_run :
    ((ofSettings { memorySize := 4 }).after (.run 1 :: strayed)).machine.phase = .idle ∧
      ¬(ofSettings { memorySize := 4 }).Marked (.run 1 :: strayed) ∧
      ∃ r, ((ofSettings { memorySize := 4 }).after (.run 1 :: strayed)).step =
        .ok (.accu .inc, r) ∧ r.machine.pc.toNat = 3 := by
  have hidle : ((ofSettings { memorySize := 4 }).after (.run 1 :: strayed)).machine.phase = .idle :=
    rfl
  obtain ⟨hmark, hnext⟩ := program_counter_exact { memorySize := 4 } (.run 1 :: strayed) hidle
  have hclean : ¬(ofSettings { memorySize := 4 }).Marked (.run 1 :: strayed) := by
    intro h
    cases hmark.2 h
  obtain ⟨r, hstep⟩ : ∃ r, ((ofSettings { memorySize := 4 }).after (.run 1 :: strayed)).step =
      .ok (.accu .inc, r) := ⟨_, rfl⟩
  exact ⟨hidle, hclean, r, hstep, (hnext _ _ hstep).1.2 (.inl hclean)⟩

/-- Before that the third word is executed, and the counter stays where it is. -/
theorem program_counter_kept_by_strayed :
    ((ofSettings { memorySize := 4 }).after strayed).machine.phase = .idle ∧
      ∃ r, ((ofSettings { memorySize := 4 }).after strayed).step = .ok (.accu .inc, r) ∧
        r.machine.pc.toNat = 2 ∧
        Instruction.next (.accu .inc) ((ofSettings { memorySize := 4 }).after strayed).machine.accumulator
          ((ofSettings { memorySize := 4 }).after strayed).machine.pc = 3 :=
  ⟨rfl, _, rfl, rfl, rfl⟩

end Session
end AccumulatorMachine
