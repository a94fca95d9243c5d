import AccumulatorMachine.Proofs.Debugger.Boundary
import AccumulatorMachine.Proofs.Session.Trace

/-! # The trace of a debugger

An action asks at most one operation of the session (`Debugger.request?`), so that a history of
actions comes to a history of the session (`Debugger.session_after`) and has its trace. What the
counters show is read off that trace.
-/

namespace AccumulatorMachine.Debugger
set_option autoImplicit false

/-! ## Requests -/

/-- What a history asks of the session, the latest operation first. -/
def requests (d : Debugger) : List Action → List Session.Operation
  | [] => []
  | a :: earlier => ((d.after earlier).request? a).toList ++ d.requests earlier

theorem session_after (d : Debugger) (history : List Action) :
    (d.after history).session = d.session.after (d.requests history) := by
  induction history with
  | nil => rfl
  | cons a earlier ih =>
    rw [after, session_act, requests]
    cases (d.after earlier).request? a with
    | none => exact ih
    | some o => exact congrArg (Session.perform · o) ih

/-! ## The trace -/

/-- What the halves of cycles have done in a history since the last load or reset, the first of
them first. -/
def trace (d : Debugger) (history : List Action) : List Half := d.session.trace (d.requests history)

theorem trace_cons (d : Debugger) (a : Action) (earlier : List Action) :
    d.trace (a :: earlier) =
      (((d.after earlier).request? a).map
        ((d.after earlier).session.traced (d.trace earlier))).getD (d.trace earlier) := by
  rw [trace, requests, session_after]
  cases (d.after earlier).request? a with
  | none => rfl
  | some o => rfl

/-! ## The counters -/

/-- Whether the action executes an instruction outside any cycle. -/
def Action.strays : Action → Bool
  | operate (.execute _) => true
  | operate _ | press _ | reset => false

theorem forall_requests {d : Debugger} {history : List Action}
    (h : ∀ a ∈ history, a.strays = false) : ∀ o ∈ d.requests history, ∀ i, o ≠ .execute i := by
  induction history with
  | nil => simp [requests]
  | cons a earlier ih =>
    rw [List.forall_mem_cons] at h
    rintro o ho i rfl
    rw [requests, List.mem_append, Option.mem_toList] at ho
    obtain hlast | hrest := ho
    · cases a with
      | press k => simp [request?] at hlast
      | reset => simp [request?] at hlast
      | operate o =>
        cases hlast
        cases h.1
    · exact ih h.2 _ hrest i rfl

/-- **The counters count what has happened since the last load or reset,** up to multiples of
2^64: the instructions and the cycles are the second halves that have succeeded, and the branches
are the first halves that found the accumulator zero and executed a branch. No more branches are
taken than instructions retired, but for one half way through its cycle, and the counters say so as
long as they have not begun anew. -/
theorem counters_count_trace {start : Debugger} {settings : Settings}
    (hstart : start.session = .ofSettings settings) {history : List Action}
    (hhistory : ∀ a ∈ history, a.strays = false) :
    let m := (start.after history).machine
    let retired := (start.trace history).countP Half.ends
    let branches := (start.trace history).countP Half.branches
    m.metrics.instructions.toNat = retired % 2 ^ 64 ∧ m.metrics.cycles.toNat = retired % 2 ^ 64 ∧
    m.metrics.branches.toNat = branches % 2 ^ 64 ∧
    (m.phase = .idle → branches ≤ retired) ∧ (m.phase = .firstPhaseDone → branches ≤ retired + 1) ∧
    (retired < 2 ^ 64 →
      (m.phase = .idle → m.metrics.branches ≤ m.metrics.instructions) ∧
      (m.phase = .firstPhaseDone →
        m.metrics.branches.toNat ≤ m.metrics.instructions.toNat + 1)) := by
  intro m retired branches
  have hfresh : start.session.machine.Counts [] := by
    rw [hstart]
    exact ⟨rfl, rfl, rfl, rfl⟩
  have hcounts : m.Counts (start.trace history) := by
    have hafter := Session.counts_after hfresh (forall_requests (d := start) hhistory)
    rw [← session_after] at hafter
    exact hafter
  have hinstructions : m.metrics.instructions.toNat = retired % 2 ^ 64 := by
    rw [hcounts.instructions, UInt64.toNat_ofNat']
  have hcycles : m.metrics.cycles.toNat = retired % 2 ^ 64 := by
    rw [hcounts.cycles, UInt64.toNat_ofNat']
  have hbranches : m.metrics.branches.toNat = branches % 2 ^ 64 := by
    rw [hcounts.branches, UInt64.toNat_ofNat']
  have hle := hcounts.branches_le
  have hidle : m.phase = .idle → branches ≤ retired := by
    intro h
    rw [h] at hle
    exact hle
  have hhalf : m.phase = .firstPhaseDone → branches ≤ retired + 1 := by
    intro h
    rw [h] at hle
    exact hle
  have hmod : branches % 2 ^ 64 ≤ branches := Nat.mod_le _ _
  refine ⟨hinstructions, hcycles, hbranches, hidle, hhalf, fun hlt => ⟨fun h => ?_, fun h => ?_⟩⟩
  · rw [UInt64.le_iff_toNat_le, hinstructions, hbranches, Nat.mod_eq_of_lt hlt]
    exact hmod.trans (hidle h)
  · rw [hinstructions, hbranches, Nat.mod_eq_of_lt hlt]
    exact hmod.trans (hhalf h)

/-- A debugger of a memory of four words, without a program. -/
def empty : Debugger := { session := .ofSettings { memorySize := 4 } }

/-- A word that branches to itself is loaded, run three times, and executed once more; a second half
fails in between. -/
def looping : List Action :=
  [.press .halfStep, .operate (.stride .secondHalf), .operate (.run 3), .operate (.load "BRZ 0")]

theorem counters_count_trace_of_looping :
    (∀ a ∈ looping, a.strays = false) ∧
      (empty.after looping).machine.phase = .firstPhaseDone ∧
      (empty.after looping).machine.metrics.instructions.toNat = 3 ∧
      (empty.after looping).machine.metrics.cycles.toNat = 3 ∧
      (empty.after looping).machine.metrics.branches.toNat = 4 ∧
      (empty.after looping).machine.metrics.branches.toNat ≤
        (empty.after looping).machine.metrics.instructions.toNat + 1 := by
  have hstart : empty.session = .ofSettings { memorySize := 4 } := rfl
  have hregular : ∀ a ∈ looping, a.strays = false := by simp [looping, Action.strays]
  obtain ⟨hinstructions, hcycles, hbranches, -, -, hle⟩ :=
    counters_count_trace hstart hregular
  have hretired : (empty.trace looping).countP Half.ends = 3 := by decide +kernel
  have htaken : (empty.trace looping).countP Half.branches = 4 := by decide +kernel
  have hphase : (empty.after looping).machine.phase = .firstPhaseDone := by decide +kernel
  rw [hretired] at hinstructions hcycles hle
  rw [htaken] at hbranches
  exact ⟨hregular, hphase, hinstructions, hcycles, hbranches, (hle (by decide)).2 hphase⟩

end AccumulatorMachine.Debugger
