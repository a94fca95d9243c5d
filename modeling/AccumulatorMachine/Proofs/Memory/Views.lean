import AccumulatorMachine.Memory.Row
import AccumulatorMachine.Proofs.Memory.Cells

/-! # Views of memory

A view shows cells in the order in which they are asked for. One that clips leaves out what memory
does not have (`Memory.dump_eq`). One that checks fails at the first address without a cell, and
shows every cell that was asked for if there is none (`Memory.gather_eq`). Tables and listings are
of the second kind.
-/

namespace AccumulatorMachine.Memory
set_option autoImplicit false

/-! ## Clipped views -/

theorem saturatingSum_min {n : Nat} (h : n < UInt64.size) (a b : Nat) :
    min (saturatingSum a b) n = min (a + b) n := by
  rw [saturatingSum]
  omega

/-- The sum that tells the end of a dump does not overflow as long as memory itself has a size of
64 bits. -/
theorem dump_eq {m : Memory} (h : m.size < UInt64.size) (start count : Nat) :
    m.dump start count =
      (List.range' start (min (start + count) m.size - start)).map fun a => (a, m.word a) := by
  simp only [dump, saturatingSum_min h]
  by_cases hle : start ≤ min (start + count) m.size
  · rw [Nat.min_eq_left hle]
    refine List.ext_getElem ?_ fun i hi hi' => ?_
    · simp [size]
      omega
    · have hsize : start + i < m.cells.size := by
        simp [size] at hi'
        omega
      simp [word, Array.getD_eq_getD_getElem?, hsize]
  · rw [Nat.min_eq_right (by omega), Nat.sub_eq_zero_of_le (by omega)]
    simp

/-! ## Checked views -/

section
variable {α : Type} (m : Memory) (show? : Nat → Word → α)

/-- What `show?` makes of the cells at the addresses, if there are all of them. -/
def gather : List Nat → Except AddressFault (List α)
  | [] => .ok []
  | a :: as => do
    let w ← m.read a
    let rest ← gather as
    return show? a w :: rest

/-- The first address without a cell decides. -/
theorem gather_eq (as : List Nat) :
    m.gather show? as =
      match as.find? fun a => m.size ≤ a with
      | some a => .error (m.faultAt a)
      | none => .ok (as.map fun a => show? a (m.word a)) := by
  induction as with
  | nil => rfl
  | cons a as ih =>
    rw [gather, read_eq, ih]
    by_cases h : m.size ≤ a
    · rw [if_neg (Nat.not_lt.2 h), List.find?_cons_of_pos (by simpa using h)]
      rfl
    · rw [if_pos (Nat.lt_of_not_le h), List.find?_cons_of_neg (by simpa using h)]
      cases as.find? fun a => m.size ≤ a <;> rfl

end

/-! ## Tables -/

/-- The row of a cell; beyond the cells there are zeros. -/
def rowAt (m : Memory) (a : Nat) : MemoryRow := .ofWord a (m.word a)

theorem rows_eq_gather (m : Memory) (as : List Nat) : m.rows as = m.gather MemoryRow.ofWord as := by
  induction as with
  | nil => rfl
  | cons a as ih =>
    rw [rows, gather, ih, row]
    cases m.read a <;> rfl

theorem rows_eq (m : Memory) (as : List Nat) :
    m.rows as =
      match as.find? fun a => m.size ≤ a with
      | some a => .error (m.faultAt a)
      | none => .ok (as.map m.rowAt) := by
  rw [rows_eq_gather, gather_eq]
  rfl

theorem rows_eq_ok_iff {m : Memory} {as : List Nat} {rs : List MemoryRow} :
    m.rows as = .ok rs ↔ (∀ a ∈ as, a < m.size) ∧ rs = as.map m.rowAt := by
  rw [rows_eq]
  cases h : as.find? fun a => m.size ≤ a with
  | none =>
    have hall : ∀ a ∈ as, a < m.size := by simpa [List.find?_eq_none] using h
    rw [Except.ok.injEq, eq_comm]
    exact (and_iff_right hall).symm
  | some a =>
    have hle : m.size ≤ a := by simpa using List.find?_some h
    have hnot : ¬∀ a ∈ as, a < m.size := fun hall =>
      Nat.not_lt.2 hle (hall a (List.mem_of_find?_eq_some h))
    simp [hnot]

/-- The fault is that of the first address without a cell. -/
theorem rows_eq_error_iff {m : Memory} {as : List Nat} {e : AddressFault} :
    m.rows as = .error e ↔ ∃ before a after, as = before ++ a :: after ∧
      (∀ b ∈ before, b < m.size) ∧ m.size ≤ a ∧ e = m.faultAt a := by
  rw [rows_eq]
  cases h : as.find? fun a => m.size ≤ a with
  | none =>
    rw [List.find?_eq_none] at h
    simp only [reduceCtorEq, false_iff]
    rintro ⟨before, a, after, rfl, -, hle, -⟩
    exact h a (by simp) (by simpa using hle)
  | some a =>
    obtain ⟨hle, before, after, rfl, hbefore⟩ := List.find?_eq_some_iff_append.1 h
    simp only [Except.error.injEq]
    constructor
    · rintro rfl
      exact ⟨before, a, after, rfl, by simpa using hbefore, by simpa using hle, rfl⟩
    · rintro ⟨before', a', after', has, hbefore', hle', rfl⟩
      have hfind : (before ++ a :: after).find? (fun a => decide (m.size ≤ a)) = some a' :=
        List.find?_eq_some_iff_append.2
          ⟨by simpa using hle', before', after', has, by simpa using hbefore'⟩
      rw [hfind] at h
      rw [Option.some.inj h]

/-- Of a stretch of addresses the first one without a cell is the start, or else the size of
memory. -/
theorem find?_range' (size start count : Nat) :
    (List.range' start count).find? (fun a => size ≤ a) =
      if 0 < count ∧ size < start + count then some (max start size) else none := by
  split
  · next h =>
    rw [List.find?_range'_eq_some]
    refine ⟨decide_eq_true (Nat.le_max_right start size), ?_, fun a ha hlt => ?_⟩
    · rw [List.mem_range'_1]
      omega
    · rw [Bool.not_eq_true', decide_eq_false_iff_not]
      omega
  · next h =>
    rw [List.find?_range'_eq_none]
    intro a ha hlt
    rw [Bool.not_eq_true', decide_eq_false_iff_not]
    omega

end AccumulatorMachine.Memory
