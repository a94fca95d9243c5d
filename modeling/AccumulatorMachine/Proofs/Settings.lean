import AccumulatorMachine.Settings

/-! # Valid settings

Which settings pass the check, and which of the two complaints comes first where they do not.
-/

namespace AccumulatorMachine.Settings
set_option autoImplicit false

/-- Memory can have this size: there is a cell, and an address reaches the last one. -/
def IsMemorySize (size : UInt64) : Prop := 0 < size.toNat ∧ size.toNat ≤ fullSize

instance (size : UInt64) : Decidable (IsMemorySize size) := inferInstanceAs (Decidable (_ ∧ _))

variable {s s' : Settings}

theorem validate_of_memorySize (h : ¬IsMemorySize s.memorySize) :
    s.validate = .error (.memorySize s.memorySize) := by
  unfold IsMemorySize at h
  rw [validate, if_pos (by omega)]

theorem validate_of_maxCycles (h : IsMemorySize s.memorySize) (hcycles : s.maxCycles = 0) :
    s.validate = .error .maxCycles := by
  unfold IsMemorySize at h
  rw [validate, if_neg (by omega), if_pos hcycles]

theorem validate_of_valid (h : IsMemorySize s.memorySize) (hcycles : s.maxCycles ≠ 0) :
    s.validate = .ok s := by
  unfold IsMemorySize at h
  rw [validate, if_neg (by omega), if_neg hcycles]

theorem validate_eq_ok_iff :
    s.validate = .ok s' ↔ s' = s ∧ IsMemorySize s.memorySize ∧ s.maxCycles ≠ 0 := by
  by_cases hsize : IsMemorySize s.memorySize
  · by_cases hcycles : s.maxCycles = 0
    · simp [validate_of_maxCycles hsize hcycles, hcycles]
    · simp [validate_of_valid hsize hcycles, hsize, hcycles, eq_comm]
  · simp [validate_of_memorySize hsize, hsize]

end AccumulatorMachine.Settings
