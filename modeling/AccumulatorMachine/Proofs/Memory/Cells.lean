import AccumulatorMachine.Memory.Basic

/-! # Cells

The accesses to memory that cannot fail, `Memory.word` and `Memory.put`, and the real ones in terms
of them: an access is one of these where there is a cell, and a fault where there is none. After
many writes each address holds the last word that was put there (`Memory.word_putAll`).
-/

namespace AccumulatorMachine.Memory
set_option autoImplicit false

/-! ## Words and addresses -/

/-- The word at `a`; beyond the cells there are zeros. -/
def word (m : Memory) (a : Nat) : Word := m.cells.getD a 0

/-- The memory with `w` at `a`; beyond the cells nothing is stored. -/
def put (m : Memory) (a : Nat) (w : Word) : Memory := ⟨m.cells.setIfInBounds a w⟩

@[simp] theorem size_put (m : Memory) (a : Nat) (w : Word) : (m.put a w).size = m.size :=
  Array.size_setIfInBounds

theorem word_put_of_ne (m : Memory) {a b : Nat} (w : Word) (h : b ≠ a) :
    (m.put a w).word b = m.word b := by
  simp [word, put, Array.getD_eq_getD_getElem?, Ne.symm h]

theorem word_put (m : Memory) {a : Nat} (w : Word) (h : a < m.size) (b : Nat) :
    (m.put a w).word b = if b = a then w else m.word b := by
  have h' : a < m.cells.size := h
  by_cases hb : b = a
  · subst hb
    simp [word, put, Array.getD_eq_getD_getElem?, h']
  · rw [if_neg hb, word_put_of_ne m w hb]

theorem getElem?_eq_some_iff {m : Memory} {a : Nat} {w : Word} :
    m.cells[a]? = some w ↔ a < m.size ∧ w = m.word a := by
  rw [word, size, Array.getD_eq_getD_getElem?]
  by_cases h : a < m.cells.size
  · simp [h, eq_comm]
  · simp [h]

/-! ## Accesses -/

theorem read_eq (m : Memory) (a : Nat) :
    m.read a = if a < m.size then .ok (m.word a) else .error (m.faultAt a) := by
  by_cases h : a < m.size
  · rw [if_pos h, read_of_lt h, word, Array.getD_eq_getD_getElem?, Array.getElem?_eq_getElem h]
    rfl
  · rw [if_neg h, read_of_le (Nat.le_of_not_lt h)]

theorem write_eq (m : Memory) (a : Nat) (w : Word) :
    m.write a w = if a < m.size then .ok (m.put a w) else .error (m.faultAt a) := by
  by_cases h : a < m.size
  · have h' : a < m.cells.size := h
    rw [if_pos h, write, dif_pos h', put, Array.setIfInBounds, dif_pos h']
  · have h' : ¬a < m.cells.size := h
    rw [if_neg h, write, dif_neg h']

/-- The first address that a fault shows as a negative number, 2^63. -/
def signLimit : Nat := 0x8000000000000000

/-- The number that a fault shows for an address of 64 bits. -/
def shownAddress (a : Nat) : Int := if a < signLimit then a else a - UInt64.size

theorem shownAddress_eq_iff {a : Nat} : shownAddress a = a ↔ a < signLimit := by
  have hsize : UInt64.size = 18446744073709551616 := rfl
  rw [shownAddress]
  split
  · next h => simp [h]
  · next h =>
    simp only [h, iff_false]
    omega

theorem faultAt_eq (m : Memory) {a : Nat} (h : a < UInt64.size) :
    m.faultAt a = ⟨shownAddress a, m.size⟩ := by
  have hsize : UInt64.size = 18446744073709551616 := rfl
  have hn : a.toUInt64.toBitVec.toNat = a := by
    rw [UInt64.toNat_toBitVec, UInt64.toNat_ofNat']
    exact Nat.mod_eq_of_lt h
  rw [faultAt, ← Int64.toInt_toBitVec, UInt64.toBitVec_toInt64, BitVec.toInt_eq_toNat_cond, hn,
    shownAddress, signLimit]
  congr 1
  split
  · rw [if_pos (by omega)]
  · rw [if_neg (by omega), hsize]

/-- An address of a machine is far below the numbers at which a fault changes its sign. -/
theorem faultAt_word (m : Memory) (a : Word) : m.faultAt a.toNat = ⟨a.toNat, m.size⟩ := by
  have ha : a.toNat < 65536 := a.toNat_lt
  have hshown : shownAddress a.toNat = a.toNat :=
    shownAddress_eq_iff.2 (Nat.lt_trans ha (by decide))
  rw [faultAt_eq m (Nat.lt_trans ha (by decide)), hshown]

theorem read_word (m : Memory) (a : Word) :
    m.read a.toNat = if a.toNat < m.size then .ok (m.word a.toNat) else .error ⟨a.toNat, m.size⟩ := by
  rw [read_eq, faultAt_word]

/-! ## Many writes -/

/-- The memory with these words put at these addresses, one after the other. -/
def putAll (m : Memory) (cells : List (Nat × Word)) : Memory :=
  cells.foldl (fun m c => m.put c.1 c.2) m

@[simp] theorem size_putAll (m : Memory) (cells : List (Nat × Word)) :
    (m.putAll cells).size = m.size := by
  induction cells generalizing m with
  | nil => rfl
  | cons c cells ih =>
    rw [putAll, List.foldl_cons, ← putAll, ih, size_put]

/-- At each address stands the last word that was put there. -/
theorem word_putAll {m : Memory} {cells : List (Nat × Word)} (h : ∀ c ∈ cells, c.1 < m.size)
    (a : Nat) : (m.putAll cells).word a = (cells.reverse.lookup a).getD (m.word a) := by
  induction cells generalizing m with
  | nil => rfl
  | cons c cells ih =>
    obtain ⟨b, w⟩ := c
    have hb : b < m.size := h (b, w) (List.mem_cons_self ..)
    have hrest : ∀ c ∈ cells, c.1 < (m.put b w).size := by
      intro c hc
      rw [size_put]
      exact h c (List.mem_cons_of_mem _ hc)
    rw [putAll, List.foldl_cons, ← putAll, ih hrest, word_put m w hb, List.reverse_cons,
      List.lookup_append, List.lookup_cons, List.lookup_nil]
    cases cells.reverse.lookup a with
    | some v => rfl
    | none =>
      by_cases hab : a = b
      · subst hab
        simp
      · have hbeq : (a == b) = false := beq_eq_false_iff_ne.2 hab
        rw [hbeq, if_neg hab]
        rfl

end AccumulatorMachine.Memory
