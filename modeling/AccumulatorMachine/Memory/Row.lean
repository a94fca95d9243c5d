import AccumulatorMachine.Memory.Basic

/-! # Rows of a memory table

A row shows one cell in all its forms. A table is either a list of requested addresses or a
number of addresses in a row; both fail at the first address that no cell has, and
`rowsFrom_eq` says that the second is a case of the first.
-/

namespace AccumulatorMachine
set_option autoImplicit false

/-- A cell and the forms in which tables show its word. -/
structure MemoryRow where
  address : Nat
  binary : String
  unsigned : Word
  bytes : String
  signed : Int
deriving DecidableEq

namespace MemoryRow
open Text

def ofWord (address : Nat) (w : Word) : MemoryRow := ⟨address, w.binary, w, w.bytes, w.signed⟩

def text (r : MemoryRow) : String :=
  decimal4 r.address ++ ": " ++ r.binary ++ "  " ++ padStart ' ' 5 (toString r.unsigned.toNat) ++
    "  " ++ r.bytes ++ "  " ++ padStart ' ' 6 (toString r.signed)

end MemoryRow

namespace Memory

def row (m : Memory) (a : Nat) : Except AddressFault MemoryRow :=
  (m.read a).map (MemoryRow.ofWord a)

/-- The rows of the requested addresses, in the order of the request. -/
def rows (m : Memory) : List Nat → Except AddressFault (List MemoryRow)
  | [] => .ok []
  | a :: as => do
    let r ← m.row a
    let rs ← m.rows as
    return r :: rs

/-- The rows of `count` addresses from `start` on. -/
def rowsFrom (m : Memory) (start : Nat) : Nat → Except AddressFault (List MemoryRow)
  | 0 => .ok []
  | count + 1 => do
    let r ← m.row start
    let rs ← m.rowsFrom (start + 1) count
    return r :: rs

theorem rowsFrom_eq (m : Memory) (start count : Nat) :
    m.rowsFrom start count = m.rows (List.range' start count) := by
  induction count generalizing start with
  | zero => rfl
  | succ count ih => simp only [rowsFrom, rows, List.range', ih]

end Memory

end AccumulatorMachine
