import AccumulatorMachine.Proofs.Assembly.Image

/-! # Assembly for a smaller memory

The size of memory is looked at in two places, once for the number of instructions and once for each
datum. So a source text comes out the same for a smaller memory, program or error, unless the
smaller memory has no room for it (`assemble_smaller`), and it is a program there exactly if it is
one that fits (`assemble_eq_ok_iff_fits`).
-/

namespace AccumulatorMachine
set_option autoImplicit false

namespace Assembly

/-- The error is for want of room: instructions, or a datum, that a memory of `size` cells does not
take; with `larger` cells the address of the datum would have been one. -/
inductive OutOfRoom (size larger : Nat) : AssemblyError → Prop
  | length {n : Nat} : room size < n → OutOfRoom size larger (.tooLarge n (room size))
  | datum {line : Nat} {text : String} {a : Int} : size ≤ a → a < larger →
      OutOfRoom size larger (.dataOutOfRange line text a)

section
variable {α : Type} {size larger : Nat}

/-- What a smaller memory makes of something: the same as the larger one, or an error for want of
room. -/
def SameOrOutOfRoom (size larger : Nat) (smaller other : Except AssemblyError α) : Prop :=
  smaller = other ∨ ∃ e, OutOfRoom size larger e ∧ smaller = .error e

theorem SameOrOutOfRoom.bind {β : Type} {x x' : Except AssemblyError α}
    {f f' : α → Except AssemblyError β} (h : SameOrOutOfRoom size larger x x')
    (hf : ∀ a, SameOrOutOfRoom size larger (f a) (f' a)) :
    SameOrOutOfRoom size larger (x >>= f) (x' >>= f') := by
  obtain rfl | ⟨e, he, rfl⟩ := h
  · cases x with
    | error e => exact .inl rfl
    | ok a => exact hf a
  · exact .inr ⟨e, he, rfl⟩

theorem resolveData_smaller (hle : size ≤ larger) (t : SymbolTable) (line : Nat) (text : List Char)
    (address value : Operand) :
    SameOrOutOfRoom size larger (resolveData t size line text address value)
      (resolveData t larger line text address value) := by
  unfold resolveData
  split
  · next a v _ _ =>
    by_cases hsmall : 0 ≤ a ∧ a < size
    · rw [if_pos hsmall, if_pos (by omega)]
      exact .inl rfl
    · by_cases hlarge : 0 ≤ a ∧ a < larger
      · rw [if_neg hsmall]
        exact .inr ⟨_, .datum (by omega) hlarge.2, rfl⟩
      · rw [if_neg hsmall, if_neg hlarge]
        exact .inl rfl
  · exact .inl rfl

theorem addTo_smaller (hle : size ≤ larger) (t : SymbolTable) (p : Program) (s : Placed) :
    SameOrOutOfRoom size larger (s.addTo t size p) (s.addTo t larger p) := by
  unfold Placed.addTo
  cases s.statement with
  | command c => exact .inl rfl
  | data address value =>
    exact (resolveData_smaller hle t s.line s.text address value).bind fun _ => .inl rfl

theorem foldlM_addTo_smaller (hle : size ≤ larger) (t : SymbolTable) (ps : List Placed)
    (p : Program) :
    SameOrOutOfRoom size larger (ps.foldlM (Placed.addTo t size) p)
      (ps.foldlM (Placed.addTo t larger) p) := by
  induction ps generalizing p with
  | nil => exact .inl rfl
  | cons s ps ih =>
    rw [List.foldlM_cons, List.foldlM_cons]
    exact (addTo_smaller hle t p s).bind ih

theorem program_smaller (hle : size ≤ larger) (d : Draft) :
    SameOrOutOfRoom size larger (d.program size) (d.program larger) := by
  have hroom : room size ≤ room larger := by
    rw [room, room]
    omega
  have hsize (n : Nat) : min n fullSize = room n := rfl
  simp only [Draft.program, hsize]
  by_cases hsmall : room size < d.size
  · rw [if_pos hsmall]
    exact .inr ⟨_, .length hsmall, rfl⟩
  · rw [if_neg hsmall, if_neg (by omega)]
    exact (foldlM_addTo_smaller hle d.symbols d.statements.reverse {}).bind fun _ => .inl rfl

end

end Assembly

namespace Program
open Assembly

theorem assemble_smaller {size larger : Nat} (hle : size ≤ larger) (source : String) :
    SameOrOutOfRoom size larger (assemble source size) (assemble source larger) :=
  SameOrOutOfRoom.bind (.inl rfl) (program_smaller hle)

/-- The program goes into a memory of `size` cells. -/
structure Fits (p : Program) (size : Nat) : Prop where
  instructions : p.instructions.length ≤ size
  data : ∀ d ∈ p.data, d.1 < size

theorem assemble_eq_ok_iff_fits {source : String} {size : Nat} {p : Program} (h : size ≤ fullSize) :
    assemble source size = .ok p ↔ assemble source fullSize = .ok p ∧ p.Fits size := by
  constructor
  · intro hp
    have hlength := length_le_of_assemble hp
    refine ⟨assemble_of_le h hp, by omega, fun d hd => ?_⟩
    exact image_inside hp d (List.mem_append_right _ hd)
  · rintro ⟨hp, hlength, hdata⟩
    obtain ⟨texts, ls, hreads, hp⟩ := assemble_eq_ok_iff.1 hp
    have hroom : room size = size := Nat.min_eq_left h
    refine assemble_eq_ok_iff.2 ⟨texts, ls, hreads, ?_, hp.instructions, ?_, hp.symbols, hp.sorted⟩
    · rw [hp.instructions.length_eq, hroom]
      exact hlength
    · have hcells := (List.forall₂_and_left _ _).2 ⟨hdata, hp.data.flip⟩
      exact hcells.flip.imp fun d cell hcell => ⟨hcell.2.address, hcell.1, hcell.2.value⟩

end Program

end AccumulatorMachine
