import AccumulatorMachine.Instruction.Basic

/-! # Registers

The two registers that a program can see. The accumulator counts modulo 2^16. The program counter
is a twelve-bit address wherever the machine sets it (`toNat_advance_pc_lt`, `toNat_jump_pc_lt`);
a register file that was read from outside keeps the value it came with until then.
-/

namespace AccumulatorMachine
set_option autoImplicit false

structure Registers where
  accumulator : Word := 0
  pc : Word := 0
deriving DecidableEq, Inhabited

namespace Registers

/-- The registers with the program counter one address on, after the last one at zero again. -/
def advance (r : Registers) : Registers := { r with pc := (r.pc + 1) &&& addressMask }

/-- The registers with the program counter at the address in the low bits of `target`. -/
def jump (r : Registers) (target : Word) : Registers := { r with pc := target &&& addressMask }

def summary (r : Registers) : String :=
  "Registers \x7b accumulator: " ++ toString r.accumulator.toNat ++ ", program_counter: " ++
    toString r.pc.toNat ++ " \x7d"

/-! ## The range of the program counter -/

theorem toNat_and_addressMask (w : Word) : (w &&& addressMask).toNat = w.toNat % 4096 := by
  rw [UInt16.toNat_and, show addressMask.toNat = 2 ^ 12 - 1 from rfl, Nat.and_two_pow_sub_one_eq_mod]

theorem toNat_advance_pc_lt (r : Registers) : r.advance.pc.toNat < 4096 := by
  rw [advance, toNat_and_addressMask]
  exact Nat.mod_lt _ (by decide)

theorem toNat_jump_pc_lt (r : Registers) (target : Word) : (r.jump target).pc.toNat < 4096 := by
  rw [jump, toNat_and_addressMask]
  exact Nat.mod_lt _ (by decide)

end Registers

end AccumulatorMachine
