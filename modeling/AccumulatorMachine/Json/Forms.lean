import AccumulatorMachine.Json.Field
import AccumulatorMachine.Machine.Basic

/-! # The JSON forms of the machine's parts

For each type the value that writes it and the reader of that value. Operands and the program
counter are read and written with all their sixteen bits. The counters are only written.
-/

namespace AccumulatorMachine
set_option autoImplicit false

/-! ## Instructions -/

namespace Instruction

/-- An instruction with an operand is an object of one member, any other is its tag. -/
def toJson (i : Instruction) : Json :=
  match i.given? with
  | some a => .object [(some i.kind.tag, .nat a.toNat)]
  | none => .text i.kind.tag

/-- The instruction of an object with the tag `tag` and the value `value`. The value of a kind
without an operand is `null`. -/
def ofMember? (tag : String) (value : Json) : Option Instruction := do
  let kind ← Kind.ofTag? tag
  if kind.hasAddress then
    let operand ← value.word?
    return ofKind kind operand
  else
    match value with
    | .null => return ofKind kind 0
    | _ => none

/-- The instruction that a value stands for. -/
def ofJson? : Json → Option Instruction
  | .string (some tag) => do
    let kind ← Kind.ofTag? tag
    if kind.hasAddress then none else return ofKind kind 0
  | .object [(some tag, value)] => ofMember? tag value
  | _ => none

end Instruction

/-! ## Snapshots -/

namespace Snapshot

def fieldNames : List String :=
  ["instruction", "old_accumulator", "alu_result", "memory_value", "branch_taken"]

/-- The record of a snapshot, its empty fields being `null`. -/
def toJson (s : Snapshot) : Json :=
  .record [("instruction", .optional Instruction.toJson s.instruction),
    ("old_accumulator", .optional (.nat ·.toNat) s.oldAccumulator),
    ("alu_result", .optional (.nat ·.toNat) s.aluResult),
    ("memory_value", .optional (.nat ·.toNat) s.memoryValue),
    ("branch_taken", .optional .bool s.branchTaken)]

/-- The snapshot that a value stands for. A field that is missing in an object is empty. -/
def ofJson? (j : Json) : Option Snapshot := do
  match ← j.wholeFields? fieldNames with
  | [instruction, oldAccumulator, aluResult, memoryValue, branchTaken] =>
    return {
      instruction := ← Json.part? Instruction.ofJson? instruction
      oldAccumulator := ← Json.part? Json.word? oldAccumulator
      aluResult := ← Json.part? Json.word? aluResult
      memoryValue := ← Json.part? Json.word? memoryValue
      branchTaken := ← Json.part? Json.bool? branchTaken }
  | _ => none

end Snapshot

/-! ## Registers and memory -/

namespace Registers

def fieldNames : List String := ["accumulator", "program_counter"]

/-- The record of a register file. -/
def toJson (r : Registers) : Json :=
  .record [("accumulator", .nat r.accumulator.toNat), ("program_counter", .nat r.pc.toNat)]

/-- The register file that a value stands for; both fields are needed. -/
def ofJson? (j : Json) : Option Registers := do
  match ← j.fields? fieldNames with
  | [some accumulator, some pc] =>
    return { accumulator := ← accumulator.word?, pc := ← pc.word? }
  | _ => none

end Registers

namespace Memory

/-- The record of a memory: its cells in one field. -/
def toJson (m : Memory) : Json :=
  .record [("cells", .array (m.cells.toList.map fun w => .nat w.toNat))]

/-- The memory that a value stands for. -/
def ofJson? (j : Json) : Option Memory := do
  match ← j.fields? ["cells"] with
  | [some cells] =>
    let words ← cells.items? Json.word?
    return ⟨words.toArray⟩
  | _ => none

end Memory

/-! ## Counters -/

/-- The record of the counters. A rate or a time that has been measured depends on the clock and
stands as `<time>`. -/
def Metrics.toJson (m : Metrics) : Json :=
  let time : Json := .number (if m.measured then "<time>" else "0.0")
  .record [("instruction_count", .nat m.instructions.toNat), ("cycles", .nat m.cycles.toNat),
    ("branch_count", .nat m.branches.toNat), ("instructions_per_second", time),
    ("accumulated_seconds", time)]

end AccumulatorMachine
