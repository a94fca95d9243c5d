import AccumulatorMachine.Assembly.Operand
import Std.Data.TreeMap

/-! # Symbols

Labels and constants share one name space, in which a name is defined once. A constant may stand
for another name, so the value of an operand is found by following a chain of definitions to a
number or a label. A chain longer than the table runs in a circle and has no value.
-/

namespace AccumulatorMachine.Assembly
set_option autoImplicit false

/-- What a name stands for. -/
inductive Definition
  /-- The address of an instruction. -/
  | label (address : Nat)
  /-- Another operand. -/
  | constant (value : Operand)
deriving DecidableEq

structure SymbolTable where
  definitions : Std.TreeMap String Definition := ∅

namespace SymbolTable

def find? (t : SymbolTable) (name : String) : Option Definition := t.definitions[name]?

def size (t : SymbolTable) : Nat := t.definitions.size

/-- The table with one more definition; a name that has one already cannot get another. -/
def define? (t : SymbolTable) (name : String) (d : Definition) : Option SymbolTable :=
  match t.find? name with
  | some _ => none
  | none => some ⟨t.definitions.insert name d⟩

/-- The number that `operand` stands for, found in fewer than `limit` links. -/
def follow? (t : SymbolTable) : Nat → Operand → Option Int
  | 0, _ => none
  | _ + 1, .number n => some n
  | limit + 1, .name s =>
    match t.find? s with
    | none => none
    | some (.label address) => some address
    | some (.constant value) => t.follow? limit value

def resolve? (t : SymbolTable) (operand : Operand) : Option Int := t.follow? (t.size + 1) operand

/-- The names that stand for a number, in alphabetical order. -/
def values (t : SymbolTable) : List (String × Int) :=
  t.definitions.keys.filterMap fun name => (t.resolve? (.name name)).map fun n => (name, n)

/-! ## Looking up -/

@[simp] theorem find?_empty (name : String) : ({} : SymbolTable).find? name = none := by
  simp [find?]

theorem define?_isSome_iff {t : SymbolTable} {name : String} {d : Definition} :
    (t.define? name d).isSome ↔ t.find? name = none := by
  cases h : t.find? name <;> simp [define?, h]

theorem find?_define? {t t' : SymbolTable} {name : String} {d : Definition}
    (h : t.define? name d = some t') (s : String) :
    t'.find? s = if s = name then some d else t.find? s := by
  cases hn : t.find? name with
  | some e => simp [define?, hn] at h
  | none =>
    simp only [define?, hn, Option.some.injEq] at h
    subst h
    by_cases hs : s = name
    · simp [find?, hs]
    · simp [find?, hs, Std.TreeMap.getElem?_insert, Ne.symm hs]

end SymbolTable

end AccumulatorMachine.Assembly
