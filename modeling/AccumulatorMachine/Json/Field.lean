import AccumulatorMachine.Json.Value
import AccumulatorMachine.Text.Digits
import AccumulatorMachine.Word

/-! # Fields of records

A record of named fields has two forms. As an object its fields may come in any order and may be
missing, other names are ignored, and a field that is given twice is refused. As an array it has
the values alone, in the order of the fields, and may end early. What a missing field means is up
to the record.
-/

namespace AccumulatorMachine.Json
set_option autoImplicit false
open Text

/-! ## Fields -/

/-- How often an object has the member `name`. -/
def occurrences (members : List (Option String × Json)) (name : String) : Nat :=
  members.countP fun member => member.1 == some name

/-- The values of the fields `names`, each if it is there. -/
def fields? (names : List String) : Json → Option (List (Option Json))
  | .object members =>
    if (members.all fun member => member.1.isSome) &&
        (names.all fun name => occurrences members name ≤ 1) then
      some (names.map fun name => members.lookup (some name))
    else none
  | .array items =>
    if items.length ≤ names.length then
      some (items.map some ++ List.replicate (names.length - items.length) none)
    else none
  | _ => none

/-- The same, of an array that has a value for every field. -/
def wholeFields? (names : List String) : Json → Option (List (Option Json))
  | .array items => if items.length = names.length then some (items.map some) else none
  | j => fields? names j

/-! ## Values -/

/-- The natural number below `limit` that a value is, written in digits alone. -/
def nat? (limit : Nat) : Json → Option Nat
  | .number text => (numeral? 10 text.toList).filter (· < limit)
  | _ => none

def word? (j : Json) : Option Word := (j.nat? UInt16.size).map UInt16.ofNat

def uint64? (j : Json) : Option UInt64 := (j.nat? UInt64.size).map UInt64.ofNat

def bool? : Json → Option Bool
  | .bool b => some b
  | _ => none

/-- The part of a record that may be missing or `null`. -/
def part? {α : Type} (read : Json → Option α) : Option Json → Option (Option α)
  | none => some none
  | some .null => some none
  | some j => (read j).map some

def items? {α : Type} (read : Json → Option α) : Json → Option (List α)
  | .array items => items.mapM read
  | _ => none

end AccumulatorMachine.Json
