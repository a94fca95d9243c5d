import AccumulatorMachine.Json.Value

/-! # Sorted objects

A value with the members of all its objects in the order of their names.
-/

namespace AccumulatorMachine.Json
set_option autoImplicit false

/-- Whether a name comes before another or is the same; a name that is no text comes first. -/
def nameLe : Option String → Option String → Bool
  | none, _ => true
  | some _, none => false
  | some a, some b => a ≤ b

def insertMember (member : Option String × Json) :
    List (Option String × Json) → List (Option String × Json)
  | [] => [member]
  | first :: rest =>
    if nameLe member.1 first.1 then member :: first :: rest
    else first :: insertMember member rest

mutual

/-- The value with the members of all its objects in the order of their names. -/
def sorted : Json → Json
  | .array items => .array (sortedItems items)
  | .object members => .object (sortedMembers members)
  | .null => .null
  | .bool b => .bool b
  | .number digits => .number digits
  | .string s => .string s

def sortedItems : List Json → List Json
  | [] => []
  | item :: items => sorted item :: sortedItems items

def sortedMembers : List (Option String × Json) → List (Option String × Json)
  | [] => []
  | member :: members => insertMember (sortedMember member) (sortedMembers members)

def sortedMember : Option String × Json → Option String × Json
  | (name, value) => (name, sorted value)

end

end AccumulatorMachine.Json
