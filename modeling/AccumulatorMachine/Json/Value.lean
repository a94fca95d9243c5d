/-! # JSON values

The values that JSON texts denote. A number keeps the text that writes it, since its readers
differ in what they accept. A string is a text, or nothing if its escapes leave half of a
surrogate pair alone: such a string is correct JSON, but no text. The members of an object keep
their order and may repeat a name.
-/

namespace AccumulatorMachine
set_option autoImplicit false

inductive Json
  | null
  | bool (value : Bool)
  | number (text : String)
  | string (text : Option String)
  | array (items : List Json)
  | object (members : List (Option String × Json))

namespace Json

/-- A string that is a text. -/
def text (s : String) : Json := .string (some s)

def nat (n : Nat) : Json := .number (toString n)

def int (n : Int) : Json := .number (toString n)

/-- An object whose names are texts. -/
def record (fields : List (String × Json)) : Json :=
  .object (fields.map fun field => (some field.1, field.2))

def optional {α : Type} (form : α → Json) : Option α → Json
  | none => .null
  | some x => form x

end Json

end AccumulatorMachine
