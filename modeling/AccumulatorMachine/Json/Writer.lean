import AccumulatorMachine.Json.Value
import AccumulatorMachine.Text.Digits

/-! # Writing JSON

The compact text of a value, without blanks, and its indented text, with one member or item on a
line and two blanks for each level. Members are written in the order of the object.
-/

namespace AccumulatorMachine.Json
set_option autoImplicit false
open Text

/-! ## Strings -/

def escape (c : Char) : List Char :=
  if c = '"' then ['\\', '"']
  else if c = '\\' then ['\\', '\\']
  else if c = '\x08' then ['\\', 'b']
  else if c = '\t' then ['\\', 't']
  else if c = '\n' then ['\\', 'n']
  else if c = '\x0c' then ['\\', 'f']
  else if c = '\r' then ['\\', 'r']
  else if c.toNat < 0x20 then '\\' :: 'u' :: fixedDigits lowerDigit 16 4 c.toNat
  else [c]

/-- A string literal. A string that is no text is written as half of a surrogate pair. -/
def quote : Option String → List Char
  | some s => '"' :: (s.toList.flatMap escape ++ ['"'])
  | none => ['"', '\\', 'u', 'd', '8', '0', '0', '"']

/-! ## Compact text -/

mutual

def compactChars : Json → List Char
  | .null => ['n', 'u', 'l', 'l']
  | .bool true => ['t', 'r', 'u', 'e']
  | .bool false => ['f', 'a', 'l', 's', 'e']
  | .number text => text.toList
  | .string text => quote text
  | .array items => '[' :: (compactItems items ++ [']'])
  | .object members => '{' :: (compactMembers members ++ ['}'])

def compactItems : List Json → List Char
  | [] => []
  | item :: [] => compactChars item
  | item :: rest => compactChars item ++ ',' :: compactItems rest

def compactMembers : List (Option String × Json) → List Char
  | [] => []
  | member :: [] => compactMember member
  | member :: rest => compactMember member ++ ',' :: compactMembers rest

def compactMember : Option String × Json → List Char
  | (name, value) => quote name ++ ':' :: compactChars value

end

def compact (j : Json) : String := String.ofList j.compactChars

/-! ## Indented text -/

def newLine (level : Nat) : List Char := '\n' :: List.replicate (2 * level) ' '

mutual

/-- The indented text of a value that starts at a level. -/
def indentedChars (level : Nat) : Json → List Char
  | .array (item :: items) =>
    '[' :: (newLine (level + 1) ++ indentedChars (level + 1) item ++
      indentedItems (level + 1) items ++ newLine level ++ [']'])
  | .object (member :: members) =>
    '{' :: (newLine (level + 1) ++ indentedMember (level + 1) member ++
      indentedMembers (level + 1) members ++ newLine level ++ ['}'])
  | .array [] => ['[', ']']
  | .object [] => ['{', '}']
  | .null => ['n', 'u', 'l', 'l']
  | .bool true => ['t', 'r', 'u', 'e']
  | .bool false => ['f', 'a', 'l', 's', 'e']
  | .number text => text.toList
  | .string text => quote text

/-- The items after the first one of an array. -/
def indentedItems (level : Nat) : List Json → List Char
  | [] => []
  | item :: items =>
    ',' :: (newLine level ++ indentedChars level item ++ indentedItems level items)

/-- The members after the first one of an object. -/
def indentedMembers (level : Nat) : List (Option String × Json) → List Char
  | [] => []
  | member :: members =>
    ',' :: (newLine level ++ indentedMember level member ++ indentedMembers level members)

def indentedMember (level : Nat) : Option String × Json → List Char
  | (name, value) => quote name ++ ':' :: ' ' :: indentedChars level value

end

def indented (j : Json) : String := String.ofList (j.indentedChars 0)

end AccumulatorMachine.Json
