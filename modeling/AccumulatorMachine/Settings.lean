import AccumulatorMachine.Json.Field
import AccumulatorMachine.Json.Reader
import AccumulatorMachine.Memory.Basic

/-! # Settings

The size of memory and the budget of a bounded run. Settings are read from a JSON record, in which
a missing field has its default; reading ends with a check, so what is read is valid.
-/

namespace AccumulatorMachine
set_option autoImplicit false

/-- The settings of a simulation. -/
structure Settings where
  memorySize : UInt64 := 4096
  maxCycles : UInt64 := 100000
deriving DecidableEq, Inhabited

/-- Why settings were refused. -/
inductive SettingsError
  /-- Their file could not be read. -/
  | file (reason : String)
  /-- Their text is no record of settings. -/
  | json
  /-- Memory would be empty, or larger than an address can reach. -/
  | memorySize (given : UInt64)
  /-- A bounded run would do nothing. -/
  | maxCycles
deriving DecidableEq

/-- The text of the error. What is wrong with a JSON text is not said further. -/
def SettingsError.message : SettingsError → String
  | file reason => "I/O error: " ++ reason
  | json => "invalid JSON: <json>"
  | memorySize given =>
    "invalid setting: memory_size must be between 1 and " ++ toString fullSize ++ ", got " ++
      toString given.toNat
  | maxCycles => "invalid setting: max_cycles must be positive"

namespace Settings

/-- The settings themselves if they are valid. -/
def validate (s : Settings) : Except SettingsError Settings :=
  if s.memorySize.toNat = 0 ∨ fullSize < s.memorySize.toNat then .error (.memorySize s.memorySize)
  else if s.maxCycles = 0 then .error .maxCycles
  else .ok s

/-- The names of the fields. -/
def fieldNames : List String := ["memory_size", "max_cycles"]

/-- The record of settings. -/
def toJson (s : Settings) : Json :=
  .record [("memory_size", .nat s.memorySize.toNat), ("max_cycles", .nat s.maxCycles.toNat)]

/-- The value of a field, or its default. -/
def field? (default : UInt64) : Option Json → Option UInt64
  | none => some default
  | some j => j.uint64?

/-- The settings that a value stands for, valid or not. -/
def ofJson? (j : Json) : Option Settings := do
  match ← j.fields? fieldNames with
  | [memorySize, maxCycles] =>
    return { memorySize := ← field? 4096 memorySize, maxCycles := ← field? 100000 maxCycles }
  | _ => none

/-- The valid settings of a JSON text. -/
def read (text : String) : Except SettingsError Settings :=
  match (Json.read? text).bind ofJson? with
  | some s => s.validate
  | none => .error .json

end Settings

end AccumulatorMachine
