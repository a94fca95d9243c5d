import AccumulatorMachine.Text.Blank
import AccumulatorMachine.Text.Digits

/-! # Arguments

How a list of arguments is read, from left to right, as options and operands. An option has a long
name after two dashes and may have a letter after one dash. Its value follows an equals sign or is
the next argument; after a letter it may also follow directly. Letters can be joined, two dashes
alone end the options, and nothing that starts with a dash is a value unless it follows directly.
An option is given at most once.

The first thing that is wrong, or that asks for help or for the version, stops the reading. An
option whose value is the next argument is checked when another option, an operand or the end
follows (`Reading.settle`); a command may follow before the check.
-/

namespace AccumulatorMachine.CommandLine
set_option autoImplicit false
open Text

/-! ## Integers -/

/-- The number below `limit` that a text writes, with or without a plus sign. -/
def unsigned? (limit : Nat) (cs : List Char) : Option Nat :=
  let digits :=
    match cs with
    | '+' :: rest => rest
    | _ => cs
  (numeral? 10 digits).filter (· < limit)

/-- The number from `-limit` up to `limit`, this one excluded, that a text writes. -/
def signed? (limit : Nat) : List Char → Option Int
  | '-' :: cs => ((numeral? 10 cs).filter (· ≤ limit)).map fun n => -(n : Int)
  | cs => (unsigned? limit cs).map fun n => (n : Int)

def readNumber (text : String) : Option UInt64 :=
  (unsigned? UInt64.size text.toList).map UInt64.ofNat

/-! ## Options -/

/-- What an option is for. -/
inductive OptionKind
  | flag
  | help
  | version
  | text
  | number
  | choice (words : List String)
deriving DecidableEq

namespace OptionKind

def takesValue : OptionKind → Bool
  | flag | help | version => false
  | text | number | choice _ => true

def accepts (k : OptionKind) (value : String) : Bool :=
  match k with
  | number => (readNumber value).isSome
  | choice words => words.contains value
  | flag | help | version | text => true

end OptionKind

structure OptionForm where
  name : String
  letter : Option Char
  kind : OptionKind
deriving DecidableEq

/-- What may stand in one part of a command line: options, a number of operands, and the name of
a command to end the part. -/
structure Grammar where
  options : List OptionForm
  operands : Nat := 0
  commands : List String := []

inductive Stop
  | refused
  | help
  | version
deriving DecidableEq

/-! ## The forms of an argument -/

/-- An argument by its form. -/
inductive Token
  | plain (text : String)
  | long (name : String) (value : Option String)
  | letters (cs : List Char)
  | endOfOptions
deriving DecidableEq

/-- The form of an argument. A dash alone is plain. -/
def Token.ofArgument (argument : String) : Token :=
  match argument.toList with
  | ['-', '-'] => .endOfOptions
  | '-' :: '-' :: cs =>
    match cutAt '=' cs with
    | some (name, value) => .long (String.ofList name) (some (String.ofList value))
    | none => .long (String.ofList cs) none
  | '-' :: c :: cs => .letters (c :: cs)
  | _ => .plain argument

/-! ## Reading -/

/-- What has been read: options with their values, operands, and the last option while it waits
for its value or for the check of that value. -/
structure Reading where
  options : List (String × String) := []
  operands : List String := []
  pending : Option (OptionForm × Option String) := none
deriving DecidableEq

namespace Reading

def value? (r : Reading) (name : String) : Option String := r.options.lookup name

def number? (r : Reading) (name : String) : Option UInt64 := (r.value? name).bind readNumber

def has (r : Reading) (name : String) : Bool := (r.value? name).isSome

def put (r : Reading) (form : OptionForm) (value : String) : Except Stop Reading :=
  match form.kind with
  | .help => .error .help
  | .version => .error .version
  | kind =>
    if r.has form.name || !kind.accepts value then .error .refused
    else .ok { r with options := r.options ++ [(form.name, value)] }

/-- The reading with its last option checked. -/
def settle (r : Reading) : Except Stop Reading :=
  match r.pending with
  | none => .ok r
  | some (_, none) => .error .refused
  | some (form, some value) => put { r with pending := none } form value

/-- One more option with its value, or with an empty one if it has none. -/
def give (r : Reading) (form : OptionForm) (value : String) : Except Stop Reading := do
  let settled ← r.settle
  settled.put form value

/-- One more option that waits for its value. -/
def await (r : Reading) (form : OptionForm) : Except Stop Reading := do
  let settled ← r.settle
  return { settled with pending := some (form, none) }

def addOperand (g : Grammar) (r : Reading) (text : String) : Except Stop Reading := do
  let settled ← r.settle
  if settled.operands.length < g.operands then
    return { settled with operands := settled.operands ++ [text] }
  else throw .refused

def addLong (g : Grammar) (r : Reading) (name : String) (value : Option String) :
    Except Stop Reading :=
  match g.options.find? fun form => form.name == name with
  | none => .error .refused
  | some form =>
    match form.kind.takesValue, value with
    | true, some text => r.give form text
    | true, none => r.await form
    | false, none => r.give form ""
    | false, some _ => .error .refused

/-- The options of joined letters. What follows a letter whose option takes a value is that
value. -/
def addLetters (g : Grammar) (r : Reading) : List Char → Except Stop Reading
  | [] => .ok r
  | c :: cs =>
    match g.options.find? fun form => form.letter == some c with
    | none => .error .refused
    | some form =>
      if form.kind.takesValue then
        match cs with
        | [] => r.await form
        | '=' :: value => r.give form (String.ofList value)
        | value => r.give form (String.ofList value)
      else
        match r.give form "" with
        | .ok after => after.addLetters g cs
        | .error e => .error e

/-- Reads arguments up to the first one that names a command. Gives what has been read, and the
rest from that name on. -/
def read (g : Grammar) (r : Reading) : List String → Except Stop (Reading × List String)
  | [] => do
    let settled ← r.settle
    return (settled, [])
  | argument :: rest =>
    match r.pending, Token.ofArgument argument with
    | some (form, none), .plain value =>
      read g { r with pending := some (form, some value) } rest
    | _, .plain text =>
      if g.commands.contains text then .ok (r, argument :: rest)
      else do
        let after ← r.addOperand g text
        after.read g rest
    | _, .long name value => do
      let after ← r.addLong g name value
      after.read g rest
    | _, .letters cs => do
      let after ← r.addLetters g cs
      after.read g rest
    | _, .endOfOptions => do
      let settled ← r.settle
      let after ← rest.foldlM (addOperand g) settled
      return (after, [])

end Reading

end AccumulatorMachine.CommandLine
