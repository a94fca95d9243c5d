import AccumulatorMachine.Json.Value
import AccumulatorMachine.Text.Digits

/-! # Reading JSON

A text is read as one value with nothing but blanks around it. Only the four blanks of the format
count; names may repeat, numbers may have any size, and arrays and objects any depth. The readers
of parts take the text from where the part starts and give back what follows it.
-/

namespace AccumulatorMachine.Json
set_option autoImplicit false
open Text

/-- Whether `c` is one of the four blanks of the format. -/
def isSpace (c : Char) : Bool := c == ' ' || c == '\t' || c == '\n' || c == '\r'

def skip (cs : List Char) : List Char := cs.dropWhile isSpace

/-! ## Strings -/

/-- A character of a string, or a 16-bit unit that an escape names. -/
inductive Piece
  | char (c : Char)
  | unit (u : Nat)

def namedEscape : Char → Option Char
  | '"' => some '"'
  | '\\' => some '\\'
  | '/' => some '/'
  | 'b' => some '\x08'
  | 'f' => some '\x0c'
  | 'n' => some '\n'
  | 'r' => some '\r'
  | 't' => some '\t'
  | _ => none

/-- The pieces of a string up to its closing quote. Control characters have to be escaped. -/
def readPieces : List Char → Option (List Piece × List Char)
  | [] => none
  | '"' :: rest => some ([], rest)
  | '\\' :: 'u' :: a :: b :: c :: d :: cs => do
    let u ← numeral? 16 [a, b, c, d]
    let (pieces, rest) ← readPieces cs
    return (.unit u :: pieces, rest)
  | '\\' :: e :: cs => do
    let c ← namedEscape e
    let (pieces, rest) ← readPieces cs
    return (.char c :: pieces, rest)
  | c :: cs =>
    if c.toNat < 0x20 then none
    else do
      let (pieces, rest) ← readPieces cs
      return (.char c :: pieces, rest)

def isHighHalf (u : Nat) : Bool := 0xD800 ≤ u && u < 0xDC00

def isLowHalf (u : Nat) : Bool := 0xDC00 ≤ u && u < 0xE000

/-- The text of the pieces, unless half of a surrogate pair stands alone. -/
def join : List Piece → Option (List Char)
  | [] => some []
  | .char c :: pieces => (join pieces).map (c :: ·)
  | .unit u :: pieces =>
    if isHighHalf u then
      match pieces with
      | .unit v :: pieces =>
        if isLowHalf v then
          (join pieces).map (Char.ofNat (0x10000 + (u - 0xD800) * 0x400 + (v - 0xDC00)) :: ·)
        else none
      | _ => none
    else if isLowHalf u then none
    else (join pieces).map (Char.ofNat u :: ·)

/-- The string whose opening quote has been read. -/
def readString (cs : List Char) : Option (Option String × List Char) :=
  (readPieces cs).map fun (pieces, rest) => ((join pieces).map String.ofList, rest)

/-! ## Numbers -/

def readDigits (cs : List Char) : Option (List Char × List Char) :=
  let digits := cs.takeWhile Char.isDigit
  if digits.isEmpty then none else some (digits, cs.dropWhile Char.isDigit)

/-- The digits before the point; a zero stands alone. -/
def readWhole : List Char → Option (List Char × List Char)
  | '0' :: cs => some (['0'], cs)
  | cs => readDigits cs

def readFraction : List Char → Option (List Char × List Char)
  | '.' :: cs => (readDigits cs).map fun (digits, rest) => ('.' :: digits, rest)
  | cs => some ([], cs)

/-- The digits of an exponent, with or without a sign. -/
def readSigned : List Char → Option (List Char × List Char)
  | '+' :: cs => (readDigits cs).map fun (digits, rest) => ('+' :: digits, rest)
  | '-' :: cs => (readDigits cs).map fun (digits, rest) => ('-' :: digits, rest)
  | cs => readDigits cs

def readExponent : List Char → Option (List Char × List Char)
  | 'e' :: cs => (readSigned cs).map fun (digits, rest) => ('e' :: digits, rest)
  | 'E' :: cs => (readSigned cs).map fun (digits, rest) => ('E' :: digits, rest)
  | cs => some ([], cs)

def readUnsigned (cs : List Char) : Option (List Char × List Char) := do
  let (whole, cs) ← readWhole cs
  let (fraction, cs) ← readFraction cs
  let (exponent, cs) ← readExponent cs
  return (whole ++ fraction ++ exponent, cs)

def readNumber : List Char → Option (List Char × List Char)
  | '-' :: cs => (readUnsigned cs).map fun (digits, rest) => ('-' :: digits, rest)
  | cs => readUnsigned cs

/-! ## Values -/

mutual

/-- A value. The first argument bounds the depth of the calls. -/
def readValue : Nat → List Char → Option (Json × List Char)
  | 0, _ => none
  | fuel + 1, cs =>
    match skip cs with
    | 'n' :: 'u' :: 'l' :: 'l' :: rest => some (.null, rest)
    | 't' :: 'r' :: 'u' :: 'e' :: rest => some (.bool true, rest)
    | 'f' :: 'a' :: 'l' :: 's' :: 'e' :: rest => some (.bool false, rest)
    | '"' :: rest => (readString rest).map fun (text, rest) => (.string text, rest)
    | '[' :: rest =>
      match skip rest with
      | ']' :: rest => some (.array [], rest)
      | rest => (readItems fuel rest).map fun (items, rest) => (.array items, rest)
    | '{' :: rest =>
      match skip rest with
      | '}' :: rest => some (.object [], rest)
      | rest => (readMembers fuel rest).map fun (members, rest) => (.object members, rest)
    | rest => (readNumber rest).map fun (digits, rest) => (.number (String.ofList digits), rest)

def readItems : Nat → List Char → Option (List Json × List Char)
  | 0, _ => none
  | fuel + 1, cs => do
    let (item, rest) ← readValue fuel cs
    match skip rest with
    | ']' :: rest => return ([item], rest)
    | ',' :: rest =>
      let (items, rest) ← readItems fuel rest
      return (item :: items, rest)
    | _ => none

def readMembers : Nat → List Char → Option (List (Option String × Json) × List Char)
  | 0, _ => none
  | fuel + 1, cs =>
    match skip cs with
    | '"' :: rest => do
      let (name, rest) ← readString rest
      match skip rest with
      | ':' :: rest =>
        let (value, rest) ← readValue fuel rest
        match skip rest with
        | '}' :: rest => return ([(name, value)], rest)
        | ',' :: rest =>
          let (members, rest) ← readMembers fuel rest
          return ((name, value) :: members, rest)
        | _ => none
      | _ => none
    | _ => none

end

def read? (text : String) : Option Json := do
  let cs := text.toList
  let (value, rest) ← readValue (2 * cs.length + 2) cs
  if (skip rest).isEmpty then return value else none

end AccumulatorMachine.Json
