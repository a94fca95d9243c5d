import AccumulatorMachine.Word

/-! # Instructions

An instruction word holds a four-bit opcode above a twelve-bit address. Opcodes 0 to 7 use the
address, 8 to 11 work on the accumulator alone, and 12 to 15 all mean "do nothing".

* `Kind` is an instruction without its operand, `Kind.opcode` and `Kind.ofOpcode` its number.
* `Instruction` keeps its operand as it was given, all sixteen bits of it. Only the low twelve
  count: `Instruction.operand?` reduces it, and `Instruction.sameWord` compares instructions by
  the word that they encode to.
* `Instruction.decode` reads any word and `Instruction.encode` writes one.
-/

namespace AccumulatorMachine
set_option autoImplicit false

/-- The operations that combine the accumulator with a memory cell. -/
inductive AluOp
  | add
  | sub
  | or
  | and
  | xor
deriving DecidableEq

/-- The operations that change the accumulator alone. -/
inductive AccuOp
  | not
  | inc
  | dec
  | zro
deriving DecidableEq

/-- What an instruction does, without its operand. -/
inductive Kind
  /-- Store the accumulator in memory. -/
  | sto
  /-- Load the accumulator from memory. -/
  | lda
  /-- Branch if the accumulator is zero. -/
  | brz
  /-- Combine the accumulator with a memory cell. -/
  | alu (op : AluOp)
  /-- Change the accumulator alone. -/
  | accu (op : AccuOp)
  /-- Do nothing. -/
  | nop
deriving DecidableEq

def addressMask : Word := 0x0FFF

/-! ## Kinds -/

namespace Kind

def all : List Kind :=
  [sto, lda, brz, alu .add, alu .sub, alu .or, alu .and, alu .xor,
   accu .not, accu .inc, accu .dec, accu .zro, nop]

def opcode : Kind → Nat
  | sto => 0
  | lda => 1
  | brz => 2
  | alu .add => 3
  | alu .sub => 4
  | alu .or => 5
  | alu .and => 6
  | alu .xor => 7
  | accu .not => 8
  | accu .inc => 9
  | accu .dec => 10
  | accu .zro => 11
  | nop => 12

/-- The kind of the opcode in the low four bits of a number; the unused opcodes do nothing. -/
def ofOpcode (n : Nat) : Kind :=
  match n % 16 with
  | 0 => sto
  | 1 => lda
  | 2 => brz
  | 3 => alu .add
  | 4 => alu .sub
  | 5 => alu .or
  | 6 => alu .and
  | 7 => alu .xor
  | 8 => accu .not
  | 9 => accu .inc
  | 10 => accu .dec
  | 11 => accu .zro
  | _ => nop

def mnemonic : Kind → String
  | sto => "STO"
  | lda => "LDA"
  | brz => "BRZ"
  | alu .add => "ADD"
  | alu .sub => "SUB"
  | alu .or => "OR"
  | alu .and => "AND"
  | alu .xor => "XOR"
  | accu .not => "NOT"
  | accu .inc => "INC"
  | accu .dec => "DEC"
  | accu .zro => "ZRO"
  | nop => "NOP"

/-- The name of a kind in data formats: one capital letter, then small ones. -/
def tag (k : Kind) : String :=
  match k.mnemonic.toList with
  | [] => ""
  | c :: cs => String.ofList (c :: cs.map Char.toLower)

/-- The kind with the mnemonic `name`, in letters of either case. Only the letters `A` to `Z` have
two cases here. -/
def ofMnemonic? (name : String) : Option Kind :=
  all.find? fun k => k.mnemonic.toList == name.toList.map Char.toUpper

def ofTag? (name : String) : Option Kind := all.find? fun k => k.tag == name

def hasAddress : Kind → Bool
  | sto | lda | brz | alu _ => true
  | accu _ | nop => false

@[simp] theorem ofOpcode_opcode (k : Kind) : ofOpcode k.opcode = k := by
  cases k with
  | alu op => cases op <;> rfl
  | accu op => cases op <;> rfl
  | _ => rfl

theorem opcode_lt (k : Kind) : k.opcode < 13 := by
  cases k with
  | alu op => cases op <;> decide
  | accu op => cases op <;> decide
  | _ => decide

theorem hasAddress_eq (k : Kind) : k.hasAddress = decide (k.opcode < 8) := by
  cases k with
  | alu op => cases op <;> rfl
  | accu op => cases op <;> rfl
  | _ => rfl

theorem ofMnemonic?_mnemonic (k : Kind) : ofMnemonic? k.mnemonic = some k := by
  cases k with
  | alu op => cases op <;> decide
  | accu op => cases op <;> decide
  | _ => decide

theorem ofTag?_tag (k : Kind) : ofTag? k.tag = some k := by
  cases k with
  | alu op => cases op <;> decide
  | accu op => cases op <;> decide
  | _ => decide

end Kind

/-! ## Instructions -/

/-- An instruction, its operand being as wide as a word. -/
inductive Instruction
  | sto (operand : Word)
  | lda (operand : Word)
  | brz (operand : Word)
  | alu (op : AluOp) (operand : Word)
  | accu (op : AccuOp)
  | nop
deriving DecidableEq

namespace Instruction

def kind : Instruction → Kind
  | sto _ => .sto
  | lda _ => .lda
  | brz _ => .brz
  | alu op _ => .alu op
  | accu op => .accu op
  | nop => .nop

/-- The instruction of a kind with this operand, kept as it is. -/
def ofKind (k : Kind) (operand : Word) : Instruction :=
  match k with
  | .sto => sto operand
  | .lda => lda operand
  | .brz => brz operand
  | .alu op => alu op operand
  | .accu op => accu op
  | .nop => nop

/-- The operand as it was given, all bits of it. -/
def given? : Instruction → Option Word
  | sto a | lda a | brz a | alu _ a => some a
  | accu _ | nop => none

/-- The twelve bits of the operand that count. -/
def operand? (i : Instruction) : Option Word := i.given?.map (· &&& addressMask)

/-- The instruction of a kind, with its operand reduced to an address. -/
def make (k : Kind) (operand : Word) : Instruction := ofKind k (operand &&& addressMask)

/-- The instruction with the mnemonic `name`, in letters of either case. -/
def ofMnemonic? (name : String) (operand : Word) : Option Instruction :=
  (Kind.ofMnemonic? name).map (make · operand)

/-- The same instruction with its operand reduced to an address. -/
def reduced (i : Instruction) : Instruction := make i.kind (i.given?.getD 0)

def decode (w : Word) : Instruction := make (Kind.ofOpcode (w.toNat / 4096)) w

/-- The word of an instruction: the opcode above the address, or above zeros. -/
def encode (i : Instruction) : Word :=
  UInt16.ofNat (i.kind.opcode * 4096) ||| i.operand?.getD 0

def sameWord (i j : Instruction) : Bool := i.encode == j.encode

/-- The state of a hash after the instruction, `mix` being how the hash takes in a word. -/
def hashInto {σ : Type} (mix : σ → Word → σ) (state : σ) (i : Instruction) : σ :=
  mix state i.encode

def mnemonic (i : Instruction) : String := i.kind.mnemonic

def text (i : Instruction) : String :=
  match i.operand? with
  | some a => i.mnemonic ++ " " ++ toString a.toNat
  | none => i.mnemonic

/-- The tag of an instruction with its operand as it was given, as diagnostic texts show it. -/
def description (i : Instruction) : String :=
  match i.given? with
  | some a => i.kind.tag ++ "(" ++ toString a.toNat ++ ")"
  | none => i.kind.tag

def binary (i : Instruction) : String := i.encode.binary

def hex (i : Instruction) : String := i.encode.hex

/-! ## Small facts -/

@[simp] theorem kind_ofKind (k : Kind) (a : Word) : (ofKind k a).kind = k := by cases k <;> rfl

@[simp] theorem kind_make (k : Kind) (a : Word) : (make k a).kind = k := kind_ofKind k _

@[simp] theorem kind_reduced (i : Instruction) : i.reduced.kind = i.kind := kind_make _ _

theorem given?_ofKind (k : Kind) (a : Word) :
    (ofKind k a).given? = if k.hasAddress then some a else none := by cases k <;> rfl

@[simp] theorem operand?_reduced (i : Instruction) : i.reduced.operand? = i.operand? := by
  cases i <;> simp [reduced, make, ofKind, kind, given?, operand?, UInt16.and_assoc]

@[simp] theorem encode_reduced (i : Instruction) : i.reduced.encode = i.encode := by
  simp [encode]

end Instruction

end AccumulatorMachine
