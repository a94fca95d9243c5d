import AccumulatorMachine.Assembly.Listing
import AccumulatorMachine.CommandLine.Arguments

/-! # Invocations

What a command line asks for: the options that all commands share, and one command or none. The
shared options may stand before the command and after it; the value after it counts.
-/

namespace AccumulatorMachine.CommandLine
set_option autoImplicit false

/-! ## Commands -/

structure RunOptions where
  program : String
  maxCycles : Option UInt64
  json : Bool
  dump : Option String
deriving DecidableEq

inductive Command
  /-- Run a program up to its end or a number of instructions. -/
  | run (options : RunOptions)
  /-- Load a program into the debugger. -/
  | debug (program : String)
  /-- List the machine code of a program. -/
  | assemble (source : String) (format : CodeFormat)
  /-- Show the control lines of a mnemonic, or of all. -/
  | signals (mnemonic : Option String)
  /-- Check the simulator itself. -/
  | selfTest
deriving DecidableEq

/-- What a command line asks for. -/
structure Invocation where
  config : Option String := none
  memorySize : Option UInt64 := none
  trace : Bool := false
  command : Option Command := none
deriving DecidableEq

/-! ## Names and grammars -/

inductive CommandName
  | run
  | debug
  | assemble
  | signals
  | selfTest
deriving DecidableEq

def sharedOptions : List OptionForm :=
  [⟨"config", some 'c', .text⟩, ⟨"memory-size", none, .number⟩, ⟨"trace", some 't', .flag⟩,
   ⟨"help", some 'h', .help⟩]

namespace CommandName

def all : List CommandName := [run, debug, assemble, signals, selfTest]

def text : CommandName → String
  | run => "run"
  | debug => "debug"
  | assemble => "asm"
  | signals => "signals"
  | selfTest => "test"

def ofText? (text : String) : Option CommandName := all.find? fun c => c.text == text

def ownOptions : CommandName → List OptionForm
  | run =>
    [⟨"max-cycles", some 'm', .number⟩, ⟨"json", none, .flag⟩, ⟨"dump", some 'd', .text⟩]
  | assemble => [⟨"format", some 'f', .choice ["hex", "binary"]⟩]
  | debug | signals | selfTest => []

def operandLimit : CommandName → Nat
  | run | debug | assemble | signals => 1
  | selfTest => 0

/-- What may stand after the name of a command. -/
def grammar (c : CommandName) : Grammar :=
  { options := sharedOptions ++ c.ownOptions, operands := c.operandLimit }

end CommandName

def commandWords : List String := CommandName.all.map CommandName.text ++ ["help"]

/-- What may stand before a command. -/
def topGrammar : Grammar :=
  { options := sharedOptions ++ [⟨"version", some 'V', .version⟩], commands := commandWords }

/-! ## Reading -/

def neededOperand (r : Reading) : Except Stop String :=
  match r.operands.head? with
  | some text => .ok text
  | none => .error .refused

def formatOption (r : Reading) : CodeFormat :=
  if r.value? "format" = some "binary" then .binary else .hex

/-- The command of a name, from what stands after it. -/
def CommandName.command (c : CommandName) (r : Reading) : Except Stop Command :=
  match c with
  | run => do
    return .run {
      program := ← neededOperand r
      maxCycles := r.number? "max-cycles"
      json := r.has "json"
      dump := r.value? "dump" }
  | debug => (neededOperand r).map .debug
  | assemble => (neededOperand r).map fun path => .assemble path (formatOption r)
  | signals => .ok (.signals r.operands.head?)
  | selfTest => .ok .selfTest

/-- The answer to the command `help`, whose operands are names of commands. -/
def helpAbout (names : List String) : Stop :=
  if names.length ≤ 1 ∧ names.all commandWords.contains then .help else .refused

def Invocation.ofReadings (top own : Reading) (command : Option Command) : Invocation where
  config := own.value? "config" <|> top.value? "config"
  memorySize := own.number? "memory-size" <|> top.number? "memory-size"
  trace := own.has "trace" || top.has "trace"
  command := command

/-- What a command line asks for. -/
def Invocation.ofArguments (arguments : List String) : Except Stop Invocation := do
  let (top, rest) ← Reading.read topGrammar {} arguments
  match rest with
  | [] => return ofReadings top {} none
  | name :: rest =>
    match CommandName.ofText? name with
    | none => throw (helpAbout rest)
    | some name =>
      let (own, _) ← Reading.read name.grammar {} rest
      let command ← name.command own
      let top ← top.settle
      return ofReadings top own (some command)

end AccumulatorMachine.CommandLine
