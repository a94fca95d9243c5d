import AccumulatorMachine.CommandLine.Files
import AccumulatorMachine.CommandLine.Invocation
import AccumulatorMachine.Instruction.Control
import AccumulatorMachine.Json.Forms
import AccumulatorMachine.Json.Sorted
import AccumulatorMachine.Json.Writer
import AccumulatorMachine.Memory.Row
import AccumulatorMachine.Session

/-! # Commands

What each command prints, on which stream, and with which exit status, as a function of the files
it can read. A command stops at the first failure, which it reports on the second stream; what it
has printed until then stays.
-/

namespace AccumulatorMachine.CommandLine
set_option autoImplicit false
open Text

/-! ## Output -/

structure Output where
  out : String := ""
  err : String := ""
deriving DecidableEq

/-- Work that prints and may fail. -/
abbrev Job := EStateM Unit Output

def put (text : String) : Job Unit := modify fun o => { o with out := o.out ++ text }

def say (line : String) : Job Unit := put (line ++ "\n")

/-- Prints a line on the second stream. -/
def warn (line : String) : Job Unit := modify fun o => { o with err := o.err ++ line ++ "\n" }

/-- Reports a failure and stops. -/
def fail {α : Type} (reason : String) : Job α := do
  warn ("❌ " ++ reason)
  throw ()

def log (events : List Event) : Job Unit :=
  modify fun o => { o with err := o.err ++ String.join (events.map Event.logLine) }

structure Report where
  exit : Nat
  output : Output
deriving DecidableEq

/-- Does the work from the start. -/
def Job.report (job : Job Unit) : Report :=
  match EStateM.run job {} with
  | .ok _ output => ⟨0, output⟩
  | .error _ output => ⟨1, output⟩

/-! ## Settings and sources -/

def fileSettings (files : Files) : Option String → Except SettingsError Settings
  | none => .ok {}
  | some path =>
    match files path with
    | .ok text => Settings.read text
    | .error e => .error (.file e.reason)

/-- The settings of an invocation: those of the file, with the memory size that the invocation
asks for. They are checked in both states. -/
def settings (files : Files) (i : Invocation) : Job Settings := do
  match fileSettings files i.config with
  | .error e => fail ("Failed to load settings: " ++ e.message)
  | .ok s =>
    match ({ s with memorySize := i.memorySize.getD s.memorySize } : Settings).validate with
    | .error e => fail e.message
    | .ok s => return s

def source (files : Files) (path : String) : Job String :=
  match files path with
  | .ok text => pure text
  | .error e => fail ("Failed to read file: " ++ e.reason)

def load (files : Files) (s : Settings) (trace : Bool) (path : String) : Job Session := do
  let text ← source files path
  let fresh := Session.ofSettings s
  if trace then log (fresh.loadEvents text)
  match fresh.load text with
  | (session, .ok p) =>
    say ("📝 Parsed " ++ toString p.instructions.length ++ " instructions, " ++
      toString p.data.length ++ " data words")
    return session
  | (_, .error e) => fail e.message

/-! ## Running -/

/-- The start and the count of a range of rows. -/
def dumpRange? (range : String) : Option (Int × Nat) := do
  let (start, count) ← cutAt ':' range.toList
  return (← signed? (UInt64.size / 2) (trim start), ← unsigned? UInt64.size (trim count))

def stateText (m : Machine) : String :=
  (Json.record [("accumulator", .nat m.accumulator.toNat), ("program_counter", .nat m.pc.toNat),
    ("snapshot", m.snapshot.toJson), ("metrics", m.metrics.toJson)]).sorted.indented

/-- The result of a run of `count` instructions. The rate depends on the clock and stands as
`<time>`. -/
def sayResult (count : Nat) (m : Machine) : Job Unit := do
  let a := m.accumulator
  say ""
  say "━━━ Result ━━━"
  say ("Instructions:     " ++ toString count)
  say ("Branches taken:   " ++ toString m.metrics.branches.toNat)
  say "Instr/second:     <time>"
  say ("PC:               " ++ toString m.pc.toNat)
  say ("ACCU:             " ++ a.binary ++ " = " ++ toString a.toNat ++ " (" ++
    toString a.signed ++ ")")

def sayRows (m : Memory) (range : String) : Job Unit := do
  match dumpRange? range with
  | none => fail ("Invalid dump range '" ++ range ++ "', expected START:COUNT")
  | some (start, count) =>
    match (do
      let first ← m.checkAddress start
      m.rowsFrom first (saturatingSum first count - first)) with
    | .error e => fail e.message
    | .ok rows =>
      say ""
      say "━━━ Memory ━━━"
      rows.forM fun row => say row.text

def runProgram (files : Files) (s : Settings) (trace : Bool) (o : RunOptions) : Job Unit := do
  say ("🔧 Running: " ++ o.program)
  let budget := o.maxCycles.getD s.maxCycles
  let session ← load files s trace o.program
  if trace then log (session.machine.runEvents budget.toNat)
  let (session, result) := session.run budget.toNat
  let m := session.machine
  match result with
  | .error e => fail ("CPU error at PC=" ++ toString m.pc.toNat ++ ": " ++ e.message)
  | .ok count =>
    if o.json then say (stateText m) else sayResult count m
    o.dump.forM fun range => sayRows m.memory range
    if !m.isDone then
      warn ""
      warn ("⚠️  Reached max cycles limit (" ++ toString budget.toNat ++
        "). Use --max-cycles to increase.")

/-! ## The other commands -/

/-- The command `debug`, as far as it goes without a terminal. -/
def debugProgram (files : Files) (s : Settings) (trace : Bool) (path : String) : Job Unit := do
  say ("🔍 Loading: " ++ path)
  let _ ← load files s trace path
  say "🚀 Launching debugger..."
  say ""
  fail "Debugger error: no terminal"

/-- The command `asm`. The listing is for a memory of full size, whatever the settings. -/
def assembleFile (files : Files) (path : String) (format : CodeFormat) : Job Unit := do
  let text ← source files path
  match Program.assemble text fullSize with
  | .error e => fail e.message
  | .ok p =>
    put (Instruction.listing p.instructions format)
    p.data.forM fun datum => say (Memory.dataLine datum.1 datum.2)

def signalRow (k : Kind) : String :=
  let mark (s : Signal) : String := centre s.name.length (if k.asserts s then "1" else "0")
  padEnd ' ' 5 k.mnemonic ++ " ".intercalate (Signal.all.map mark)

def saySignals (mnemonic : Option String) : Job Unit := do
  let kinds ←
    match mnemonic with
    | none => pure Kind.all
    | some name =>
      match Kind.ofMnemonic? name with
      | some k => pure [k]
      | none => fail ("Unknown mnemonic: " ++ name)
  say (padEnd ' ' 5 "" ++ " ".intercalate (Signal.all.map Signal.name))
  kinds.forM fun k => say (signalRow k)

/-! ## The self-test -/

def sampleProgram : String := "INC\nINC\nSTO 1024\nADD 1024\nSTO 1025\nINC\nLDA 4095"

/-- The checks of the self-test that look at single instructions. -/
def codeChecks : List (String × Bool) :=
  [("STO 125 encodes to 007D", (Instruction.sto 125).hex == "007D"),
    ("ADD 5 encodes to 12293", (Instruction.alu .add 5).encode == 12293),
    ("opcode 15 decodes to NOP", (Instruction.decode 0xF000).sameWord .nop)]

/-- Whether a session has run the sample program and has the right words afterwards. -/
def sampleChecked (result : Except StepError Nat) (m : Machine) : Bool :=
  result.isOk && (m.memory.read 1024).toOption == some 2 &&
    (m.memory.read 1025).toOption == some 4 && m.accumulator == 0

def selfTest (trace : Bool) : Job Unit := do
  say "━━━ Toy Self-Test ━━━"
  say ""
  let check (c : String × Bool) : Job Unit := say (c.1 ++ " ... " ++ if c.2 then "✓" else "✗")
  codeChecks.forM check
  let fresh := Session.ofSettings {}
  let budget := fresh.settings.maxCycles.toNat
  if trace then log (fresh.loadEvents sampleProgram)
  let (loaded, _) := fresh.load sampleProgram
  if trace then log (loaded.machine.runEvents budget)
  let (after, result) := loaded.run budget
  let last := ("sample program", sampleChecked result after.machine)
  check last
  let failed := (codeChecks ++ [last]).countP fun c => !c.2
  say ""
  say "━━━━━━━━━━━━━━━━━━━━━━━━━━━━━━"
  say ("Results: " ++ toString (codeChecks.length + 1 - failed) ++ " passed, " ++ toString failed ++
    " failed")
  if failed = 0 then say "✓ All tests passed!" else throw ()

/-! ## Any invocation -/

/-- What is printed if there is no command. -/
def banner : String :=
  "Toy Simulator v0.1.0\nA 16-bit accumulator computer simulator\n\nUse --help for available commands\n"

/-- Does what an invocation asks for. The settings come first, whatever the command. -/
def Invocation.job (files : Files) (i : Invocation) : Job Unit := do
  let s ← settings files i
  match i.command with
  | none => put banner
  | some (.run options) => runProgram files s i.trace options
  | some (.debug program) => debugProgram files s i.trace program
  | some (.assemble path format) => assembleFile files path format
  | some (.signals mnemonic) => saySignals mnemonic
  | some .selfTest => selfTest i.trace

def Invocation.paths (i : Invocation) : List String :=
  i.config.toList ++
    match i.command with
    | some (.run options) => [options.program]
    | some (.debug program) => [program]
    | some (.assemble path _) => [path]
    | _ => []

/-- What a command line leaves, unless it is not understood or wants no more than a notice. -/
def report (files : Files) (arguments : List String) : Except Stop Report := do
  let i ← Invocation.ofArguments arguments
  return (i.job files).report

end AccumulatorMachine.CommandLine
