import AccumulatorMachine.CommandLine.Commands

/-! # The program

Reads the files that the command line names, and prints what the command leaves.
-/

namespace AccumulatorMachine.CommandLine
set_option autoImplicit false

def systemFailure (code : UInt32) (details : String) : FileError :=
  .other (details ++ " (os error " ++ toString code.toNat ++ ")")

def fileError : IO.Error → FileError
  | .noFileOrDirectory .. => .notFound
  | .inappropriateType _ code details
  | .invalidArgument _ code details
  | .permissionDenied _ code details
  | .resourceExhausted _ code details => systemFailure code details
  | e => .other (toString e)

def readText (path : String) : IO (Except FileError String) := do
  try
    let bytes ← IO.FS.readBinFile path
    return match String.fromUTF8? bytes with
    | some text => .ok text
    | none => .error .notText
  catch e => return .error (fileError e)

def readTexts (paths : List String) : IO Files := do
  let texts ← paths.mapM fun path => return (path, ← readText path)
  return fun path => (texts.lookup path).getD (.error .notFound)

def helpText : String :=
  "Usage: toy-sim [-c FILE] [--memory-size N] [-t] [COMMAND]\n\n" ++
  "Commands:\n" ++
  "  run PROGRAM [-m N] [--json] [-d START:COUNT]\n" ++
  "  debug PROGRAM\n" ++
  "  asm SOURCE [-f hex|binary]\n" ++
  "  signals [MNEMONIC]\n" ++
  "  test\n"

end AccumulatorMachine.CommandLine

open AccumulatorMachine.CommandLine in
/-- Prints what the command line asks for and gives its exit status. -/
def main (arguments : List String) : IO UInt32 := do
  match Invocation.ofArguments arguments with
  | .error .help =>
    IO.print helpText
    return 0
  | .error .version =>
    IO.println "toy-sim 0.1.0"
    return 0
  | .error .refused =>
    IO.eprint helpText
    return 2
  | .ok invocation =>
    let files ← readTexts invocation.paths
    let r := (invocation.job files).report
    IO.print r.output.out
    IO.eprint r.output.err
    return UInt32.ofNat r.exit
