import Monomorph.CommandLine

/-!
# Monomorph.Main

The program: reads the file that the arguments name and prints what the command answers.
-/

open Monomorph

def readBytes? (path : String) : IO (Option ByteArray) := do
  try
    return some (← IO.FS.readBinFile path)
  catch _ =>
    return none

/-- Runs the command of the arguments; arguments that make no command exit with 2. -/
def main (args : List String) : IO UInt32 := do
  match Command.ofArgs? args with
  | none =>
    IO.eprintln "Usage: monomorph [--verbose] keys [--json] INPUT | check INPUT"
    return 2
  | some command =>
    let outcome := command.run (← readBytes? command.path)
    IO.print outcome.output
    IO.eprint outcome.errorOutput
    return outcome.exitCode.toUInt32
