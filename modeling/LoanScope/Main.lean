import LoanScope.Command

/-! The command line: reads the files that the arguments name, runs the command on them, and
prints. -/

namespace LoanScope.Command

/-- The content of a file, if it can be read. -/
def readFile? (path : String) : IO (Option String) := do
  try
    return some (← IO.FS.readFile path)
  catch _ =>
    return none

/-- Colours are on for a terminal, unless the environment forbids or forces them. -/
def wantsColours : IO Bool := do
  let forced := (← IO.getEnv "CLICOLOR_FORCE").any (· ≠ "0")
  let forbidden := (← IO.getEnv "NO_COLOR").isSome
  let allowed := (← IO.getEnv "CLICOLOR").all (· ≠ "0")
  let terminal ← (← IO.getStdout).isTty
  return forced || (!forbidden && allowed && terminal)

end LoanScope.Command

def main (args : List String) : IO UInt32 := do
  let invocation := LoanScope.Command.parse args
  let files ← invocation.files.mapM fun path => do return (path, ← LoanScope.Command.readFile? path)
  let outcome := invocation.run (fun path => (files.lookup path).join)
    (← LoanScope.Command.wantsColours)
  IO.print outcome.stdout
  IO.eprint outcome.stderr
  return outcome.exit
