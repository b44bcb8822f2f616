import TextMate.CommandLine.Plan

/-!
# The command line
-/

namespace TextMate.CommandLine

/-- The wording of a failure to write a file, with its number. -/
def failureText : IO.Error → String
  | .noFileOrDirectory _ code details | .inappropriateType _ code details
  | .invalidArgument _ code details | .permissionDenied _ code details
  | .resourceExhausted _ code details | .alreadyExists _ code details
  | .noSuchThing _ code details | .interrupted _ code details
  | .otherError code details | .resourceBusy code details | .resourceVanished code details
  | .unsupportedOperation code details | .hardwareFault code details
  | .unsatisfiedConstraints code details | .illegalOperation code details
  | .protocolError code details | .timeExpired code details => s!"{details} (os error {code})"
  | .unexpectedEof => "unexpected end of file"
  | .userError message => message

/-- Carry out a plan on the terminal and the disk. -/
def Plan.execute : Plan → IO UInt32
  | .finish code out err => do
    IO.print out
    IO.eprint err
    return code
  | .write out path content next => do
    IO.print out
    let failure ← try
        IO.FS.writeFile path content
        pure none
      catch e => pure (some (failureText e))
    (next failure).execute

/-- Whether output is coloured: when forced, or on a terminal that is not told otherwise. -/
def wantsColors : IO Bool := do
  if let some force ← IO.getEnv "CLICOLOR_FORCE" then
    if force != "0" then
      return true
  if (← IO.getEnv "NO_COLOR").isSome || (← IO.getEnv "CLICOLOR") == some "0" then
    return false
  (← IO.getStdout).isTty

end TextMate.CommandLine

open TextMate.CommandLine in
def main (arguments : List String) : IO UInt32 := do
  (plan (← wantsColors) arguments).execute
