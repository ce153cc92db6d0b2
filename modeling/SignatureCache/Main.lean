import SignatureCache.CommandLine.Report

/-!
# The command line

Reads the file that the command names, prints the report, and tells a failure by its text and the
exit status. A command line that makes no sense is answered with status 2.
-/

namespace SignatureCache

/-- How to call the program. -/
def usage : String :=
  "Usage: query <FILE> --start <NUMBER> --end <NUMBER> [--resolution <N>] [--depth <N>] [--exact]\n" ++
  "             [--repeat <N>] [--max-resolution <N>]\n" ++
  "       dyadic <FILE> --offset <N> --power <N> [--resolution <N>] [--depth <N>] [--exact]\n"

/-- The content of a file, if it can be read. -/
def readFile? (file : String) : IO (Option (List UInt8)) := do
  try
    return some (← IO.FS.readBinFile file).toList
  catch _ => return none

end SignatureCache

open SignatureCache

def main (arguments : List String) : IO UInt32 := do
  match CommandLine.read? arguments with
  | none =>
    IO.eprint usage
    return 2
  | some request =>
    let outcome := CommandLine.report request (← readFile? request.input.file)
    IO.print outcome.printed
    if let some messages := outcome.failure? then
      IO.eprint (CommandLine.failureText messages)
    return outcome.status.toUInt32
