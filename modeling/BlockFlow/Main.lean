import BlockFlow.CommandLine

/-!
# The program

Reads the files that the arguments name, carries out the request and prints its outcome.
-/

namespace BlockFlow.CommandLine

/-- A summary of the arguments. -/
def helpText : String :=
  "Value numbering and liveness reports for described procedures\n\n" ++
  "Arguments: [OPTIONS] <INPUT>\n\n" ++
  "  -a, --analysis value-numbering|liveness|all   analyses to run (all)\n" ++
  "  -c, --config PATH                             configuration file\n" ++
  "  -s, --strategy round-robin|worklist           overrides the configuration file\n" ++
  "  -f, --format text|json                        output format (text)\n" ++
  "  -v, --verbose                                 more log output\n" ++
  "  -h, --help                                    this text\n"

/-- The text of a failure. -/
def Failure.message : Failure → String
  | config error => error.message
  | analysis error => error.message

/-- The content of a file, if it can be read. -/
def readContent (path : String) : IO (Option ByteArray) := do
  try
    return some (← IO.FS.readBinFile path)
  catch _ =>
    return none

/-- The contents of the files that a request names. -/
def Request.readContents (request : Request) : IO (String → Option ByteArray) := do
  let input ← readContent request.input
  match request.config with
  | none => return fun path ↦ if path = request.input then input else none
  | some config =>
    let settings ← readContent config
    return fun path ↦
      if path = request.input then input else if path = config then settings else none

/-- Prints an outcome: reports and help to standard output, all else to standard error. -/
def Outcome.report : Outcome → IO Unit
  | success output => IO.print output
  | help => IO.print helpText
  | failure cause => IO.eprintln s!"error: {cause.message}"
  | usage _ => IO.eprint helpText

end BlockFlow.CommandLine

/-- Runs the command line. -/
def main (args : List String) : IO UInt32 := do
  let contents ←
    match BlockFlow.CommandLine.Request.ofArgs args with
    | .ok request => request.readContents
    | .error _ => pure fun _ ↦ none
  let outcome := BlockFlow.CommandLine.run .own args contents
  outcome.report
  return outcome.exitCode
