import BlockFlow.Report
import BlockFlow.Solver

/-!
# Arguments

One input file and options. An option that takes a value takes it from the next argument, after an
equals sign, or directly after its letter; letters of flags may stand together. What begins with a
hyphen is an option, save for a lone hyphen and for all that follows two hyphens. An option that
takes a value may be given once.
-/

namespace BlockFlow.CommandLine

/-- How reports are written. -/
inductive Format where
  | text
  | json
  deriving DecidableEq, Repr

/-- An option that takes a value. -/
inductive Setting where
  | analysis
  | config
  | strategy
  | format
  deriving DecidableEq, Repr

/-- Anything that an option can ask for. -/
inductive Switch where
  | setting (setting : Setting)
  | verbose
  | help
  deriving DecidableEq, Repr

/-- What can be wrong with arguments. -/
inductive UsageError where
  | unknownOption (text : String)
  | missingValue (setting : Setting)
  | invalidValue (setting : Setting) (value : String)
  | repeatedOption (setting : Setting)
  | unneededValue (option : String)
  | emptyInput
  | extraInput (value : String)
  | missingInput
  deriving DecidableEq, Repr

/-- Why arguments ask for no analysis. -/
inductive Stop where
  | usage (error : UsageError)
  | help
  deriving DecidableEq, Repr

/-- What has been given so far. -/
structure Arguments where
  input : Option String := none
  analyses : Option (List Analysis) := none
  config : Option String := none
  strategy : Option Strategy := none
  format : Option Format := none
  verbosity : Nat := 0
  deriving DecidableEq, Repr

/-- The switch of a long name. -/
def Switch.ofName? (name : String) : Option Switch :=
  if name = "analysis" then some (.setting .analysis)
  else if name = "config" then some (.setting .config)
  else if name = "strategy" then some (.setting .strategy)
  else if name = "format" then some (.setting .format)
  else if name = "verbose" then some .verbose
  else if name = "help" then some .help
  else none

/-- The switch of a letter. -/
def Switch.ofLetter? : Char → Option Switch
  | 'a' => some (.setting .analysis)
  | 'c' => some (.setting .config)
  | 's' => some (.setting .strategy)
  | 'f' => some (.setting .format)
  | 'v' => some .verbose
  | 'h' => some .help
  | _ => none

/-- The analyses that a value asks for. -/
def analyses? (value : String) : Option (List Analysis) :=
  if value = "value-numbering" then some [.valueNumbering]
  else if value = "liveness" then some [.liveness]
  else if value = "all" then some Analysis.all
  else none

/-- The strategy that a value asks for. -/
def strategy? (value : String) : Option Strategy :=
  if value = "round-robin" then some .roundRobin
  else if value = "worklist" then some .worklist
  else none

/-- The format that a value asks for. -/
def format? (value : String) : Option Format :=
  if value = "text" then some .text
  else if value = "json" then some .json
  else none

/-- A path, which is never empty. -/
def path? (value : String) : Option String := if value.isEmpty then none else some value

/-- The value of a setting that was not given before. -/
def settle {β : Type} (setting : Setting) (previous : Option β) (read : String → Option β)
    (value : String) : Except Stop β :=
  match previous, read value with
  | some _, _ => .error (.usage (.repeatedOption setting))
  | none, none => .error (.usage (.invalidValue setting value))
  | none, some result => .ok result

namespace Arguments

/-- Gives a setting its value. -/
def set (a : Arguments) (setting : Setting) (value : String) : Except Stop Arguments :=
  match setting with
  | .analysis => do
    return { a with analyses := some (← settle setting a.analyses analyses? value) }
  | .config => do return { a with config := some (← settle setting a.config path? value) }
  | .strategy => do return { a with strategy := some (← settle setting a.strategy strategy? value) }
  | .format => do return { a with format := some (← settle setting a.format format? value) }

/-- Takes the input file. -/
def setInput (a : Arguments) (value : String) : Except Stop Arguments :=
  match a.input, path? value with
  | some _, _ => .error (.usage (.extraInput value))
  | none, none => .error (.usage .emptyInput)
  | none, some path => .ok { a with input := some path }

/-- A long option: a name, perhaps with a value after an equals sign. Answers the setting that still
waits for its value. -/
def long (a : Arguments) (text : List Char) : Except Stop (Arguments × Option Setting) :=
  let name := String.ofList (text.takeWhile (· ≠ '='))
  let attached := (text.dropWhile (· ≠ '=')).tail?.map String.ofList
  match Switch.ofName? name, attached with
  | none, _ => .error (.usage (.unknownOption name))
  | some (.setting setting), some value => do return (← a.set setting value, none)
  | some (.setting setting), none => .ok (a, some setting)
  | some _, some _ => .error (.usage (.unneededValue name))
  | some .verbose, none => .ok ({ a with verbosity := a.verbosity + 1 }, none)
  | some .help, none => .error .help

/-- The value that follows a letter directly, if there is one; an equals sign before it is
dropped. -/
def attachedValue? : List Char → Option String
  | [] => none
  | '=' :: value => some (String.ofList value)
  | value => some (String.ofList value)

/-- Letters of flags, the last of which may be a setting with its value. Answers the setting that
still waits for its value. -/
def letters (a : Arguments) : List Char → Except Stop (Arguments × Option Setting)
  | [] => .ok (a, none)
  | letter :: rest =>
    match Switch.ofLetter? letter with
    | none => .error (.usage (.unknownOption (String.singleton letter)))
    | some .help => .error .help
    | some .verbose => letters { a with verbosity := a.verbosity + 1 } rest
    | some (.setting setting) =>
      match attachedValue? rest with
      | some value => do return (← a.set setting value, none)
      | none => .ok (a, some setting)

/-- Whether an argument is taken for an option. -/
def isOption (arg : String) : Bool :=
  match arg.toList with
  | '-' :: _ :: _ => true
  | _ => false

/-- One argument. Answers the setting that still waits for its value. -/
def feed (a : Arguments) (arg : String) : Except Stop (Arguments × Option Setting) :=
  match arg.toList with
  | '-' :: '-' :: text => a.long text
  | '-' :: letter :: rest => a.letters (letter :: rest)
  | _ => do return (← a.setInput arg, none)

/-- All arguments, where a setting may be waiting for its value. -/
def feedAll (a : Arguments) : Option Setting → List String → Except Stop Arguments
  | none, [] => .ok a
  | some setting, [] => .error (.usage (.missingValue setting))
  | some setting, arg :: args =>
    if isOption arg then .error (.usage (.missingValue setting))
    else do feedAll (← a.set setting arg) none args
  | none, arg :: args =>
    if arg = "--" then args.foldlM setInput a
    else do
      let (a, waiting) ← a.feed arg
      feedAll a waiting args

end Arguments

/-- An analysis that was asked for. -/
structure Request where
  input : String
  analyses : List Analysis := Analysis.all
  config : Option String := none
  strategy : Option Strategy := none
  format : Format := .text
  verbosity : Nat := 0
  deriving DecidableEq, Repr

/-- The request that arguments make. -/
def Request.ofArgs (args : List String) : Except Stop Request := do
  let a ← Arguments.feedAll {} none args
  match a.input with
  | none => .error (.usage .missingInput)
  | some input =>
    return {
      input
      analyses := a.analyses.getD Analysis.all
      config := a.config
      strategy := a.strategy
      format := a.format.getD .text
      verbosity := a.verbosity }

end BlockFlow.CommandLine
