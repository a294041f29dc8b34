/-!
# Command line arguments

Options have a long name, and most have a letter: `--output FILE`, `--output=FILE`, `-o FILE` and `-oFILE`
are the same, and letters can be joined as in `-ao FILE`. Behind `--` nothing is an option. The options of
the program itself stand before the command, those of a command anywhere behind it.
-/

namespace Coverage.CommandLine

/-- An option that can be given. -/
structure Switch where
  name : String
  letter : Option Char := none
  takesValue : Bool := false
  deriving DecidableEq, Repr

/-- Why arguments make no sense. -/
inductive UsageError where
  | unknownOption
  | missingValue
  | unexpectedValue
  | missingCommand
  | unknownCommand
  | missingArgument
  | extraArgument
  deriving DecidableEq, Repr

/-- An option and its value, if it takes one. -/
abbrev Setting := String × Option String

/-- Arguments, sorted. -/
structure Given where
  options : List Setting := []
  rest : List String := []
  deriving DecidableEq, Repr

/-- Options that an argument stands for, and perhaps one whose value is the next argument. -/
abbrev Reading := List Setting × Option Switch

def readLetters (switches : List Switch) : List Char → Except UsageError Reading
  | [] => .ok ([], none)
  | c :: cs =>
    match switches.find? (·.letter == some c) with
    | none => .error .unknownOption
    | some s =>
      if s.takesValue then
        .ok (if cs.isEmpty then ([], some s) else ([(s.name, some (String.ofList cs))], none))
      else (readLetters switches cs).map fun r ↦ ((s.name, none) :: r.1, r.2)

/-- An argument up to its first equals sign, and what follows that. -/
def cutValue (arg : List Char) : List Char × Option String :=
  match arg.dropWhile (· != '=') with
  | [] => (arg, none)
  | _ :: value => (arg.takeWhile (· != '='), some (String.ofList value))

/-- An option by its long name, or else by letters. -/
def readOption (switches : List Switch) (arg : String) : Except UsageError Reading :=
  let (name, value) := cutValue arg.toList
  match switches.find? fun s ↦ '-' :: '-' :: s.name.toList == name with
  | some s =>
    match s.takesValue, value with
    | true, some v => .ok ([(s.name, some v)], none)
    | true, none => .ok ([], some s)
    | false, some _ => .error .unexpectedValue
    | false, none => .ok ([(s.name, none)], none)
  | none => if arg.startsWith "--" then .error .unknownOption else readLetters switches (arg.toList.drop 1)

def isOption (arg : String) : Bool := arg.startsWith "-" && 1 < arg.length

/-- Sorts arguments. Unless options can stand anywhere, they end at the first argument that is none. -/
def sort (switches : List Switch) (anywhere : Bool) : List String → Except UsageError Given
  | [] => .ok {}
  | arg :: rest =>
    if arg == "--" then .ok { rest }
    else if isOption arg then
      match readOption switches arg, rest with
      | .error e, _ => .error e
      | .ok (options, none), rest =>
        (sort switches anywhere rest).map fun g ↦ { g with options := options ++ g.options }
      | .ok (options, some s), value :: rest =>
        (sort switches anywhere rest).map fun g ↦ { g with options := options ++ (s.name, some value) :: g.options }
      | .ok (_, some _), [] => .error .missingValue
    else if anywhere then (sort switches anywhere rest).map fun g ↦ { g with rest := arg :: g.rest }
    else .ok { rest := arg :: rest }

namespace Given

def has (g : Given) (name : String) : Bool := g.options.any (·.1 == name)

/-- The value of an option; the last one counts. -/
def value? (g : Given) (name : String) : Option String :=
  (g.options.reverse.find? (·.1 == name)).bind (·.2)

end Given

/-! ## Commands -/

/-- What is asked for. -/
inductive Command where
  | version
  | help
  /-- Print a script with counters. -/
  | instrument (path : String) (output metadata config : Option String)
  /-- Run a script and report. -/
  | run (path format : String) (output config : Option String) (all : Bool)
  deriving DecidableEq, Repr

structure Invocation where
  verbose : Bool
  command : Command
  deriving DecidableEq, Repr

def helpSwitch : Switch := ⟨"help", none, false⟩

def programSwitches : List Switch := [⟨"version", some 'v', false⟩, ⟨"verbose", some 'V', false⟩, helpSwitch]

def instrumentSwitches : List Switch :=
  [⟨"output", some 'o', true⟩, ⟨"metadata", some 'm', true⟩, ⟨"config", some 'c', true⟩, helpSwitch]

def runSwitches : List Switch :=
  [⟨"format", some 'f', true⟩, ⟨"output", some 'o', true⟩, ⟨"config", some 'c', true⟩, ⟨"all", some 'a', false⟩,
    helpSwitch]

/-- The one argument of a command. -/
def onePath : List String → Except UsageError String
  | [] => .error .missingArgument
  | [path] => .ok path
  | _ => .error .extraArgument

def instrumentCommand (args : List String) : Except UsageError Command := do
  let g ← sort instrumentSwitches true args
  if g.has "help" then return .help
  return .instrument (← onePath g.rest) (g.value? "output") (g.value? "metadata") (g.value? "config")

def runCommand (args : List String) : Except UsageError Command := do
  let g ← sort runSwitches true args
  if g.has "help" then return .help
  return .run (← onePath g.rest) ((g.value? "format").getD "console") (g.value? "output") (g.value? "config")
    (g.has "all")

/-- What arguments ask for. The version and the help come before everything else. -/
def invocation (args : List String) : Except UsageError Invocation := do
  let g ← sort programSwitches false args
  let verbose := g.has "verbose"
  match g.options.find? fun o ↦ o.1 != "verbose" with
  | some ("version", _) => return ⟨verbose, .version⟩
  | some _ => return ⟨verbose, .help⟩
  | none =>
    match g.rest with
    | [] => throw .missingCommand
    | "instrument" :: args => return ⟨verbose, ← instrumentCommand args⟩
    | "run" :: args => return ⟨verbose, ← runCommand args⟩
    | _ => throw .unknownCommand

end Coverage.CommandLine
