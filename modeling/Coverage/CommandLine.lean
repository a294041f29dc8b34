import Coverage.CommandLine.Arguments
import Coverage.Datum.Json
import Coverage.Report.Data
import Coverage.Report.Table
import Coverage.Run
import Coverage.Text.Wrap

/-!
# The commands

What a command prints and writes, for a folder with the files it can read. Reading a script as a tree and
writing a tree as code are left to those who run a command.
-/

namespace Coverage.CommandLine

open Program Syntax

/-- A file: its text and, if it is a script, its tree or what is wrong with it. -/
structure File where
  text : String
  tree : Except String Node

/-- The files that a command can read, by their paths. -/
abbrev Folder := OrderedMap String File

namespace Folder

def file? (f : Folder) (path : String) : Option File := f.get? (Config.tidyPath path)

def isFolder (f : Folder) (path : String) : Bool :=
  let path := Config.tidyPath path
  path == "." || f.keys.any (·.startsWith (path ++ "/"))

end Folder

/-- What is printed or written. -/
inductive Part where
  | text (s : String)
  /-- The code of a tree. -/
  | code (tree : Node)

/-- What ends a command in a way that it does not report itself. -/
inductive Escape where
  | config (cause : ConfigError)
  | yaml (cause : Yaml.Unreadable)
  | pass (cause : Fault)
  | report (cause : Malformed)
  | isFolder
  | noFolder
  | missingFolder
  /-- An exception that no script should raise. -/
  | exception (cls : ExceptionClass)
  | undecided

/-- How a command ends before its end. -/
inductive Stop where
  | exit (code : Nat)
  | escaped (cause : Escape)

/-- What a command does. -/
structure Effects where
  printed : List Part := []
  written : OrderedMap String Part := {}

abbrev Action (α : Type) := ExceptT Stop (StateM Effects) α

def terminal : Nat := 100

def print (p : Part) : Action Unit := modify fun e ↦ { e with printed := e.printed ++ [p] }

/-- Prints a line, wrapped if it is too long. -/
def say (s : String) : Action Unit := print (.text (String.join ((Text.wrap terminal s).map (· ++ "\n"))))

/-- Reports an error and ends. -/
def complain {α : Type} (message : String) : Action α := do
  say message
  throw (.exit 1)

def escape {α : Type} (cause : Escape) : Action α := throw (.escaped cause)

/-- The folder that a path is in; `.` for the current one. -/
def parent (path : String) : String :=
  let path := Config.tidyPath path
  let above := "/".intercalate (path.splitOn "/").dropLast
  if above == "" then "." else above

def write (folder : Folder) (path : String) (p : Part) : Action Unit := do
  if folder.isFolder path then escape .isFolder
  if (folder.file? (parent path)).isSome then escape .noFolder
  if !folder.isFolder (parent path) then escape .missingFolder
  modify fun e ↦ { e with written := e.written.put (Config.tidyPath path) p }

/-! ## Inputs -/

def loadConfig (folder : Folder) (path : Option String) : Action Config := do
  match path with
  | none => return {}
  | some path =>
    if folder.isFolder path then escape .isFolder
    match Config.ofFile path ((folder.file? path).map (·.text)) with
    | .ok c => return c
    | .error (.missing path) => complain ("Error: " ++ Config.FileError.missingMessage path)
    | .error (.unreadable cause) => escape (.yaml cause)
    | .error (.invalid cause) => if cause.isOwn then complain ("Error: " ++ cause.message) else escape (.config cause)

/-- A script with its counters. -/
structure Prepared where
  config : Config
  tree : Node
  record : Metadata Kind

def prepare (folder : Folder) (path : String) (configPath : Option String) : Action Prepared := do
  let config ← loadConfig folder configPath
  match folder.file? path with
  | none => complain ("Error: File not found: " ++ path)
  | some file =>
    match file.tree with
    | .error message => complain ("Syntax error: " ++ message)
    | .ok tree =>
      match config.plan path (some (Text.unifyNewlines file.text)) with
      | .error cause => escape (.config cause)
      | .ok plan =>
        match instrument plan {} tree.freshId tree with
        | .error stop => escape (.pass stop.fault)
        | .ok r => return { config, tree := r.tree, record := r.record }

/-- A path that is given and not empty. -/
def chosen (path : Option String) : Option String := path.filter (· != "")

/-! ## Commands -/

def runInstrument (folder : Folder) (path : String) (output metadata config : Option String) : Action Unit := do
  let p ← prepare folder path config
  match chosen output with
  | some output =>
    write folder output (.code p.tree)
    say ("✓ Output written to " ++ output)
  | none => print (.code p.tree)
  match chosen metadata with
  | some metadata =>
    write folder metadata (.text (Json.write { indent := some 2 } p.record.toDatum))
    say ("✓ Metadata written to " ++ metadata)
  | none => pure ()

/-- Whether leaving a script with these arguments is a success. -/
def isSuccess : List Value → Bool
  | [] => true
  | [v] => v = .none || v.int? = some 0
  | _ => false

/-- The name of the exception that a script failed with. -/
def failure? (r : Ran) : Action (Option String) := do
  match r.outcome with
  | .finished => return none
  | .undecided => escape .undecided
  | .raised e =>
    match r.memory.heap.exception? e with
    | none => escape .undecided
    | some (cls, args) =>
      if cls.isA .exception then return some cls.name
      if cls.isA .systemExit then return if isSuccess args then none else some cls.name
      escape (.exception cls)

/-- The first line of a frame around a text, with a title in its middle. -/
def frameTop (width : Nat) (title : String) : String :=
  let title := " " ++ title ++ " "
  let space := width - 4 - Text.width title
  "╭─" ++ "".pushn '─' (space / 2) ++ title ++ "".pushn '─' (space - space / 2) ++ "─╮"

def runScript (folder : Folder) (path format : String) (output config : Option String) (all : Bool) :
    Action Unit := do
  let p ← prepare folder path config
  let (ledger, memory) := ({} : Memory).newLedger
  let ran := execute Run.limits p.tree path p.config.globalName ledger {} memory
  let failure ← failure? ran
  match analyzeLedger (ran.memory.ledger ledger) p.record with
  | .error cause => escape (.report cause)
  | .ok report =>
    let json := Json.write { indent := some 2, ascii := true } (report.toDatum .float)
    match chosen output with
    | some output =>
      write folder output (.text json)
      say ("✓ Output written to " ++ output)
    | none => print (.text (if format == "json" then json ++ "\n" else report.display all))
    match failure with
    | none => pure ()
    | some name =>
      print (.text (frameTop terminal ("✗ " ++ path ++ " raised " ++ name)))
      throw (.exit 1)

def versionText : String := "countcov v0.1.0"

def runCommandIn (folder : Folder) : Command → Action Unit
  | .version => say versionText
  | .help => pure ()
  | .instrument path output metadata config => runInstrument folder path output metadata config
  | .run path format output config all => runScript folder path format output config all

/-- How a command ends. -/
inductive Ending where
  | exit (code : Nat)
  | escaped (cause : Escape)

/-- What a command line does and how it ends. -/
structure Result where
  ending : Ending
  effects : Effects := {}
  verbose : Bool := false

def run (folder : Folder) (args : List String) : Result :=
  match invocation args with
  | .error _ => { ending := .exit 2 }
  | .ok i =>
    let (result, effects) := (runCommandIn folder i.command).run {}
    let ending := match result with
      | .ok () => Ending.exit 0
      | .error (.exit code) => .exit code
      | .error (.escaped cause) => .escaped cause
    { ending, effects, verbose := i.verbose }

end Coverage.CommandLine
