import Coverage.CommandLine
import Coverage.Syntax.Exchange

/-!
# The program

Reads the files that a command line names, runs it, and prints and writes what it says. Scripts are not
parsed here: beside a script stands its syntax tree as JSON, in a file with `.json` added to the name, and
code is written as such a tree.
-/

namespace Coverage.CommandLine

open Syntax

def readText? (path : String) : IO (Option String) := do
  try
    return some (← IO.FS.readFile path)
  catch _ => return none

def treeOf (text : Option String) : Except String Node :=
  match (text.bind Json.read?).bind (readNode 0) with
  | some (tree, _) => .ok tree
  | none => .error "no syntax tree"

def addFile (path : String) (folder : Folder) : IO Folder := do
  match ← readText? path with
  | none => return folder
  | some text => return folder.put (Config.tidyPath path) { text, tree := treeOf (← readText? (path ++ ".json")) }

/-- The files that a command reads. -/
def inputs (args : List String) : List String :=
  match invocation args with
  | .ok ⟨_, .instrument path _ _ config⟩ => path :: config.toList
  | .ok ⟨_, .run path _ _ config _⟩ => path :: config.toList
  | _ => []

def partText : Part → String
  | .text s => s
  | .code tree => Json.write { indent := some 2 } (writeNode { places := false } tree) ++ "\n"

end Coverage.CommandLine

open Coverage CommandLine

def main (args : List String) : IO UInt32 := do
  let mut folder : Folder := {}
  for path in inputs args do
    folder ← addFile path folder
  let r := run folder args
  for part in r.effects.printed do
    IO.print (partText part)
  for (path, part) in r.effects.written.pairs do
    IO.FS.writeFile path (partText part)
  match r.ending with
  | .exit code => return code.toUInt32
  | .escaped _ => return 1
