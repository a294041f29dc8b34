import Coverage.Exclusion
import Coverage.Pass.Plan
import Coverage.Pattern
import Coverage.Yaml.Reader
import Coverage.Yaml.Writer

/-!
# Configuration

The settings of a pass as a user gives them: directly, as a map, or as a YAML file. A configuration always
has a usable name and a pattern that can be read. The switches are checked only where they come from a map;
given directly they can be any values, and count by their truth.
-/

namespace Coverage

/-- What can be given for a setting. -/
inductive Given where
  | data (d : Datum)
  | bytes (b : List UInt8)
  /-- A value of another type, of which only this much is looked at. -/
  | object (type literal : String) (truth hashable : Bool)

namespace Given

def isTrue : Given → Bool
  | data d => d.isTrue
  | bytes b => !b.isEmpty
  | object _ _ truth _ => truth

def typeName : Given → String
  | data d => d.typeName
  | bytes _ => "bytes"
  | object type _ _ _ => type

/-- The value as a literal of the language. -/
def literal : Given → String
  | data d => d.literal
  | bytes b => "b" ++ Text.quotedBytes b
  | object _ literal _ _ => literal

/-- Whether a value can be a key. -/
def isHashable : Given → Bool
  | data (.list _) => false
  | data (.map _) => false
  | object _ _ _ hashable => hashable
  | _ => true

/-- The value under a text key. -/
def lookup (key : String) : List (Given × Given) → Option Given
  | [] => none
  | (data (.str k), v) :: rest => if k = key then some v else lookup key rest
  | _ :: rest => lookup key rest

end Given

/-- A pattern of a configuration. -/
inductive Config.Pattern where
  | text (s : String)
  | bytes (b : List UInt8)

/-- The settings of a pass. -/
structure Config where
  globalName : String := usualName
  statements : Given := .data (.bool true)
  branches : Given := .data (.bool true)
  functions : Given := .data (.bool true)
  excludePattern : Option Config.Pattern := some (.text usualPattern)

/-- Why there is no configuration. -/
inductive ConfigError where
  | notMapping
  | unknownKeys (keys : List String)
  | notBoolean (key : String)
  | badName (value : Given)
  | badPattern (pattern : Given) (cause : PatternProblem)
  /-- A setting that does not exist, given directly. -/
  | unexpectedArgument (name : String)
  /-- A pattern that is neither text nor bytes. -/
  | patternType
  | unhashablePattern (type : String)
  /-- An unknown key that is no text. -/
  | keyType (type : String)
  /-- Unknown keys that cannot be put in order. -/
  | incomparableKeys (first second : String)
  /-- A pattern of bytes is looked for in a text. -/
  | bytesInText

namespace ConfigError

def message : ConfigError → String
  | notMapping => "Configuration must be a mapping"
  | unknownKeys keys => "Unknown configuration keys: " ++ ", ".intercalate keys
  | notBoolean key => "'" ++ key ++ "' must be a boolean"
  | badName value => "Invalid global name: " ++ value.literal
  | badPattern _ (.invalid message) => "Invalid exclude pattern: " ++ message
  | badPattern _ (.excessive message) => message
  | unexpectedArgument name =>
    "InstrumenterConfig.__init__() got an unexpected keyword argument " ++ Text.quoted name
  | patternType => "first argument must be string or compiled pattern"
  | unhashablePattern type => "unhashable type: '" ++ type ++ "'"
  | keyType type => "sequence item 0: expected str instance, " ++ type ++ " found"
  | incomparableKeys first second =>
    "'<' not supported between instances of '" ++ first ++ "' and '" ++ second ++ "'"
  | bytesInText => "cannot use a bytes pattern on a string-like object"

def details : ConfigError → List (String × Given)
  | unknownKeys keys => [("unknown", .data (.strings keys))]
  | badName value => [("global_name", value)]
  | badPattern pattern _ => [("exclude_pattern", pattern)]
  | _ => []

/-- Whether an error says that the settings are wrong, and not that they are of no use at all. -/
def isOwn : ConfigError → Bool
  | notMapping => true
  | unknownKeys _ => true
  | notBoolean _ => true
  | badName _ => true
  | badPattern _ (.invalid _) => true
  | _ => false

end ConfigError

/-- The names that the language keeps for itself. -/
def keywords : List String :=
  ["False", "None", "True", "and", "as", "assert", "async", "await", "break", "class", "continue", "def",
    "del", "elif", "else", "except", "finally", "for", "from", "global", "if", "import", "in", "is",
    "lambda", "nonlocal", "not", "or", "pass", "raise", "return", "try", "while", "with", "yield"]

/-- A name that injected code can use in every scope. Inside a class, names that start with two underscores
and do not end with two are changed. -/
def isUsableName (s : String) : Bool :=
  Text.isIdentifier s && !keywords.contains s && !(s.startsWith "__" && !s.endsWith "__")

namespace Config

instance : Inhabited Config := ⟨{}⟩

/-- The settings in their order. -/
def fieldNames : List String := ["global_name", "statements", "branches", "functions", "exclude_pattern"]

def switches : List String := ["statements", "branches", "functions"]

def Pattern.given : Option Pattern → Given
  | none => .data .null
  | some (.text s) => .data (.str s)
  | some (.bytes b) => .bytes b

def checkName : Given → Except ConfigError String
  | .data (.str s) => if isUsableName s then .ok s else .error (.badName (.data (.str s)))
  | value => .error (.badName value)

def checkPattern (language : PatternLanguage) (pattern : Given) : Except ConfigError (Option Pattern) :=
  match pattern with
  | .data .null => .ok none
  | .data (.str s) => ((language.compile s).mapError (.badPattern pattern)).map fun _ ↦ some (.text s)
  | .bytes b => ((language.compileBytes b).mapError (.badPattern pattern)).map fun _ ↦ some (.bytes b)
  | _ => .error (if pattern.isHashable then .patternType else .unhashablePattern pattern.typeName)

/-- The configuration with the given settings, and the usual ones elsewhere. -/
def ofSettings (language : PatternLanguage) (pairs : List (Given × Given)) : Except ConfigError Config := do
  let usual : Config := {}
  let given (name : String) (otherwise : Given) := (Given.lookup name pairs).getD otherwise
  let globalName ← checkName (given "global_name" (.data (.str usual.globalName)))
  let excludePattern ← checkPattern language (given "exclude_pattern" (Pattern.given usual.excludePattern))
  return { globalName, excludePattern,
           statements := given "statements" usual.statements,
           branches := given "branches" usual.branches,
           functions := given "functions" usual.functions }

def isField : Given → Bool
  | .data (.str s) => fieldNames.contains s
  | _ => false

def plainSettings (pairs : List (Datum × Datum)) : List (Given × Given) :=
  pairs.map fun p ↦ (.data p.1, .data p.2)

/-- The configuration of settings that are given directly. -/
def ofArguments (pairs : List (Datum × Datum)) (language : PatternLanguage := Regex.language) :
    Except ConfigError Config :=
  match pairs.find? fun p ↦ !isField (.data p.1) with
  | some p => .error (.unexpectedArgument p.1.text)
  | none => ofSettings language (plainSettings pairs)

/-! ## From a map -/

def texts? : List Given → Option (List String)
  | [] => some []
  | .data (.str s) :: keys => (texts? keys).map (s :: ·)
  | _ => none

def wholeNumber? : Given → Option Int
  | .data (.int n) => some n
  | .data (.bool b) => some (if b then 1 else 0)
  | _ => none

def leastNumber (key : Given) (keys : List Given) : Given :=
  keys.foldl (fun least k ↦ if (wholeNumber? k).getD 0 < (wholeNumber? least).getD 0 then k else least) key

/-- Unknown keys are reported in order; of keys that are no texts the first is reported, if they have an
order. Keys of different types have one if they are whole numbers. -/
def unknownKeys (keys : List Given) : ConfigError :=
  match texts? keys, keys with
  | some ss, _ => .unknownKeys (ss.mergeSort fun a b ↦ !decide (b < a))
  | none, [key] => .keyType key.typeName
  | none, first :: second :: rest =>
    if keys.all fun k ↦ (wholeNumber? k).isSome then .keyType (leastNumber first (second :: rest)).typeName
    else if keys.all fun k ↦ k.typeName == first.typeName then .keyType first.typeName
    else .incomparableKeys second.typeName first.typeName
  | none, [] => .unknownKeys []

def badSwitch? (pairs : List (Given × Given)) : Option String :=
  switches.find? fun name ↦
    match Given.lookup name pairs with
    | some (.data (.bool _)) => false
    | some _ => true
    | none => false

/-- The configuration that a value describes, which should be a map. -/
def load (language : PatternLanguage) : Option (List (Given × Given)) → Except ConfigError Config
  | some pairs =>
    match pairs.filter fun p ↦ !isField p.1 with
    | [] =>
      match badSwitch? pairs with
      | some name => .error (.notBoolean name)
      | none => ofSettings language pairs
    | unknown => .error (unknownKeys (unknown.map (·.1)))
  | none => .error .notMapping

def ofDatum (d : Datum) (language : PatternLanguage := Regex.language) : Except ConfigError Config :=
  load language (d.pairs?.map plainSettings)

/-! ## Files -/

/-- Why a file gives no configuration. -/
inductive FileError where
  | missing (path : String)
  | unreadable (cause : Yaml.Unreadable)
  | invalid (cause : ConfigError)

/-- The parts of a path, without those that lead nowhere. -/
def pathParts (path : String) : List String :=
  (path.splitOn "/").filter fun part ↦ part != "" && part != "."

/-- A path in its shortest spelling. -/
def tidyPath (path : String) : String :=
  let root :=
    if path.startsWith "///" then "/" else if path.startsWith "//" then "//"
    else if path.startsWith "/" then "/" else ""
  let tidy := root ++ "/".intercalate (pathParts path)
  if tidy == "" then "." else tidy

/-- The configuration in a file. An empty document stands for the usual settings. -/
def ofFile (path : String) (text : Option String) (language : PatternLanguage := Regex.language) :
    Except FileError Config :=
  match text with
  | none => .error (.missing (tidyPath path))
  | some text =>
    match Yaml.read (Text.unifyNewlines text) with
    | .error cause => .error (.unreadable cause)
    | .ok d => (ofDatum (if d.isTrue then d else .map []) language).mapError .invalid

def FileError.missingMessage (path : String) : String := "Configuration file not found: " ++ path

def settings (c : Config) : List (String × Given) :=
  [("global_name", .data (.str c.globalName)), ("statements", c.statements), ("branches", c.branches),
    ("functions", c.functions), ("exclude_pattern", Pattern.given c.excludePattern)]

def plainData? (c : Config) : Option (List (String × Datum)) :=
  c.settings.mapM fun setting ↦
    match setting.2 with
    | .data d => some (setting.1, d)
    | _ => none

/-- The text of a file with this configuration, if all its settings are plain data. -/
def toYaml (c : Config) : Option String := c.plainData?.map Yaml.write

/-! ## Plans -/

def counts (c : Config) : Kind → Bool
  | .statement => c.statements.isTrue
  | .branch => c.branches.isTrue
  | .function => c.functions.isTrue

/-- In which lines of a text the pattern is found. A pattern of bytes cannot be looked for in a line. -/
def search (c : Config) (language : PatternLanguage) (source : Option String) :
    Except ConfigError (Option (List Char → Bool)) :=
  match c.excludePattern with
  | none => .ok none
  | some (.text s) => ((language.compile s).mapError (.badPattern (.data (.str s)))).map some
  | some (.bytes _) => if (source.map Text.lines).getD [] = [] then .ok none else .error .bytesInText

/-- The plan of a pass over a file, which needs the source for its excluded lines. -/
def plan (c : Config) (filename : String) (source : Option String) (language : PatternLanguage := Regex.language) :
    Except ConfigError Plan := do
  let found ← c.search language source
  return { filename, globalName := c.globalName, counts := c.counts, excluded := excludedLines source found }

end Config

end Coverage
