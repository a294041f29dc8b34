import Coverage.Config
import Coverage.Pass
import Coverage.Program.Eval
import Coverage.Program.OfTree

/-!
# Running instrumented programs

A run binds the counters under the name that injected code uses and then runs the module. Counters that
were recorded before an exception stay in their ledger.
-/

namespace Coverage

open Program Syntax

/-- How a run ends. -/
inductive Outcome where
  | finished
  | raised (exception : Value)
  /-- The program does not end within its limits, or leaves the fragment that can be run. -/
  | undecided
  deriving DecidableEq, Repr

/-- What a run leaves behind. -/
structure Ran where
  outcome : Outcome
  globals : Namespace
  memory : Memory
  /-- What happened, the latest first. -/
  history : List Event

namespace Run

/-- More than any program of interest needs. -/
def limits : Limits := ⟨1000000000, 1000⟩

/-- Binds a name that has no value yet. -/
def bindNew (x : String) (v : Value) (ns : Namespace) : Namespace := if ns.contains x then ns else ns.put x v

/-- The variables with which a module starts. -/
def setting (filename : String) (ns : Namespace) : Namespace :=
  bindNew "__file__" (.str filename) (bindNew "__name__" (.str "__main__") ns)

/-- The variables with which a module with counters starts. -/
def prepare (filename globalName : String) (l : LedgerId) (ns : Namespace) : Namespace :=
  (setting filename ns).put globalName (.ledger l)

/-- An empty name stands for the usual one. -/
def nameOrUsual (name : Option String) : String := (name.filter (· != "")).getD usualName

end Run

def Program.Memory.newLedger (m : Memory) : LedgerId × Memory :=
  (m.ledgers.size, { m with ledgers := m.ledgers.push {} })

def Program.Memory.ledger (m : Memory) (l : LedgerId) : Ledger := (m.ledgers[l]?).getD {}

/-- A new ledger with the sums of the counts of two ledgers, which can be one and the same. -/
def Program.Memory.mergeLedgers (m : Memory) (l l' : LedgerId) : LedgerId × Memory :=
  (m.ledgers.size, { m with ledgers := m.ledgers.push ((m.ledger l).merge (m.ledger l')) })

def runTree (limits : Limits) (tree : Node) : Step Unit :=
  match Program.ofTree? tree with
  | some p => p.run limits
  | none => fail (.notModule ((tree.cls?.map (·.name)).getD "NoneType"))

/-- How a step ended. -/
def Outcome.ofResult : Except Halt Unit → Outcome
  | .ok () => .finished
  | .error (.raised e) => .raised e
  | .error _ => .undecided

def runWith (limits : Limits) (tree : Node) (globals : Namespace) (memory : Memory) : Ran :=
  let (result, s) := (runTree limits tree).run { toMemory := memory, globals }
  { outcome := .ofResult result, globals := s.globals, memory := s.toMemory, history := s.history }

/-- Runs a tree as it is, without a ledger. -/
def executeAlone (limits : Limits) (tree : Node) (filename : String) (ns : Namespace) (memory : Memory) : Ran :=
  runWith limits tree (Run.setting filename ns) memory

/-- Runs a tree with a ledger bound in its variables. -/
def execute (limits : Limits) (tree : Node) (filename globalName : String) (l : LedgerId)
    (ns : Namespace) (memory : Memory) : Ran :=
  runWith limits tree (Run.prepare filename globalName l ns) memory

/-- Why a tree gets no counters. -/
inductive NotInstrumented where
  | config (cause : ConfigError)
  | pass (stopped : Stopped)

/-- Puts counters into a tree and runs it. -/
def instrumentAndExecute (limits : Limits) (config : Config) (filename : String) (source : Option String)
    (marks : Marks) (next : NodeId) (tree : Node) (l : LedgerId) (ns : Namespace) (memory : Memory) :
    Except NotInstrumented (Instrumented × Ran) := do
  let plan ← (config.plan filename source).mapError .config
  let i ← (instrument plan marks next tree).mapError .pass
  return (i, execute limits i.tree filename config.globalName l ns memory)

end Coverage
