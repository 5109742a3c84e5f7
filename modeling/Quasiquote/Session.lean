import Quasiquote.Environment
import Quasiquote.Settings
import Quasiquote.SpecialForm

namespace Quasiquote

/-- The state of an interpreter: all that lasts from one evaluation to the next. -/
structure Session where
  expander : Expander
  current : String
  globals : Frame
  expansion : ExpansionState := {}
  output : String := ""
  /-- The diagnostics, newest first, each with the tree that it is about. -/
  diagnostics : List (String × Option Value) := []
  /-- Whether diagnostics are logged instead of being collected. -/
  logsDiagnostics : Bool := false
  /-- How often counting probes have been called. -/
  tallied : Nat := 0
  /-- How many identities have been given to caught failures, probes and floats that are no
  numbers. -/
  identities : Nat := 0

namespace Session

/-- The names that every namespace refers from the core namespace. -/
def coreNames : List String := Primitive.core.map Prod.fst ++ SpecialForm.referred

/-- The globals that are there from the start. -/
def coreGlobals : Frame :=
  Table.ofList
    (Primitive.core.map (fun (name, f) => (⟨name, some coreNamespace⟩, Value.fn f)) ++
      Primitive.logging.map fun (name, f) => (⟨name, some logNamespace⟩, Value.fn f))

/-- A namespace as it is made: it refers the core names and has an alias for the log namespace. -/
def newNamespace (name : String) : Namespace :=
  (Namespace.refer { name } coreNamespace coreNames).addAlias "log" logNamespace

def currentNamespace (s : Session) : Namespace := s.expander.namespaceNamed s.current

/-- Put a namespace in the place of the one with its name. -/
def putNamespace (s : Session) (ns : Namespace) : Session :=
  { s with expander := { s.expander with namespaces := s.expander.namespaces.insert ns.name ns } }

/-- Make a namespace the current one; a new one is made if none has the name. -/
def enter (s : Session) (name : String) : Session :=
  let s := if s.expander.namespaces.contains name then s else s.putNamespace (newNamespace name)
  { s with current := name }

def addAlias (s : Session) (short full : String) : Session :=
  s.putNamespace (s.currentNamespace.addAlias short full)

def unrefer (s : Session) (name : String) : Session :=
  s.putNamespace (s.currentNamespace.unrefer name)

def setGlobal (s : Session) (name : Symbol) (v : Value) : Session :=
  { s with globals := s.globals.insert name v }

def record (s : Session) (event : LogEvent) : Session :=
  { s with expansion := { s.expansion with log := s.expansion.log.record event } }

/-- Define a macro, and log that. -/
def defineMacro (s : Session) (m : Macro) : Session :=
  let (expander, event) := s.expander.define m
  { s with expander }.record event

/-- The core names that the current namespace does not refer any more. -/
def unreferredNames (s : Session) : List String :=
  coreNames.filter fun name => !s.currentNamespace.refers.contains name

/-- The globals that were not there from the start: those outside the core and log namespaces. -/
def ownGlobals (s : Session) : List (Symbol × Value) :=
  s.globals.entries.filter fun e =>
    e.1.ns != some coreNamespace && e.1.ns != some logNamespace

/-- The session before the next step: what has been printed, logged and reported is gone. -/
def cleared (s : Session) : Session :=
  { s with
    output := ""
    diagnostics := []
    expansion := { s.expansion with log := s.expansion.log.cleared } }

def perform (s : Session) : Effect → Session
  | .none => s
  | .print text => { s with output := s.output ++ text }
  | .log event => s.record event
  | .count => { s with tallied := s.tallied + 1 }

/-- A new session, in the namespace of the given name. -/
def start (name : String) (maxDepth maxNesting : Int) (allocator : Allocator) : Session :=
  enter
    { expander := { maxDepth, maxNesting }
      current := name
      globals := coreGlobals
      expansion := { allocator } }
    name

/-- A new session whose settings are given as texts. A namespace or depth bound that is given
directly goes before its setting. -/
def ofSettings (texts : SettingTexts) (name : Option String) (maxDepth : Option Int)
    (allocator : Allocator) : Except Failure Session := do
  let depth ← match maxDepth with
    | some depth => pure depth
    | none => Settings.maxExpansionDepth texts
  let nesting ← Settings.maxTemplateNesting texts
  let name := (name.filter fun name => !name.isEmpty).getD (Settings.defaultNamespace texts)
  pure (start name depth nesting allocator)

end Session

end Quasiquote
