import Quasiquote.Symbol
import Quasiquote.Table

namespace Quasiquote

/-- The namespace of the special forms and the core functions. -/
def coreNamespace : String := "synquote.core"

/-- The namespace of the functions that write into the log. -/
def logNamespace : String := "synquote.log"

/-- Whether a symbol is in the core namespace, or bare and so may stand for a name of it. -/
def Symbol.mayBeCore (s : Symbol) : Bool := s.ns.isNone || s.ns == some coreNamespace

/-- Whether a symbol is the given name, bare or in the core namespace. -/
def Symbol.isCore (s : Symbol) (name : String) : Bool := s.name = name && s.mayBeCore

/-- A namespace: its name, its aliases for other namespaces, and for each name that it refers the
namespace that has it. Namespaces qualify the bare symbols of the code written in them. -/
structure Namespace where
  name : String
  aliases : Table String String := Table.empty
  refers : Table String String := Table.empty
deriving Inhabited

namespace Namespace

/-- Let a short name stand for a namespace, in place of what it stood for before. -/
def addAlias (ns : Namespace) (short full : String) : Namespace :=
  { ns with aliases := ns.aliases.insert short full }

/-- Let bare names belong to another namespace. -/
def refer (ns : Namespace) (source : String) (names : List String) : Namespace :=
  { ns with refers := names.foldl (fun table name => table.insert name source) ns.refers }

/-- Let a bare name belong to the namespace itself again. -/
def unrefer (ns : Namespace) (name : String) : Namespace :=
  { ns with refers := ns.refers.erase name }

/-- The qualified symbol that a symbol stands for in a namespace. -/
def resolve (ns : Namespace) (s : Symbol) : Symbol :=
  match s.ns with
  | some short =>
      match ns.aliases.find? short with
      | some full => s.withNamespace full
      | none => s
  | none => s.withNamespace ((ns.refers.find? s.name).getD ns.name)

def quoted (ns : Namespace) : String := "<Namespace " ++ ns.name ++ ">"

theorem isQualified_resolve (ns : Namespace) (s : Symbol) :
    (ns.resolve s).isQualified = true := by
  rcases s with ⟨name, _ | short⟩
  · rfl
  · simp only [resolve]
    split <;> rfl

theorem name_resolve (ns : Namespace) (s : Symbol) : (ns.resolve s).name = s.name := by
  rcases s with ⟨name, _ | short⟩
  · rfl
  · simp only [resolve]
    split <;> rfl

end Namespace

end Quasiquote
