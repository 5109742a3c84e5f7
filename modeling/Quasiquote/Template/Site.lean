import Quasiquote.Allocator
import Quasiquote.Namespace
import Quasiquote.Value.Quoted

namespace Quasiquote

/-- The fresh symbols that stand for marked names. -/
abbrev RenameTable := Table String Symbol

/-- A computation that builds a tree over some other effects. It may fail, and it keeps its
renamings when it does. -/
abbrev Building (m : Type → Type) := ExceptT Failure (StateT RenameTable m)

namespace Building

variable {m : Type → Type} [Monad m]

/-- An effect below, which leaves the renamings as they are. -/
def perform (x : m α) : Building m α := ExceptT.mk do pure (.ok (← StateT.lift x))

/-- An effect below that may fail. -/
def performFailing (x : ExceptT Failure m α) : Building m α := ExceptT.mk (StateT.lift x.run)

/-- Run from a table of renamings, and forget the renamings at the end. -/
def runFrom (table : RenameTable) (x : Building m α) : ExceptT Failure m α := ExceptT.mk do
  pure (← x.run.run table).1

end Building

/-- What the symbols that stand for marked names end in. -/
def renameEnding : String := "__auto__"

/-- The names of special forms and of parameter lists, which templates leave bare. -/
def bareNames : List String :=
  ["quote", "syntax-quote", "unquote", "unquote-splicing", "do", "if", "try", "catch", "finally",
   "throw", "def", "defmacro", "&"]

section

variable {m : Type → Type} [Monad m] [MonadFresh m]

/-- The fresh symbol for a marked name: always the same one while a tree is built. -/
def renamed (s : Symbol) : Building m Symbol := do
  match (← get).find? s.name with
  | some known => pure known
  | none =>
      let name ← Building.performFailing (fresh (s.unmarkedName ++ "__"))
      let chosen : Symbol := ⟨name ++ renameEnding, none⟩
      modify fun table => table.insert s.name chosen
      pure chosen

/-- The symbol that stands for a symbol of a template: a fresh one, itself, or its qualified form.
-/
def qualify (ns : m Namespace) (s : Symbol) : Building m Symbol :=
  if s.isMarked then renamed s
  else if !s.isQualified && bareNames.contains s.name then pure s
  else do pure ((← Building.perform ns).resolve s)

end

end Quasiquote
