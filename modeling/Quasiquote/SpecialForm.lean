import Quasiquote.Expander

namespace Quasiquote

/-- The special forms: the lists that are not calls of functions. One is named by a bare symbol or by
one in the core namespace. -/
inductive SpecialForm where
  | quote
  | syntaxQuote
  | unquote
  | unquoteSplicing
  | sequence
  | scope
  | choice
  | attempt
  | raise
  | define
  | defineMacro
  | expandOnce
  | expandAll
  | enterNamespace
  | aliasNamespace
deriving DecidableEq, Repr

namespace SpecialForm

def names : List (String × SpecialForm) :=
  [("quote", quote), ("syntax-quote", syntaxQuote), ("unquote", unquote),
   ("unquote-splicing", unquoteSplicing), ("do", sequence), ("let", scope), ("if", choice),
   ("try", attempt), ("throw", raise), ("def", define), ("defmacro", defineMacro),
   ("macroexpand-1", expandOnce), ("macroexpand", expandAll), ("in-ns", enterNamespace),
   ("alias", aliasNamespace)]

def ofSymbol? (s : Symbol) : Option SpecialForm :=
  if s.mayBeCore then names.lookup s.name else none

/-- The special form that a list is, by its head. -/
def heading? : Value → Option SpecialForm
  | .list (.sym s :: _) => ofSymbol? s
  | _ => none

/-- Whether the arguments of a form are left as they are before it is evaluated. -/
def keepsArguments : SpecialForm → Bool
  | quote => true
  | syntaxQuote => true
  | defineMacro => true
  | _ => false

/-- The special forms that every namespace refers from the core namespace. Templates leave the
names of all others bare. -/
def referred : List String := ["let", "macroexpand-1", "macroexpand", "in-ns", "alias"]

end SpecialForm

end Quasiquote
