namespace Quasiquote

/-- A name, bare or qualified by a namespace, and then written `ns/name`. The empty text is a
namespace too. A bare name that ends in `#` is one that a template renames. -/
structure Symbol where
  name : String
  ns : Option String := none
deriving DecidableEq, Repr, Inhabited

namespace Symbol

def quote : Symbol := ⟨"quote", none⟩

def syntaxQuote : Symbol := ⟨"syntax-quote", none⟩

def unquote : Symbol := ⟨"unquote", none⟩

/-- The head of an escape that inserts the items of a sequence. -/
def unquoteSplicing : Symbol := ⟨"unquote-splicing", none⟩

/-- The head of the form that evaluates its items in order. -/
def sequence : Symbol := ⟨"do", none⟩

/-- The head of a form that may fail and be handled. -/
def attempt : Symbol := ⟨"try", none⟩

/-- The head of the clause that handles a failure. -/
def handler : Symbol := ⟨"catch", none⟩

/-- The head of the clause that is evaluated in any case. -/
def cleanup : Symbol := ⟨"finally", none⟩

/-- Split a text at its first slash, if there is text on both sides of it. -/
def parse (text : String) : Symbol :=
  let before := text.toList.takeWhile (· ≠ '/')
  match before, text.toList.dropWhile (· ≠ '/') with
  | _ :: _, _ :: c :: rest => ⟨String.ofList (c :: rest), some (String.ofList before)⟩
  | _, _ => ⟨text, none⟩

def text (s : Symbol) : String :=
  match s.ns with
  | none => s.name
  | some ns => ns ++ "/" ++ s.name

def isQualified (s : Symbol) : Bool := s.ns.isSome

/-- The same name in another namespace, or bare. -/
def withNamespace (s : Symbol) (ns : Option String) : Symbol := { s with ns }

/-- The character at the end of names that templates rename. -/
def renameMark : Char := '#'

/-- Whether templates rename a symbol: it is bare, and its mark ends a longer name. -/
def isMarked (s : Symbol) : Bool :=
  s.ns.isNone && 1 < s.name.length && s.name.toList.getLast? == some renameMark

/-- The name of a symbol without the mark at its end. -/
def unmarkedName (s : Symbol) : String :=
  if s.isMarked then String.ofList s.name.toList.dropLast else s.name

end Symbol

end Quasiquote
