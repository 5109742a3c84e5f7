namespace Quasiquote

/-- The kinds of tokens. A host may hand over tokens of a kind that the reader does not know. -/
inductive TokenKind where
  | quote
  | unquote
  | opening
  | closing
  | string
  /-- A symbol, number or keyword. -/
  | symbol
  | other (label : String)
deriving DecidableEq, Repr

namespace TokenKind

def label : TokenKind → String
  | quote => "quote"
  | unquote => "unquote"
  | opening => "lparen"
  | closing => "rparen"
  | string => "string"
  | symbol => "symbol"
  | other label => label

def ofLabel (label : String) : TokenKind :=
  ([quote, unquote, opening, closing, string, symbol].find? (·.label = label)).getD (other label)

end TokenKind

/-- A word of source text. -/
structure Token where
  kind : TokenKind
  text : String
deriving DecidableEq, Repr

end Quasiquote
