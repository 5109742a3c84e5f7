import Quasiquote.Reader.Token
import Quasiquote.Text.Blank

/-!
The lexer reads source text one character at a time. Its state says what the characters since the
last token belong to, so the tokens of a text depend on what came before it only through a state.
Blank characters, commas and comments separate tokens. The only fault is a string without its
closing quote.
-/

namespace Quasiquote

/-- Whether a character separates tokens and belongs to none. -/
def isGap (c : Char) : Bool := Text.isBlank c || c = ','

/-- The characters that end a symbol, besides those that only separate tokens. -/
def delimiters : List Char := ['(', ')', '[', ']', '\'', '\x60', '~', '"', ';']

/-- Whether a character can stand in a word. -/
def isSymbolChar (c : Char) : Bool := !(isGap c || delimiters.contains c)

/-- What the lexer has read since the last token. Texts are kept backwards. -/
inductive LexerState where
  | gap
  | comment
  /-- An escape mark, which may yet turn into a splicing one. -/
  | tilde
  | symbol (reversed : List Char)
  /-- A string that opened at a position; `escaped` says that a backslash has just been read. -/
  | string (start : Nat) (reversed : List Char) (escaped : Bool)
deriving DecidableEq, Repr

namespace LexerState

/-- A token whose text is known backwards. -/
def tokenOf (kind : TokenKind) (reversed : List Char) : Token :=
  ⟨kind, String.ofList reversed.reverse⟩

/-- Read a character that continues no token: the token that it is, if it is one by itself, and
the state after it. -/
def enter (position : Nat) (c : Char) : List Token × LexerState :=
  if isGap c then ([], gap)
  else if c = ';' then ([], comment)
  else if c = '\'' ∨ c = '\x60' then ([tokenOf .quote [c]], gap)
  else if c = '~' then ([], tilde)
  else if c = '(' ∨ c = '[' then ([tokenOf .opening [c]], gap)
  else if c = ')' ∨ c = ']' then ([tokenOf .closing [c]], gap)
  else if c = '"' then ([], string position [c] false)
  else ([], symbol [c])

/-- Read a character: the tokens that it completes, and the state after it. -/
def step (position : Nat) (c : Char) : LexerState → List Token × LexerState
  | gap => enter position c
  | comment => if c = '\n' then ([], gap) else ([], comment)
  | tilde =>
      if c = '@' then ([tokenOf .unquote ['@', '~']], gap)
      else
        let (tokens, state) := enter position c
        (tokenOf .unquote ['~'] :: tokens, state)
  | symbol reversed =>
      if isSymbolChar c then ([], symbol (c :: reversed))
      else
        let (tokens, state) := enter position c
        (tokenOf .symbol reversed :: tokens, state)
  | string start reversed escaped =>
      if escaped then ([], string start (c :: reversed) false)
      else if c = '"' then ([tokenOf .string (c :: reversed)], gap)
      else ([], string start (c :: reversed) (c = '\\'))

/-- What the end of the text completes, and where a string opened that is still open. -/
def finish : LexerState → List Token × Option Nat
  | gap => ([], none)
  | comment => ([], none)
  | tilde => ([tokenOf .unquote ['~']], none)
  | symbol reversed => ([tokenOf .symbol reversed], none)
  | string start _ _ => ([], some start)

end LexerState

/-- The tokens of a text, and where a string opens that is never closed. -/
structure Lexemes where
  tokens : List Token
  unclosed : Option Nat
deriving DecidableEq, Repr

namespace Lexemes

def peek (lexemes : Lexemes) : Option Token := lexemes.tokens.head?

def advance (lexemes : Lexemes) : Option Token × Lexemes :=
  (lexemes.tokens.head?, { lexemes with tokens := lexemes.tokens.tail })

/-- The tokens of a text behind some more tokens. -/
def prepend (tokens : List Token) (rest : Lexemes) : Lexemes :=
  { rest with tokens := tokens ++ rest.tokens }

/-- The tokens of a text that is read from a state on, at a position. -/
def scan (state : LexerState) (position : Nat) : List Char → Lexemes
  | [] => ⟨state.finish.1, state.finish.2⟩
  | c :: cs =>
      let (tokens, next) := state.step position c
      (scan next (position + 1) cs).prepend tokens

/-- The tokens of a text, from its beginning. -/
def ofText (cs : List Char) : Lexemes := scan .gap 0 cs

end Lexemes

end Quasiquote
