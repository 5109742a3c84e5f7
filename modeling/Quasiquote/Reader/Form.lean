import Quasiquote.Reader.Atom
import Quasiquote.Reader.Lexer
import Quasiquote.Value.Quoted

/-!
Forms: trees read from tokens. The reader keeps the groups and marks that wait for their contents
on a stack, and takes one token at a time. `next` reads one form and leaves the other tokens;
`all` reads forms up to the first failure.
-/

namespace Quasiquote

/-- Something that has begun and waits for forms. -/
inductive Pending where
  /-- An open group: its bracket, the bracket that closes it, and its items backwards. -/
  | group (opener closer : String) (reversed : List Value)
  | mark (token : String) (head : Symbol)

/-- The part that a token plays in a form. -/
inductive TokenRole where
  | value (v : Value)
  | mark (head : Symbol)
  | opener (closer : String)
  | closer

namespace Reader

/-- The head of the list that a mark abbreviates. -/
def headOf? (mark : String) : Option Symbol :=
  if mark = "'" then some .quote
  else if mark = "\x60" then some .syntaxQuote
  else if mark = "~" then some .unquote
  else if mark = "~@" then some .unquoteSplicing
  else none

/-- The bracket that closes a group. -/
def closerOf? (opener : String) : Option String :=
  if opener = "(" then some ")" else if opener = "[" then some "]" else none

/-- The part that a token plays. `last` says that no token follows. -/
def role (last : Bool) (token : Token) : Except Failure TokenRole :=
  match token.kind with
  | .symbol => (Atom.ofWord token.text).map .value
  | .string => (Atom.ofString token.text).map .value
  | .quote | .unquote =>
      match headOf? token.text with
      | some head => pure (.mark head)
      | none =>
          if last then throw (.malformed (.missingForm (Text.quoted token.text)))
          else throw (.unknownMark token.text)
  | .opening =>
      match closerOf? token.text with
      | some closer => pure (.opener closer)
      | none => throw (.unknownMark token.text)
  | .closing => pure .closer
  | .other kind => throw (.malformed (.unknownToken kind token.text))

/-- Hand a finished form to what waits for it: either something still waits, or the form is
complete. -/
def deliver (v : Value) : List Pending → List Pending ⊕ Value
  | [] => .inr v
  | .group opener closer reversed :: stack => .inl (.group opener closer (v :: reversed) :: stack)
  | .mark _ head :: stack => deliver (.list [.sym head, v]) stack

/-- Take a token: what waits after it, or the form that it completes. -/
def shift (last : Bool) (token : Token) (stack : List Pending) :
    Except Failure (List Pending ⊕ Value) := do
  match ← role last token with
  | .value v => pure (deliver v stack)
  | .mark head => pure (.inl (.mark token.text head :: stack))
  | .opener closer => pure (.inl (.group token.text closer [] :: stack))
  | .closer =>
      match stack with
      | .group opener closer reversed :: stack =>
          if token.text = closer then pure (deliver (.list reversed.reverse) stack)
          else
            throw (.malformed (.wrongCloser (Text.quoted closer) (Text.quoted opener)
              (Text.quoted token.text)))
      | _ => throw (.malformed (.unexpectedToken (Text.quoted token.text)))

/-- What is wrong when the tokens end while a form is being read. -/
def endFailure (unclosed : Option Nat) (stack : List Pending) : Failure :=
  match unclosed, stack with
  | some position, _ => .malformed (.unterminatedString position)
  | none, [] => .malformed .endOfInput
  | none, .group opener _ _ :: _ => .malformed (.unmatched (Text.quoted opener))
  | none, .mark token _ :: _ => .malformed (.missingForm (Text.quoted token))

/-- Read one form, and leave the tokens after it. A failure leaves the tokens after the one at
which it arose. -/
def next (unclosed : Option Nat) (stack : List Pending) :
    List Token → Except Failure Value × List Token
  | [] => (throw (endFailure unclosed stack), [])
  | token :: rest =>
      match shift (rest.isEmpty && unclosed.isNone) token stack with
      | .error failure => (throw failure, rest)
      | .ok (.inr v) => (pure v, rest)
      | .ok (.inl stack) => next unclosed stack rest

/-- Read forms up to the first failure, or to the end of the tokens. -/
def all (unclosed : Option Nat) (stack : List Pending) :
    List Token → List Value × Option Failure
  | [] =>
      match unclosed, stack with
      | none, [] => ([], none)
      | _, _ => ([], some (endFailure unclosed stack))
  | token :: rest =>
      match shift (rest.isEmpty && unclosed.isNone) token stack with
      | .error failure => ([], some failure)
      | .ok (.inr v) =>
          let (forms, failure) := all unclosed [] rest
          (v :: forms, failure)
      | .ok (.inl stack) => all unclosed stack rest

def nextOf (lexemes : Lexemes) : Except Failure Value × Lexemes :=
  let (result, rest) := next lexemes.unclosed [] lexemes.tokens
  (result, { lexemes with tokens := rest })

/-- The tokens of a text, if every string in it is closed. -/
def tokens (text : List Char) : Except Failure (List Token) :=
  let lexemes := Lexemes.ofText text
  match lexemes.unclosed with
  | some position => throw (.malformed (.unterminatedString position))
  | none => pure lexemes.tokens

/-- The forms of a text before the first failure, and the failure. -/
def stream (text : List Char) : List Value × Option Failure :=
  let lexemes := Lexemes.ofText text
  all lexemes.unclosed [] lexemes.tokens

/-- The forms of a text, if all of it can be read. -/
def readAll (text : List Char) : Except Failure (List Value) :=
  match stream text with
  | (forms, none) => pure forms
  | (_, some failure) => throw failure

/-- The form of a text that has exactly one. -/
def readOne (text : List Char) : Except Failure Value := do
  match ← readAll text with
  | [v] => pure v
  | forms => throw (.malformed (.formCount forms.length))

end Reader

end Quasiquote
