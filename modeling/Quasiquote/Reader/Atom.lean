import Quasiquote.Text.Digit
import Quasiquote.Value.Basic

namespace Quasiquote.Atom

/-- The most digits that an integer may have. -/
def digitLimit : Nat := 4300

/-- Split a sign off a word: whether the sign is negative, and the other characters. -/
def splitSign : List Char → Bool × List Char
  | '+' :: cs => (false, cs)
  | '-' :: cs => (true, cs)
  | cs => (false, cs)

/-- The sign and the digits of a word that is an integer. -/
def integer? (cs : List Char) : Option (Bool × List Char) :=
  let (negative, digits) := splitSign cs
  if !digits.isEmpty && digits.all Text.isDecimal then some (negative, digits) else none

/-- The integer that a sign and digits write. -/
def signed (negative : Bool) (digits : List Char) : Int :=
  if negative then -(Text.decimalValue digits : Int) else Text.decimalValue digits

/-- The exponent after the digits of a float; nothing stands for zero. -/
def exponent? : List Char → Option Int
  | [] => some 0
  | c :: cs =>
      if c = 'e' ∨ c = 'E' then (integer? cs).map fun (negative, digits) => signed negative digits
      else none

/-- The fraction digits of a float and what follows them. The point may be missing. -/
def splitFraction : List Char → List Char × List Char
  | '.' :: cs => (cs.takeWhile Text.isDecimal, cs.dropWhile Text.isDecimal)
  | cs => ([], cs)

/-- The float that a word stands for. It has digits before or after its point, or both. -/
def float? (cs : List Char) : Option Float := do
  let (negative, unsigned) := splitSign cs
  let whole := unsigned.takeWhile Text.isDecimal
  let (fraction, rest) := splitFraction (unsigned.dropWhile Text.isDecimal)
  let exponent ← exponent? rest
  if (whole ++ fraction).isEmpty then none
  else
    pure (Binary64.ofDecimal negative (Text.decimalValue (whole ++ fraction))
      (exponent - fraction.length))

/-- The value of a word: nil, a boolean, an integer, a float, a keyword, or else a symbol. -/
def ofWord (word : String) : Except Failure Value :=
  if word = "nil" then pure .nil
  else if word = "true" then pure (.bool true)
  else if word = "false" then pure (.bool false)
  else
    match integer? word.toList with
    | some (negative, digits) =>
        if digitLimit < digits.length then throw (.digits (some digits.length))
        else pure (.int (signed negative digits))
    | none =>
        match float? word.toList with
        | some x => pure (.num (.float x))
        | none =>
            match word.toList with
            | [':'] => throw (.malformed .namelessKeyword)
            | ':' :: name => pure (.kw (String.ofList name))
            | _ => pure (.sym (Symbol.parse word))

/-- The character that an escape in a string stands for. -/
def unescape? (c : Char) : Option Char :=
  if c = 'n' then some '\n'
  else if c = 't' then some '\t'
  else if c = 'r' then some '\r'
  else if c = '"' then some '"'
  else if c = '\\' then some '\\'
  else none

/-- Replace the escapes in what stands between the quotes of a string. -/
def decode : List Char → Except Failure (List Char)
  | [] => pure []
  | '\\' :: [] => throw .danglingEscape
  | '\\' :: c :: cs =>
      match unescape? c with
      | some d => (decode cs).map (d :: ·)
      | none => throw (.malformed (.unsupportedEscape c))
  | c :: cs => (decode cs).map (c :: ·)

/-- The value of a string token. Its first and last characters are the quotes. -/
def ofString (token : String) : Except Failure Value :=
  (decode token.toList.tail.dropLast).map fun cs => .str (String.ofList cs)

end Quasiquote.Atom
