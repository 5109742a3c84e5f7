import Quasiquote.Text.Quoted
import Quasiquote.Value.Basic

namespace Quasiquote

def Report.kind : Report → String
  | general => "SynquoteError"
  | malformed => "SynquoteSyntaxError"
  | naming => "SynquoteNameError"
  | typing => "SynquoteTypeError"

def ArithmeticFault.kind : ArithmeticFault → String
  | exactDivision _ => "ZeroDivisionError"
  | floatDivision => "ZeroDivisionError"
  | integerTooLarge => "OverflowError"
  | fractionTooLarge => "OverflowError"
  | bound _ => "TypeError"
  | zeroStep => "ValueError"
  | uncountable => "OverflowError"
  | farColumn => "OverflowError"
  | noRoom => "MemoryError"

/-- The message of an arithmetic failure. That there is no room has none. -/
def ArithmeticFault.message : ArithmeticFault → String
  | exactDivision sign => "Fraction(" ++ Number.intText sign ++ ", 0)"
  | floatDivision => "float division by zero"
  | integerTooLarge => "int too large to convert to float"
  | fractionTooLarge => "integer division result too large for a float"
  | bound (.float _) => "'float' object cannot be interpreted as an integer"
  | bound (.nan _) => "'float' object cannot be interpreted as an integer"
  | bound (.ratio _) => "'Fraction' object cannot be interpreted as an integer"
  | bound (.int _) => "'int' object cannot be interpreted as an integer"
  | zeroStep => "range() arg 3 must not be zero"
  | uncountable => "Python int too large to convert to C ssize_t"
  | farColumn => "cannot fit 'int' into an index-sized integer"
  | noRoom => ""

/-- The message about an integer with too many digits, with their number if it is known. -/
def digitsText : Option Nat → String
  | some n => "Exceeds the limit (4300 digits) for integer string conversion: value has " ++
      toString n ++ " digits; use sys.set_int_max_str_digits() to increase the limit"
  | none => "Exceeds the limit (4300 digits) for integer string conversion; " ++
      "use sys.set_int_max_str_digits() to increase the limit"

def ExpansionFault.kind : ExpansionFault → String
  | other _ => "ExpansionError"
  | unknownMacro => "UnknownMacro"
  | arity .. => "ArityMismatch"
  | malformedSplice _ => "MalformedSplice"
  | tooDeep _ => "ExpansionDepthExceeded"
  | tooNested _ => "UnsupportedNestedTemplate"

/-- The kind of a failure. A caught failure that fails again keeps its kind. -/
def Failure.kind : Failure → String
  | .reported report _ => report.kind
  | .malformed _ => "SynquoteSyntaxError"
  | .naming _ => "SynquoteNameError"
  | .typing _ => "SynquoteTypeError"
  | .arithmetic fault => fault.kind
  | .digits _ => "ValueError"
  | .missingArgument => "IndexError"
  | .danglingEscape => "IndexError"
  | .unknownMark _ => "KeyError"
  | .setting _ => "ValueError"
  | .expansion _ _ fault => fault.kind
  | .thrown _ => "SynquoteThrow"
  | .again _ failure => failure.kind

/-- Whether a failure is shown by its kind alone. -/
def Failure.isSilent : Failure → Bool
  | .arithmetic .noRoom => true
  | .again _ failure => failure.isSilent
  | _ => false

/-- The kind of a failure and the more general kinds that it belongs to. -/
def Failure.kinds (f : Failure) : List String :=
  let general := if f.isExpansion then ["ExpansionError", "SynquoteError"] else ["SynquoteError"]
  if general.contains f.kind then general.dropWhile (· ≠ f.kind) else f.kind :: general

def nameText (name : Option String) : String := name.getD "None"

/-- How a message says how many arguments a macro takes. -/
def arityText (least : Nat) : Option Nat → String
  | none => "at least " ++ toString least
  | some most =>
      if most = least then "exactly " ++ toString least
      else toString least ++ " to " ++ toString most

def Symbol.quoted (s : Symbol) : String :=
  match s.ns with
  | none => "Symbol(" ++ Text.quoted s.name ++ ")"
  | some ns => "Symbol(" ++ Text.quoted s.name ++ ", " ++ Text.quoted ns ++ ")"

def keywordQuoted (name : String) : String := "Keyword(" ++ Text.quoted name ++ ")"

mutual

/-- A value as messages show it. -/
def Value.quoted : Value → String
  | .nil => "None"
  | .bool true => "True"
  | .bool false => "False"
  | .num n => n.quoted
  | .str s => Text.quoted s
  | .sym s => s.quoted
  | .kw name => keywordQuoted name
  | .list items => "[" ++ ", ".intercalate (Value.quotedAll items) ++ "]"
  | .tuple [v] => "(" ++ v.quoted ++ ",)"
  | .tuple items => "(" ++ ", ".intercalate (Value.quotedAll items) ++ ")"
  | .splice items => "Splice([" ++ ", ".intercalate (Value.quotedAll items) ++ "])"
  | .error _ failure =>
      let message := Text.quoted failure.message
      failure.kind ++ "(" ++ (if failure.isSilent then "" else message) ++ ")"
  | .fn f => "<function " ++ f.label ++ ">"
termination_by structural v => v

def Value.quotedAll : List Value → List String
  | [] => []
  | v :: vs => v.quoted :: Value.quotedAll vs
termination_by structural vs => vs

/-- The message of a failure. A caught failure that fails again keeps its message. -/
def Failure.message : Failure → String
  | .reported _ text => text
  | .malformed fault => fault.message
  | .naming fault => fault.message
  | .typing fault => fault.message
  | .arithmetic fault => fault.message
  | .digits n => digitsText n
  | .missingArgument => "list index out of range"
  | .danglingEscape => "string index out of range"
  | .unknownMark token => Text.quoted token
  | .setting fault => fault.message
  | .expansion macroName _ fault => fault.message macroName
  | .thrown v => "Thrown: " ++ v.quoted
  | .again _ failure => failure.message
termination_by structural failure => failure

/-- The message of a failure of expansion in a macro. -/
def ExpansionFault.message : ExpansionFault → Option String → String
  | .other text, _ => text
  | .unknownMacro, macroName => nameText macroName ++ " does not name a macro"
  | .arity least most got, macroName =>
      "Macro " ++ nameText macroName ++ " expects " ++ arityText least most ++
        " argument(s), got " ++ toString got
  | .malformedSplice v, macroName =>
      "unquote-splicing must produce a sequence" ++ inMacroText macroName ++ ", got " ++ v.quoted
  | .tooDeep bound, macroName =>
      "Expansion of " ++ nameText macroName ++ " exceeded maximum depth " ++ toString bound ++
        "; the macro is probably infinitely recursive"
  | .tooNested level, _ =>
      "syntax-quote nested " ++ toString level ++ " levels deep is not supported"
termination_by structural fault => fault

end

/-- A value in running text: texts and names as they are, all else quoted. -/
def Value.plain : Value → String
  | .str s => s
  | .sym s => s.text
  | .kw name => ":" ++ name
  | .num n => n.text
  | .error _ failure => failure.message
  | v => v.quoted

/-- The text of a failure that a host reports with some values: the one value in running text, or
all values quoted. -/
def Report.text : List Value → String
  | [] => ""
  | [v] => v.plain
  | vs => (Value.tuple vs).quoted

/-- The failure to write a value with an integer of too many digits. -/
def Failure.unwritable : Failure := .digits none

/-- What is written of a value, if every integer in the value can be written. -/
def Value.written (v : Value) (text : Value → α) : Except Failure α :=
  if v.isWritable then pure (text v) else throw .unwritable

end Quasiquote
