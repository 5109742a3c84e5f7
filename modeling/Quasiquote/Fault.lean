import Quasiquote.Symbol

namespace Quasiquote

/-- How a message says that something takes exactly so many arguments. -/
def argumentCountText (who : String) (n : Nat) : String :=
  who ++ " expects exactly " ++ toString n ++ (if n = 1 then " argument" else " arguments")

/-- What is wrong with a text or a form. Culprits that are values are kept as their quoted texts. -/
inductive SyntaxFault where
  | unterminatedString (position : Nat)
  | unsupportedEscape (c : Char)
  | namelessKeyword
  | endOfInput
  | missingForm (token : String)
  | unmatched (opener : String)
  | wrongCloser (expected opener got : String)
  | unexpectedToken (token : String)
  | unknownToken (kind text : String)
  | formCount (n : Nat)
  | escapeArguments (escape : Symbol) (n : Nat)
  | strayEscape (escape : Symbol)
  | argumentCount (form : String) (n : Nat)
  | notBindable (got : String)
  | qualifiedBinding (name : Symbol)
  | qualifiedLet (name : Symbol)
  | letBindings
  | letPairs
  | letName (got : String)
  | ifShape
  | tryClauses
  | catchName
  | defShape
  | defName (got : String)
  | defElsewhere (name : Symbol)
  | defmacroShape
  | defmacroName (got : String)
  | defmacroBody
  | parameterList
  | parameterAfterAmpersand
  | variadicParameter (got : String)
  | parameter (got : String)
  | duplicateParameter (names : String)
  | namespaceName (form got : String)
deriving DecidableEq, Repr

/-- The message of a fault in a text or form. Its culprits are quoted already. -/
def SyntaxFault.message : SyntaxFault → String
  | unterminatedString position => "Unterminated string at " ++ toString position
  | unsupportedEscape c => "Unsupported escape \\" ++ c.toString ++ " in string"
  | namelessKeyword => "Keyword needs a name after ':'"
  | endOfInput => "Unexpected end of input"
  | missingForm token => "Expected a form after " ++ token
  | unmatched opener => "Unmatched " ++ opener
  | wrongCloser expected opener got =>
      "Expected " ++ expected ++ " to close " ++ opener ++ ", got " ++ got
  | unexpectedToken token => "Unexpected " ++ token
  | unknownToken kind text => "Unknown token: " ++ kind ++ " " ++ text
  | formCount n => "Expected exactly one form, got " ++ toString n
  | escapeArguments escape n =>
      argumentCountText escape.text 1 ++ ", got " ++ toString n
  | strayEscape escape => escape.text ++ " not valid outside of syntax-quote"
  | argumentCount form n => argumentCountText form n
  | notBindable got => "Cannot bind " ++ got ++ ": not a symbol"
  | qualifiedBinding name => "Can't bind qualified name: " ++ name.text
  | qualifiedLet name => "Can't let qualified name: " ++ name.text
  | letBindings => "let requires a binding vector"
  | letPairs => "let requires an even number of forms in the binding vector"
  | letName got => "let binding name must be a symbol, got " ++ got
  | ifShape => "if requires a condition, a then-expression and an optional else"
  | tryClauses => "try accepts at most one catch and one finally clause"
  | catchName => "catch requires a binding name: (catch name body...)"
  | defShape => "def requires a name and an optional value"
  | defName got => "def name must be a symbol, got " ++ got
  | defElsewhere name => "Can't create defs outside of current ns: " ++ name.text
  | defmacroShape => "defmacro requires a name, a parameter vector and a body"
  | defmacroName got => "Macro name must be a Symbol, got " ++ got
  | defmacroBody => "defmacro body must be exactly one form"
  | parameterList => "Macro parameter list must be a vector"
  | parameterAfterAmpersand => "& must be followed by exactly one parameter name"
  | variadicParameter got => "Invalid variadic parameter: " ++ got
  | parameter got => "Macro parameter must be an unqualified symbol, got " ++ got
  | duplicateParameter names => "Duplicate macro parameter in " ++ names
  | namespaceName form got => form ++ " expects a namespace name, got " ++ got

/-- A name that stands for nothing. -/
inductive NameFault where
  | unbound (name : Symbol)
  | notParameter (name : Symbol) (macroName : Option String)
  | notHelper (head : String)
deriving DecidableEq, Repr

/-- How a message names the macro in which something failed. A macro without a name is not
mentioned. -/
def inMacroText : Option String → String
  | some name => if name.isEmpty then "" else " in macro " ++ name
  | none => ""

/-- The message about a name that stands for nothing. -/
def NameFault.message : NameFault → String
  | unbound name => "Unable to resolve symbol: " ++ name.text
  | notParameter name macroName => "Unable to resolve " ++ name.text ++ inMacroText macroName
  | notHelper head => head ++ " is not a macro-time function"

/-- An argument of the wrong type, or a wrong number of arguments. -/
inductive TypeFault where
  | notSequence (who got : String)
  | notInteger (who got : String)
  | notNumber (who got : String)
  | notCallable (got : String)
  | argumentCount (who : String) (n : Nat)
  | noArgument (who : String)
  | rangeArguments
  | symbolArguments
  | gensymArguments
deriving DecidableEq, Repr

def TypeFault.message : TypeFault → String
  | notSequence who got => who ++ " expects a sequence, got " ++ got
  | notInteger who got => who ++ " expects an integer, got " ++ got
  | notNumber who got => "All arguments to " ++ who ++ " must be numbers, got " ++ got
  | notCallable got => got ++ " is not callable"
  | argumentCount who n => argumentCountText who n
  | noArgument who => who ++ " requires at least 1 argument"
  | rangeArguments => "range expects 1 to 3 arguments"
  | symbolArguments => "symbol expects 1 or 2 arguments"
  | gensymArguments => "gensym takes at most 1 argument: (gensym [prefix])"

/-- A setting that is no positive integer. -/
inductive SettingFault where
  | notInteger (name got : String)
  | notPositive (name : String) (value : Int)
deriving DecidableEq, Repr

def SettingFault.message : SettingFault → String
  | notInteger name got => name ++ " must be an integer, got " ++ got
  | notPositive name value => name ++ " must be positive, got " ++ toString value

end Quasiquote
