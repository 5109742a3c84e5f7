import Quasiquote.Fault
import Quasiquote.Number.Basic
import Quasiquote.Primitive.Basic

namespace Quasiquote

/-- The kinds of failure that a host can report with a text of its own. -/
inductive Report where
  | general
  | malformed
  | naming
  | typing
deriving DecidableEq, Repr

mutual

/-- A value. Values are also the trees that source text is read as. -/
inductive Value where
  | nil
  | bool (b : Bool)
  | num (n : Number)
  | str (s : String)
  | sym (s : Symbol)
  | kw (name : String)
  | list (items : List Value)
  /-- A second kind of sequence, which only a host makes. It is never equal to a list. -/
  | tuple (items : List Value)
  /-- Nodes that wait to be put into the enclosing list. -/
  | splice (items : List Value)
  /-- A caught failure. The number tells it from all other caught failures. -/
  | error (id : Nat) (failure : Failure)
  | fn (f : Primitive)

/-- Why a computation has no value. -/
inductive Failure where
  | reported (report : Report) (text : String)
  | malformed (fault : SyntaxFault)
  | naming (fault : NameFault)
  | typing (fault : TypeFault)
  | arithmetic (fault : ArithmeticFault)
  /-- An integer has too many digits to be read (their number is known) or written. -/
  | digits (n : Option Nat)
  | missingArgument
  | danglingEscape
  /-- A token of quote or bracket kind has an unknown text. -/
  | unknownMark (token : String)
  | setting (fault : SettingFault)
  | expansion (macroName : Option String) (node : Option Value) (fault : ExpansionFault)
  | thrown (value : Value)
  /-- A program throws a caught failure, which fails again as it is. -/
  | again (id : Nat) (failure : Failure)

/-- Why a macro call cannot be expanded. -/
inductive ExpansionFault where
  | other (text : String)
  | unknownMacro
  | arity (least : Nat) (most : Option Nat) (got : Nat)
  | malformedSplice (value : Value)
  | tooDeep (bound : Int)
  | tooNested (level : Int)

end

instance : Inhabited Value := ⟨.nil⟩

instance : Inhabited Failure := ⟨.missingArgument⟩

namespace Value

def int (n : Int) : Value := num (.int n)

def bare (name : String) : Value := sym ⟨name, none⟩

/-- Only nil and false are false. -/
def isTrue : Value → Bool
  | nil => false
  | bool b => b
  | _ => true

/-- The head of a list and its other items, if the head is a symbol. -/
def call? : Value → Option (Symbol × List Value)
  | list (sym s :: args) => some (s, args)
  | _ => none

mutual

/-- Whether every integer in a value is small enough for the value to be written. -/
def isWritable : Value → Bool
  | num n => n.isWritable
  | list items => areWritable items
  | tuple items => areWritable items
  | splice items => areWritable items
  | _ => true
termination_by structural v => v

def areWritable : List Value → Bool
  | [] => true
  | v :: vs => v.isWritable && areWritable vs
termination_by structural vs => vs

end

theorem isWritable_int (n : Nat) : (int n).isWritable = decide (n < Number.textBound) := by
  unfold int isWritable Number.isWritable
  dsimp only
  rw [Int.natAbs_natCast]

end Value

/-- Whether a failure is one of macro expansion, also when it fails again. -/
def Failure.isExpansion : Failure → Bool
  | .expansion .. => true
  | .again _ f => f.isExpansion
  | _ => false

end Quasiquote
