import Quasiquote.Value.Basic

/-!
Equality of values, as programs see it. Numbers are equal if they are the same number, whatever
their forms, and true and false count as one and zero. Lists, tuples and splices are equal to
their own kind, item by item. A caught failure or a probe is equal to itself only. A float that is
no number is not even that, but two lists that hold the same one are equal.
-/

namespace Quasiquote

/-- The number that a boolean is equal to. -/
def Number.ofBool (b : Bool) : Number := .int (if b then 1 else 0)

namespace Value

/-- Whether two values are one and the same float that is no number. -/
def identical : Value → Value → Bool
  | num m, num n => m.identical n
  | _, _ => false

mutual

/-- Whether two values are equal. -/
def equal : Value → Value → Bool
  | nil, nil => true
  | bool a, bool b => a == b
  | bool a, num n => (Number.ofBool a).equal n
  | num m, bool b => m.equal (Number.ofBool b)
  | num m, num n => m.equal n
  | str s, str t => s == t
  | sym s, sym t => s = t
  | kw s, kw t => s == t
  | list vs, list ws => equalAll vs ws
  | tuple vs, tuple ws => equalAll vs ws
  | splice vs, splice ws => equalAll vs ws
  | error i _, error j _ => i == j
  | fn f, fn g => f = g
  | _, _ => false
termination_by structural v => v

/-- Whether two rows of values are equal, item by item. The same item is equal to itself. -/
def equalAll : List Value → List Value → Bool
  | [], [] => true
  | v :: vs, w :: ws => (v.identical w || v.equal w) && equalAll vs ws
  | _, _ => false
termination_by structural vs => vs

end

end Value

end Quasiquote
