import Quasiquote.Number.Shortest

/-!
Numbers: integers and fractions, which are exact, and floats. Exact numbers stay exact under
arithmetic; an exact number that meets a float becomes one. Comparison is always exact. A float
that is no number equals nothing, and has an identity by which it is known again.
-/

namespace Quasiquote

/-- A number. A fraction may have the denominator one; `normal` turns it into an integer then.
Arithmetic makes a `float` only of what is a number, by `ofFloat`. -/
inductive Number where
  | int (n : Int)
  | ratio (q : Rat)
  | float (x : Float)
  /-- The float that is no number. The identity tells it from those that arose elsewhere. -/
  | nan (id : Nat)
deriving Inhabited

/-- Why arithmetic has no result. -/
inductive ArithmeticFault where
  /-- An exact number of the given sign is divided by zero. -/
  | exactDivision (sign : Int)
  /-- A float is divided by zero, or anything by the float zero. -/
  | floatDivision
  | integerTooLarge
  | fractionTooLarge
  | bound (n : Number)
  | zeroStep
  /-- A range has more numbers than can be counted. -/
  | uncountable
  /-- A line begins at a column that is too far to be counted. -/
  | farColumn
  /-- There is no room for a list or for the blanks of a line. -/
  | noRoom
deriving Inhabited

/-- The bound on what can be counted. -/
def countBound : Nat := 1 <<< 63

/-- The bound on how many items of a range there is room for. -/
def roomBound : Nat := 1 <<< 32

namespace Number

/-- An exact number as a rational one. -/
def toRat? : Number → Option Rat
  | int n => some n
  | ratio q => some q
  | float _ => none
  | nan _ => none

/-- A fraction with denominator one is an integer. -/
def normal : Number → Number
  | ratio q => if q.den = 1 then int q.num else ratio q
  | n => n

/-- A float as a number. If it is none, it has the given identity. -/
def ofFloat (id : Nat) (x : Float) : Number := if x.isNaN then nan id else float x

/-- The float nearest to a number. A finite number that would become an infinity has none. -/
def toFloat : Number → Except ArithmeticFault Float
  | int n =>
      let x := Binary64.ofInt n
      if x.isInf then throw .integerTooLarge else pure x
  | ratio q =>
      let x := Binary64.ofRat q
      if x.isInf then throw .fractionTooLarge else pure x
  | float x => pure x
  | nan _ => pure Binary64.nan

/-- Combine two numbers: integers by the first operation, other exact numbers by the second, and
by the third once a float takes part. A result that is no number has the given identity. -/
def combine (onInt : Int → Int → Int) (onRat : Rat → Rat → Rat) (onFloat : Float → Float → Float)
    (id : Nat) : Number → Number → Except ArithmeticFault Number
  | int a, int b => pure (int (onInt a b))
  | int a, ratio b => pure (ratio (onRat a b))
  | ratio a, int b => pure (ratio (onRat a b))
  | ratio a, ratio b => pure (ratio (onRat a b))
  | a, b => do
      let x ← a.toFloat
      let y ← b.toFloat
      pure (ofFloat id (onFloat x y))

def add (id : Nat) : Number → Number → Except ArithmeticFault Number :=
  combine (· + ·) (· + ·) (· + ·) id

def sub (id : Nat) : Number → Number → Except ArithmeticFault Number :=
  combine (· - ·) (· - ·) (· - ·) id

def mul (id : Nat) : Number → Number → Except ArithmeticFault Number :=
  combine (· * ·) (· * ·) (· * ·) id

def divExact (a b : Rat) : Except ArithmeticFault Number :=
  if b = 0 then throw (.exactDivision a.num.sign) else pure (ratio (a / b))

/-- The quotient of floats. The zero of either sign divides nothing. -/
def divFloat (id : Nat) (x y : Float) : Except ArithmeticFault Number :=
  if y == 0 then throw .floatDivision else pure (ofFloat id (x / y))

/-- The quotient of two numbers. It is exact, and a fraction, if both are exact. -/
def div (id : Nat) : Number → Number → Except ArithmeticFault Number
  | int a, int b => divExact a b
  | int a, ratio b => divExact a b
  | ratio a, int b => divExact a b
  | ratio a, ratio b => divExact a b
  | a, b => do
      let x ← a.toFloat
      let y ← b.toFloat
      divFloat id x y

def neg (id : Nat) : Number → Number
  | int n => int (-n)
  | ratio q => ratio (-q)
  | float x => float (-x)
  | nan _ => nan id

/-- The place of a number on the extended line: a rational number, or an infinity. -/
inductive Place where
  | below
  | at (q : Rat)
  | above

/-- The place of a number on the extended line; the float that is no number has none. -/
def place? : Number → Option Place
  | int n => some (.at n)
  | ratio q => some (.at q)
  | float x =>
      match Binary64.parts x with
      | .nan => none
      | .infinite negative => some (if negative then .below else .above)
      | .finite .. => (Binary64.toRat? x).map .at
  | nan _ => none

/-- The order of the extended line. -/
def Place.compare : Place → Place → Ordering
  | .below, .below => .eq
  | .below, _ => .lt
  | _, .below => .gt
  | .above, .above => .eq
  | .above, _ => .gt
  | _, .above => .lt
  | .at p, .at q => if p < q then .lt else if p = q then .eq else .gt

/-- How two numbers compare. A float that is no number compares with nothing. -/
def compare? (a b : Number) : Option Ordering := do
  let p ← a.place?
  let q ← b.place?
  pure (p.compare q)

/-- Whether two numbers are equal, whatever their forms. -/
def equal (a b : Number) : Bool := a.compare? b == some .eq

/-- Whether two numbers are one and the same float that is no number. -/
def identical : Number → Number → Bool
  | nan i, nan j => i == j
  | _, _ => false

def less (a b : Number) : Bool := a.compare? b == some .lt

/-- Whether a number lies below another one or is equal to it. -/
def atMost (a b : Number) : Bool := a.compare? b == some .lt || a.compare? b == some .eq

/-- The bound on integers that have a text: they have at most 4300 digits. -/
def textBound : Nat := Nat.pow 10 4300

/-- Whether every integer in a number is small enough to be written. -/
def isWritable : Number → Bool
  | int n => n.natAbs < textBound
  | ratio q => q.num.natAbs < textBound && q.den < textBound
  | float _ => true
  | nan _ => true

def intText (n : Int) : String :=
  let digits := Nat.toDigits 10 n.natAbs
  String.ofList (if n < 0 then '-' :: digits else digits)

/-- A number as programs write it. -/
def text : Number → String
  | int n => intText n
  | ratio q => if q.den = 1 then intText q.num else intText q.num ++ "/" ++ intText q.den
  | float x => Binary64.text x
  | nan _ => Binary64.text Binary64.nan

/-- A number as messages show it inside of other values. -/
def quoted : Number → String
  | ratio q => "Fraction(" ++ intText q.num ++ ", " ++ intText q.den ++ ")"
  | n => n.text

end Number

end Quasiquote
