/-!
Binary floating-point numbers of 64 bits, seen exactly. `parts` splits such a number into sign,
mantissa and exponent, and `nearest` rounds a quotient of naturals to the nearest number, a tie
going to the even mantissa.
-/

namespace Quasiquote.Binary64

/-- What a 64-bit float stands for. A finite one is `mantissa * 2 ^ exponent`, with its sign. -/
inductive Parts where
  | nan
  | infinite (negative : Bool)
  | finite (negative : Bool) (mantissa : Nat) (exponent : Int)
deriving DecidableEq, Repr

def nan : Float := Float.ofBits 0x7ff8000000000000

/-- The exponent of the last binary digit of the smallest floats. -/
def leastExponent : Int := -1074

/-- Split a float into sign, mantissa and exponent. -/
def parts (x : Float) : Parts :=
  let bits : Nat := x.toBits.toNat
  let negative : Bool := 1 <<< 63 ≤ bits
  let biased : Nat := (bits >>> 52) % 2048
  let fraction : Nat := bits % (1 <<< 52)
  if biased = 2047 then if fraction = 0 then .infinite negative else .nan
  else if biased = 0 then .finite negative fraction leastExponent
  else .finite negative ((1 <<< 52) + fraction) (leastExponent + biased - 1)

/-- A numerator and a denominator of `m * 2 ^ e`. -/
def quotient (m : Nat) (e : Int) : Nat × Nat :=
  if 0 ≤ e then (m <<< e.toNat, 1) else (m, 1 <<< (-e).toNat)

/-- The rational number that a float stands for, if it is finite. -/
def toRat? (x : Float) : Option Rat :=
  match parts x with
  | .finite negative m e =>
      let (num, den) := quotient m e
      some (if negative then mkRat (-num) den else mkRat num den)
  | _ => none

/-- Divide and round to the nearest integer, a tie going to the even one. -/
def divideEven (num den : Nat) : Nat :=
  let q := num / den
  let r := num % den
  if den < 2 * r ∨ (den = 2 * r ∧ q % 2 = 1) then q + 1 else q

/-- The exponent of the highest binary digit of `num / den`. -/
def highestExponent (num den : Nat) : Int :=
  let e : Int := (Nat.log2 num : Int) - Nat.log2 den
  let reaches := if 0 ≤ e then den <<< e.toNat ≤ num else den ≤ num <<< (-e).toNat
  if reaches then e else e - 1

/-- The float nearest to `num / den`, with the given sign. A quotient that is too large is
rounded to infinity. -/
def nearest (negative : Bool) (num den : Nat) : Float :=
  let magnitude :=
    if num = 0 then 0
    else
      let e := max (highestExponent num den - 52) leastExponent
      let m := if 0 ≤ e then divideEven num (den <<< e.toNat)
        else divideEven (num <<< (-e).toNat) den
      min (((e - leastExponent).toNat <<< 52) + m) (2047 <<< 52)
  Float.ofBits (.ofNat (if negative then (1 <<< 63) + magnitude else magnitude))

def ofInt (n : Int) : Float := nearest (n < 0) n.natAbs 1

def ofRat (q : Rat) : Float := nearest (q.num < 0) q.num.natAbs q.den

/-- The float nearest to `digits * 10 ^ exponent`, with the given sign. An exponent far out of
range is not computed: the result is zero or infinity then. -/
def ofDecimal (negative : Bool) (digits : Nat) (exponent : Int) : Float :=
  let size : Int := (Nat.toDigits 10 digits).length
  if digits = 0 ∨ size + exponent < -400 then nearest negative 0 1
  else if 400 < size + exponent then nearest negative (1 <<< 1024) 1
  else if 0 ≤ exponent then nearest negative (digits * Nat.pow 10 exponent.toNat) 1
  else nearest negative digits (Nat.pow 10 (-exponent).toNat)

end Quasiquote.Binary64
