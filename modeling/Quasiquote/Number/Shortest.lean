import Quasiquote.Number.Binary64

/-!
The decimal text of a 64-bit float: the fewest digits that read back to it, and of those the
digits nearest to it. Each count of digits has a grid of decimals, and if any point of the grid
reads back then one of the two around the float does, so only these two are tried.
-/

namespace Quasiquote.Binary64

/-- A decimal number `0.d₁d₂… * 10 ^ point`. -/
structure Decimal where
  digits : List Char
  point : Int

/-- The least `p` with `num / den < 10 ^ p`, for a positive quotient. -/
def decimalPoint (num den : Nat) : Int :=
  let p : Int := (Nat.toDigits 10 num).length - (Nat.toDigits 10 den).length
  let reaches := if 0 ≤ p then den * Nat.pow 10 p.toNat ≤ num else den ≤ num * Nat.pow 10 (-p).toNat
  if reaches then p + 1 else p

/-- Of the grid with spacing `10 ^ scale`, the point next to `num / den` that reads back as `x`,
the nearer one if both do. A point is given by its multiple of the spacing. -/
def gridPoint? (x : Float) (num den : Nat) (scale : Int) : Option Nat :=
  let scaledNum := if 0 ≤ scale then num else num * Nat.pow 10 (-scale).toNat
  let scaledDen := if 0 ≤ scale then den * Nat.pow 10 scale.toNat else den
  let below := scaledNum / scaledDen
  let readsBack (d : Nat) : Bool := (ofDecimal false d scale).toBits == x.toBits
  let twiceRest := 2 * (scaledNum % scaledDen)
  let belowIsNearer := twiceRest < scaledDen ∨ (twiceRest = scaledDen ∧ below % 2 = 0)
  match readsBack below, readsBack (below + 1) with
  | true, true => some (if belowIsNearer then below else below + 1)
  | true, false => some below
  | false, true => some (below + 1)
  | false, false => none

/-- The shortest decimal for `num / den` that reads back as the positive float `x`. Seventeen
digits always suffice. -/
def shortestFrom (x : Float) (num den : Nat) : Decimal :=
  let point := decimalPoint num den
  let found := (List.range 17).findSome? fun (k : Nat) =>
    let scale := point - (k + 1)
    (gridPoint? x num den scale).map fun d => (d, scale)
  let (d, scale) := found.getD (0, 0)
  let digits := Nat.toDigits 10 d
  let significant := (digits.reverse.dropWhile (· == '0')).reverse
  ⟨significant, scale + digits.length⟩

/-- How floats are laid out: a number from `10 ^ least` up to `10 ^ most` is written with a
decimal point alone, any other with an exponent of at least `width` digits. -/
structure Layout where
  least : Int
  most : Int
  width : Nat

/-- Floats from `0.0001` up to `10 ^ 16` are written without an exponent. -/
def layout : Layout := ⟨-4, 16, 2⟩

/-- The text of a decimal in a layout. It always has a point or an exponent. -/
def Decimal.text (l : Layout) (d : Decimal) : List Char :=
  let exponent := d.point - 1
  if l.least ≤ exponent ∧ exponent < l.most then
    if d.point ≤ 0 then '0' :: '.' :: List.replicate (-d.point).toNat '0' ++ d.digits
    else
      let whole := d.point.toNat
      if d.digits.length ≤ whole then
        d.digits ++ List.replicate (whole - d.digits.length) '0' ++ ['.', '0']
      else d.digits.take whole ++ '.' :: d.digits.drop whole
  else
    let head := match d.digits with
      | [] => []
      | [c] => [c]
      | c :: rest => c :: '.' :: rest
    let power := Nat.toDigits 10 exponent.natAbs
    head ++ 'e' :: (if exponent < 0 then '-' else '+') ::
      List.replicate (l.width - power.length) '0' ++ power

/-- The text of a float. It reads back to the float if that is finite. -/
def text (x : Float) : String :=
  match parts x with
  | .nan => "nan"
  | .infinite negative => if negative then "-inf" else "inf"
  | .finite negative m e =>
      let magnitude :=
        if m = 0 then ['0', '.', '0']
        else
          let (num, den) := quotient m e
          (shortestFrom (nearest false num den) num den).text layout
      String.ofList (if negative then '-' :: magnitude else magnitude)

end Quasiquote.Binary64
