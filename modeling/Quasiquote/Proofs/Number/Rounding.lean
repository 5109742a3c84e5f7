import Mathlib.Algebra.Order.Field.Power
import Mathlib.Algebra.Order.Floor.Semifield
import Mathlib.Data.Int.Log
import Mathlib.Data.Rat.Floor
import Mathlib.Tactic.FieldSimp
import Mathlib.Tactic.Linarith
import Mathlib.Tactic.NormNum
import Mathlib.Tactic.Positivity
import Quasiquote.Number.Binary64

namespace Quasiquote.Binary64

/-- Scaling a quotient by a power, on the side where the power is a natural number. -/
theorem scaled_div {b : ℕ} (hb : b ≠ 0) (num den : ℕ) (e : ℤ) :
    ((if 0 ≤ e then num else num * b ^ (-e).toNat : ℕ) : ℚ) /
        ((if 0 ≤ e then den * b ^ e.toNat else den : ℕ) : ℚ) =
      num / den / (b : ℚ) ^ e := by
  have hb' : (b : ℚ) ≠ 0 := by exact_mod_cast hb
  by_cases he : 0 ≤ e
  · obtain ⟨k, rfl⟩ := Int.eq_ofNat_of_zero_le he
    simp [div_div]
  · obtain ⟨k, rfl⟩ : ∃ k : ℕ, e = -k := ⟨(-e).toNat, by omega⟩
    simp only [if_neg he, neg_neg, Int.toNat_natCast, zpow_neg, zpow_natCast, Nat.cast_mul,
      Nat.cast_pow, div_inv_eq_mul]
    ring

theorem log_div {b num den : ℕ} (hb : 1 < b) (hnum : num ≠ 0) (hden : den ≠ 0) :
    Int.log b (num / den : ℚ) =
      if (b : ℚ) ^ ((Nat.log b num : ℤ) - Nat.log b den) ≤ num / den then
        (Nat.log b num : ℤ) - Nat.log b den
      else (Nat.log b num : ℤ) - Nat.log b den - 1 := by
  have hb0 : (0 : ℚ) < b := by exact_mod_cast (by omega : 0 < b)
  have hpos : (0 : ℚ) < num / den := by positivity
  have hnumLow : (b : ℚ) ^ (Nat.log b num : ℤ) ≤ num := by
    exact_mod_cast Nat.pow_log_le_self b hnum
  have hnumHigh : (num : ℚ) < (b : ℚ) ^ ((Nat.log b num : ℤ) + 1) := by
    exact_mod_cast Nat.lt_pow_succ_log_self hb num
  have hdenLow : (b : ℚ) ^ (Nat.log b den : ℤ) ≤ den := by
    exact_mod_cast Nat.pow_log_le_self b hden
  have hdenHigh : (den : ℚ) < (b : ℚ) ^ ((Nat.log b den : ℤ) + 1) := by
    exact_mod_cast Nat.lt_pow_succ_log_self hb den
  have hden0 : (0 : ℚ) < den := by positivity
  have hpow (e : ℤ) : (0 : ℚ) < (b : ℚ) ^ e := zpow_pos hb0 e
  have hupper : Int.log b (num / den : ℚ) < (Nat.log b num : ℤ) - Nat.log b den + 1 := by
    rw [← Int.lt_zpow_iff_log_lt hb hpos, div_lt_iff₀ hden0]
    calc (num : ℚ) < (b : ℚ) ^ ((Nat.log b num : ℤ) + 1) := hnumHigh
      _ = (b : ℚ) ^ ((Nat.log b num : ℤ) - Nat.log b den + 1) * (b : ℚ) ^ (Nat.log b den : ℤ) := by
          rw [← zpow_add₀ hb0.ne']
          congr 1
          omega
      _ ≤ (b : ℚ) ^ ((Nat.log b num : ℤ) - Nat.log b den + 1) * den :=
          mul_le_mul_of_nonneg_left hdenLow (hpow _).le
  have hlower : (Nat.log b num : ℤ) - Nat.log b den - 1 ≤ Int.log b (num / den : ℚ) := by
    rw [← Int.zpow_le_iff_le_log hb hpos, le_div_iff₀ hden0]
    calc (b : ℚ) ^ ((Nat.log b num : ℤ) - Nat.log b den - 1) * den
        ≤ (b : ℚ) ^ ((Nat.log b num : ℤ) - Nat.log b den - 1) *
          (b : ℚ) ^ ((Nat.log b den : ℤ) + 1) :=
          mul_le_mul_of_nonneg_left hdenHigh.le (hpow _).le
      _ = (b : ℚ) ^ (Nat.log b num : ℤ) := by
          rw [← zpow_add₀ hb0.ne']
          congr 1
          omega
      _ ≤ num := hnumLow
  split
  case isTrue h =>
    have := (Int.zpow_le_iff_le_log hb hpos).mp h
    omega
  case isFalse h =>
    have := (Int.lt_zpow_iff_log_lt hb hpos).mp (lt_of_not_ge h)
    omega

/-- The natural number nearest to a rational one that is not negative, a tie going to the even
one. -/
def roundEven (q : ℚ) : ℕ :=
  if 1 < 2 * (q - ⌊q⌋₊) ∨ (2 * (q - ⌊q⌋₊) = 1 ∧ ⌊q⌋₊ % 2 = 1) then ⌊q⌋₊ + 1 else ⌊q⌋₊

theorem divideEven_eq_roundEven (num : ℕ) {den : ℕ} (hden : den ≠ 0) :
    divideEven num den = roundEven (num / den) := by
  have hrest : 2 * ((num : ℚ) / den - (num / den : ℕ)) = (2 * (num % den : ℕ) : ℕ) / den := by
    have hsplit : (num : ℚ) = den * (num / den : ℕ) + (num % den : ℕ) := by
      exact_mod_cast (Nat.div_add_mod num den).symm
    have hden' : (den : ℚ) ≠ 0 := by exact_mod_cast hden
    field_simp
    push_cast
    linarith
  have hden0 : (0 : ℚ) < den := by positivity
  have hmore : 1 < ((2 * (num % den : ℕ) : ℕ) : ℚ) / den ↔ den < 2 * (num % den) := by
    rw [one_lt_div hden0, Nat.cast_lt]
  have htie : ((2 * (num % den : ℕ) : ℕ) : ℚ) / den = 1 ↔ den = 2 * (num % den) := by
    rw [div_eq_one_iff_eq hden0.ne', Nat.cast_inj, eq_comm]
  simp only [divideEven, roundEven, Nat.floor_div_eq_div, hrest, hmore, htie]

theorem roundEven_eq_of_near {q : ℚ} {n : ℕ} (hq : 0 ≤ q) (h : |q - n| < 1 / 2) :
    roundEven q = n := by
  obtain ⟨hlow, hhigh⟩ := abs_lt.mp h
  rcases le_or_gt (n : ℚ) q with hle | hlt
  · have hfloor : ⌊q⌋₊ = n := (Nat.floor_eq_iff hq).mpr ⟨hle, by linarith⟩
    rw [roundEven, hfloor, if_neg]
    rintro (hmore | ⟨htie, -⟩) <;> linarith
  · obtain ⟨k, rfl⟩ : ∃ k, n = k + 1 := by
      have : n ≠ 0 := by
        rintro rfl
        exact absurd hlt (not_lt.mpr (by exact_mod_cast hq))
      exact Nat.exists_eq_succ_of_ne_zero this
    push_cast at hlow hhigh hlt
    have hfloor : ⌊q⌋₊ = k := (Nat.floor_eq_iff hq).mpr ⟨by linarith, by linarith⟩
    rw [roundEven, hfloor, if_pos (Or.inl (by linarith))]

theorem le_roundEven {q : ℚ} {n : ℕ} (h : n ≤ q) : n ≤ roundEven q := by
  have hfloor : n ≤ ⌊q⌋₊ := Nat.le_floor h
  unfold roundEven
  split <;> omega

theorem reaches_iff {b : ℕ} (hb : b ≠ 0) (num : ℕ) {den : ℕ} (hden : den ≠ 0) (e : ℤ) :
    (if 0 ≤ e then den * b ^ e.toNat ≤ num else den ≤ num * b ^ (-e).toNat) ↔
      (b : ℚ) ^ e ≤ num / den := by
  have hb0 : (0 : ℚ) < b := by exact_mod_cast Nat.pos_of_ne_zero hb
  have hden0 : (0 : ℚ) < den := by exact_mod_cast Nat.pos_of_ne_zero hden
  rw [le_div_iff₀ hden0]
  by_cases he : 0 ≤ e
  · obtain ⟨k, rfl⟩ := Int.eq_ofNat_of_zero_le he
    rw [if_pos he, Int.toNat_natCast, zpow_natCast, mul_comm]
    exact_mod_cast Iff.rfl
  · obtain ⟨k, rfl⟩ : ∃ k : ℕ, e = -k := ⟨(-e).toNat, by omega⟩
    have hk : (0 : ℚ) < (b : ℚ) ^ k := by positivity
    rw [if_neg he, neg_neg, Int.toNat_natCast, zpow_neg, zpow_natCast, inv_mul_le_iff₀ hk, mul_comm]
    exact_mod_cast Iff.rfl

theorem highestExponent_eq_log {num den : ℕ} (hnum : num ≠ 0) (hden : den ≠ 0) :
    highestExponent num den = Int.log 2 (num / den : ℚ) := by
  rw [log_div (by decide) hnum hden]
  simp only [highestExponent, Nat.log2_eq_log_two, Nat.shiftLeft_eq,
    reaches_iff (b := 2) (by decide) num hden]

/-- The bits of the float nearest to a rational number that is not negative, up to their sign. -/
def rounded (q : ℚ) : ℕ :=
  if q = 0 then 0
  else
    let e := max (Int.log 2 q - 52) leastExponent
    min ((e - leastExponent).toNat * 2 ^ 52 + roundEven (q / (2 : ℚ) ^ e)) (2047 * 2 ^ 52)

/-- The float with the given sign and with the given bits apart from it. -/
def ofMagnitude (negative : Bool) (magnitude : ℕ) : Float :=
  Float.ofBits (.ofNat (if negative then 2 ^ 63 + magnitude else magnitude))

theorem nearest_eq (negative : Bool) (num : ℕ) {den : ℕ} (hden : den ≠ 0) :
    nearest negative num den = ofMagnitude negative (rounded (num / den)) := by
  by_cases hnum : num = 0
  · simp [nearest, rounded, ofMagnitude, hnum]
  have hq : (num / den : ℚ) ≠ 0 := div_ne_zero (by exact_mod_cast hnum) (by exact_mod_cast hden)
  have hdivide (e : ℤ) :
      (if 0 ≤ e then divideEven num (den * 2 ^ e.toNat) else divideEven (num * 2 ^ (-e).toNat) den) =
        roundEven (num / den / (2 : ℚ) ^ e) := by
    have hscaled := scaled_div (b := 2) (by decide) num den e
    split
    case isTrue he =>
      rw [if_pos he, if_pos he] at hscaled
      rw [divideEven_eq_roundEven _ (by simp [hden]), hscaled, Nat.cast_ofNat]
    case isFalse he =>
      rw [if_neg he, if_neg he] at hscaled
      rw [divideEven_eq_roundEven _ hden, hscaled, Nat.cast_ofNat]
  simp only [nearest, rounded, ofMagnitude, if_neg hnum, if_neg hq, highestExponent_eq_log hnum hden,
    Nat.shiftLeft_eq, Nat.one_mul, hdivide]

/-- The parts that a finite float has: a mantissa of at most 53 binary digits, and fewer only at the
least exponent. -/
structure IsLegal (m : ℕ) (e : ℤ) : Prop where
  mantissa_lt : m < 2 ^ 53
  least_le : leastExponent ≤ e
  le_most : e ≤ 971
  normal : 2 ^ 52 ≤ m ∨ e = leastExponent

/-- The bits of a float with the given parts, up to their sign. -/
def magnitude (m : ℕ) (e : ℤ) : ℕ := (e - leastExponent).toNat * 2 ^ 52 + m

theorem IsLegal.magnitude_lt {m : ℕ} {e : ℤ} (h : IsLegal m e) :
    magnitude m e < 2047 * 2 ^ 52 := by
  obtain ⟨hm, hleast, hmost, -⟩ := h
  simp only [magnitude, leastExponent] at *
  omega

theorem rounded_eq_magnitude {q : ℚ} {n : ℕ} {e : ℤ} (hq : 0 < q)
    (he : max (Int.log 2 q - 52) leastExponent = e) (hnear : |q / (2 : ℚ) ^ e - n| < 1 / 2)
    (hle : magnitude n e ≤ 2047 * 2 ^ 52) : rounded q = magnitude n e := by
  have hround : roundEven (q / (2 : ℚ) ^ e) = n :=
    roundEven_eq_of_near (div_nonneg hq.le (zpow_nonneg (by norm_num) e)) hnear
  rw [rounded, if_neg hq.ne', he]
  show min ((e - leastExponent).toNat * 2 ^ 52 + roundEven (q / (2 : ℚ) ^ e)) _ = _
  rw [hround]
  exact min_eq_left hle

theorem two_zpow_pos (e : ℤ) : (0 : ℚ) < (2 : ℚ) ^ e := zpow_pos (by norm_num) e

theorem two_zpow_add (k : ℕ) (e : ℤ) : (2 : ℚ) ^ ((k : ℤ) + e) = 2 ^ k * (2 : ℚ) ^ e := by
  rw [zpow_add₀ (by norm_num), zpow_natCast]

theorem two_zpow_le_iff {q : ℚ} (hq : 0 < q) (k : ℤ) : (2 : ℚ) ^ k ≤ q ↔ k ≤ Int.log 2 q := by
  exact_mod_cast Int.zpow_le_iff_le_log (b := 2) (by decide) hq

theorem abs_div_sub_lt_iff (q r c : ℚ) (e : ℤ) :
    |q / (2 : ℚ) ^ e - r| < c ↔ |q - r * (2 : ℚ) ^ e| < c * (2 : ℚ) ^ e := by
  have hunit := two_zpow_pos e
  rw [div_sub' hunit.ne', abs_div, abs_of_pos hunit, div_lt_iff₀ hunit, mul_comm _ r]

theorem rounded_eq_of_near_below {q : ℚ} {e : ℤ} (hleast : leastExponent < e) (hmost : e ≤ 971)
    (hq : 0 < q) (hlt : q < (2 : ℚ) ^ ((52 : ℕ) + e))
    (hnear : |q - 2 ^ 52 * (2 : ℚ) ^ e| < (2 : ℚ) ^ e / 4) :
    rounded q = magnitude (2 ^ 52) e := by
  have hhalf : (2 : ℚ) ^ e = 2 * (2 : ℚ) ^ (e - 1) := by
    rw [zpow_sub_one₀ (by norm_num)]
    ring
  have hcarry : magnitude (2 ^ 53) (e - 1) = magnitude (2 ^ 52) e := by
    simp only [magnitude, leastExponent] at *
    omega
  have hunit := two_zpow_pos (e - 1)
  obtain ⟨hlow, hhigh⟩ := abs_lt.mp hnear
  have hge : (2 : ℚ) ^ ((51 : ℕ) + e) ≤ q := by
    rw [two_zpow_add, hhalf]
    rw [hhalf] at hlow
    linarith
  rw [← not_le, two_zpow_le_iff hq] at hlt
  rw [two_zpow_le_iff hq] at hge
  rw [← hcarry]
  refine rounded_eq_magnitude hq (by omega) ?_ ?_
  · rw [abs_div_sub_lt_iff, abs_lt]
    push_cast
    rw [hhalf] at hlow hhigh
    constructor <;> linarith
  · simp only [magnitude, leastExponent]
    omega

/-- A number that is nearer to a float than half the distance to the next one rounds to it. Below
a power of two the next float is only half as far away. -/
theorem rounded_eq_of_near {q : ℚ} {m : ℕ} {e : ℤ} (h : IsLegal m e) (hq : 0 < q)
    (hnear : |q - m * (2 : ℚ) ^ e| < (2 : ℚ) ^ e / 2)
    (hbelow : m = 2 ^ 52 → |q - m * (2 : ℚ) ^ e| < (2 : ℚ) ^ e / 4) :
    rounded q = magnitude m e := by
  have hleast := h.least_le
  have hunit := two_zpow_pos e
  have hscaled : |q / (2 : ℚ) ^ e - m| < 1 / 2 := by
    rw [abs_div_sub_lt_iff]
    linarith
  obtain ⟨hlow, hhigh⟩ := abs_lt.mp hnear
  have hm : (m : ℚ) + 1 ≤ 2 ^ 53 := by exact_mod_cast h.mantissa_lt
  have htop : q < (2 : ℚ) ^ ((53 : ℕ) + e) := by
    rw [two_zpow_add]
    nlinarith
  rw [← not_le, two_zpow_le_iff hq] at htop
  rcases le_or_gt ((2 : ℚ) ^ ((52 : ℕ) + e)) q with hbinade | hbinade
  · rw [two_zpow_le_iff hq] at hbinade
    exact rounded_eq_magnitude hq (by omega) hscaled h.magnitude_lt.le
  · rcases eq_or_ne e leastExponent with he | he
    · exact rounded_eq_magnitude hq (by omega) hscaled h.magnitude_lt.le
    · have hge : 2 ^ 52 ≤ m := h.normal.resolve_right he
      have hlt : (m : ℚ) < 2 ^ 52 + 1 := by
        rw [two_zpow_add] at hbinade
        nlinarith
      have hmantissa : m = 2 ^ 52 := by
        have hlt' : m < 2 ^ 52 + 1 := by exact_mod_cast hlt
        omega
      subst hmantissa
      have hnear' := hbelow rfl
      push_cast at hnear'
      exact rounded_eq_of_near_below (by omega) h.le_most hq hbinade hnear'

theorem rounded_value {m : ℕ} {e : ℤ} (h : IsLegal m e) :
    rounded (m * (2 : ℚ) ^ e) = magnitude m e := by
  have hunit := two_zpow_pos e
  rcases Nat.eq_zero_or_pos m with rfl | hm
  · have hzero : e = leastExponent := h.normal.resolve_left (by decide)
    simp [rounded, magnitude, hzero]
  · have hq : (0 : ℚ) < m * (2 : ℚ) ^ e := mul_pos (by exact_mod_cast hm) hunit
    refine rounded_eq_of_near h hq ?_ fun _ => ?_ <;> rw [sub_self, abs_zero] <;> positivity

theorem rounded_le (q : ℚ) : rounded q ≤ 2047 * 2 ^ 52 := by
  unfold rounded
  split
  · exact Nat.zero_le _
  · exact min_le_right _ _

theorem rounded_of_tiny {q : ℚ} (hq : 0 < q) (h : q < (2 : ℚ) ^ (-1075 : ℤ)) : rounded q = 0 := by
  have hlog : Int.log 2 q < -1075 := by
    rw [← not_le, two_zpow_le_iff hq] at h
    omega
  have hhalf : (2 : ℚ) ^ (-1075 : ℤ) = 1 / 2 * (2 : ℚ) ^ leastExponent := by
    rw [show (-1075 : ℤ) = leastExponent - 1 from rfl, zpow_sub_one₀ (by norm_num)]
    ring
  refine rounded_eq_magnitude (n := 0) hq (e := leastExponent) ?_ ?_ (by decide)
  · simp only [leastExponent]
    omega
  · rw [abs_div_sub_lt_iff, Nat.cast_zero, zero_mul, sub_zero, abs_of_pos hq, ← hhalf]
    exact h

theorem rounded_of_huge {q : ℚ} (h : (2 : ℚ) ^ (1024 : ℤ) ≤ q) : rounded q = 2047 * 2 ^ 52 := by
  have hq : 0 < q := lt_of_lt_of_le (two_zpow_pos _) h
  have hlog : 1024 ≤ Int.log 2 q := (two_zpow_le_iff hq _).mp h
  have hexponent : max (Int.log 2 q - 52) leastExponent = Int.log 2 q - 52 := by
    simp only [leastExponent]
    omega
  have hmantissa : 2 ^ 52 ≤ roundEven (q / (2 : ℚ) ^ (Int.log 2 q - 52)) := by
    apply le_roundEven
    have hle := (two_zpow_le_iff hq _).mpr le_rfl
    rw [le_div_iff₀ (two_zpow_pos _)]
    calc ((2 ^ 52 : ℕ) : ℚ) * (2 : ℚ) ^ (Int.log 2 q - 52)
        = (2 : ℚ) ^ ((52 : ℕ) + (Int.log 2 q - 52)) := by
          rw [two_zpow_add, Nat.cast_pow, Nat.cast_ofNat]
      _ = (2 : ℚ) ^ Int.log 2 q := by
          congr 1
          omega
      _ ≤ q := hle
  rw [rounded, if_neg hq.ne', hexponent]
  apply min_eq_right
  simp only [leastExponent]
  omega

theorem length_toDigits {n : ℕ} (hn : n ≠ 0) : (Nat.toDigits 10 n).length = Nat.log 10 n + 1 := by
  have hle (k : ℕ) : (Nat.toDigits 10 n).length ≤ k + 1 ↔ Nat.log 10 n ≤ k := by
    rw [Nat.length_toDigits_le_iff (by decide) (Nat.succ_pos k), ← Nat.lt_succ_iff,
      Nat.log_lt_iff_lt_pow (by decide) hn]
  have hpos : 0 < (Nat.toDigits 10 n).length := Nat.length_toDigits_pos
  have hupper := (hle (Nat.log 10 n)).mpr le_rfl
  have hlower := (hle ((Nat.toDigits 10 n).length - 1)).mp (by omega)
  omega

theorem ten_zpow_pos (e : ℤ) : (0 : ℚ) < (10 : ℚ) ^ e := zpow_pos (by norm_num) e

theorem ten_zpow_le_decimal {digits : ℕ} (h : digits ≠ 0) (exponent : ℤ) :
    (10 : ℚ) ^ ((Nat.log 10 digits : ℤ) + exponent) ≤ digits * (10 : ℚ) ^ exponent := by
  rw [zpow_add₀ (by norm_num), zpow_natCast]
  refine mul_le_mul_of_nonneg_right ?_ (ten_zpow_pos _).le
  exact_mod_cast Nat.pow_log_le_self 10 h

theorem decimal_lt_ten_zpow (digits : ℕ) (exponent : ℤ) :
    digits * (10 : ℚ) ^ exponent < (10 : ℚ) ^ ((Nat.log 10 digits : ℤ) + 1 + exponent) := by
  rw [zpow_add₀ (by norm_num)]
  refine mul_lt_mul_of_pos_right ?_ (ten_zpow_pos _)
  exact_mod_cast Nat.lt_pow_succ_log_self (b := 10) (by decide) digits

theorem two_pow_le_ten_pow : (2 : ℚ) ^ 1075 ≤ 10 ^ 400 := by
  rw [show 1075 = 43 * 25 from rfl, show 400 = 16 * 25 from rfl, pow_mul, pow_mul]
  exact pow_le_pow_left₀ (by norm_num) (by norm_num) 25

theorem ten_zpow_lt_tiny {e : ℤ} (h : e < -400) : (10 : ℚ) ^ e < (2 : ℚ) ^ (-1075 : ℤ) :=
  calc (10 : ℚ) ^ e < (10 : ℚ) ^ (-(400 : ℕ) : ℤ) := zpow_lt_zpow_right₀ (by norm_num) h
    _ ≤ (2 : ℚ) ^ (-(1075 : ℕ) : ℤ) := by
      rw [zpow_neg, zpow_neg, zpow_natCast, zpow_natCast]
      exact inv_anti₀ (by positivity) two_pow_le_ten_pow

theorem huge_le_ten_zpow {e : ℤ} (h : 400 ≤ e) : (2 : ℚ) ^ (1024 : ℤ) ≤ (10 : ℚ) ^ e :=
  calc (2 : ℚ) ^ (1024 : ℤ) ≤ (2 : ℚ) ^ ((1075 : ℕ) : ℤ) :=
        zpow_le_zpow_right₀ (by norm_num) (by decide)
    _ ≤ (10 : ℚ) ^ ((400 : ℕ) : ℤ) := by
      rw [zpow_natCast, zpow_natCast]
      exact two_pow_le_ten_pow
    _ ≤ (10 : ℚ) ^ e := zpow_le_zpow_right₀ (by norm_num) h

/-- The float that a decimal stands for is the one that its value rounds to. The bounds on what is
computed do not show. -/
theorem ofDecimal_eq (negative : Bool) (digits : ℕ) (exponent : ℤ) :
    ofDecimal negative digits exponent =
      ofMagnitude negative (rounded (digits * (10 : ℚ) ^ exponent)) := by
  rcases eq_or_ne digits 0 with rfl | hdigits
  · simp [ofDecimal, nearest_eq]
  have hpos : (0 : ℚ) < digits * (10 : ℚ) ^ exponent :=
    mul_pos (by exact_mod_cast Nat.pos_of_ne_zero hdigits) (ten_zpow_pos _)
  simp only [ofDecimal, length_toDigits hdigits, hdigits, false_or, Nat.cast_add, Nat.cast_one]
  split_ifs with htiny hhuge hnatural
  · have hlt := (decimal_lt_ten_zpow digits exponent).trans (ten_zpow_lt_tiny htiny)
    rw [rounded_of_tiny hpos hlt, nearest_eq _ _ (by decide)]
    simp [rounded]
  · have hle := (huge_le_ten_zpow (by omega)).trans (ten_zpow_le_decimal hdigits exponent)
    have hpower (k : ℕ) : (2 : ℚ) ^ (k : ℤ) ≤ ((1 <<< k : ℕ) : ℚ) / (1 : ℕ) := by
      simp [Nat.shiftLeft_eq]
    rw [rounded_of_huge hle, nearest_eq _ _ (by decide), rounded_of_huge (hpower 1024)]
  · obtain ⟨k, rfl⟩ := Int.eq_ofNat_of_zero_le hnatural
    rw [nearest_eq _ _ (by decide)]
    simp
  · obtain ⟨k, rfl⟩ : ∃ k : ℕ, exponent = -k := ⟨(-exponent).toNat, by omega⟩
    have hden : Nat.pow 10 k ≠ 0 := (Nat.pow_pos (n := k) (by decide : 0 < 10)).ne'
    rw [neg_neg, Int.toNat_natCast, nearest_eq _ _ hden]
    simp [div_eq_mul_inv]

theorem ofDecimal_mul_pow (negative : Bool) (digits k : ℕ) (exponent : ℤ) :
    ofDecimal negative (digits * 10 ^ k) exponent = ofDecimal negative digits (exponent + k) := by
  rw [ofDecimal_eq, ofDecimal_eq, zpow_add₀ (by norm_num), zpow_natCast]
  congr 2
  push_cast
  ring

end Quasiquote.Binary64
