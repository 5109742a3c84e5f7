import Quasiquote.Number.Shortest
import Quasiquote.Proofs.Number.Bits
import Quasiquote.Proofs.Text.Digit

namespace Quasiquote.Binary64

theorem quotient_value (m : ℕ) (e : ℤ) :
    (quotient m e).2 ≠ 0 ∧ ((quotient m e).1 : ℚ) / (quotient m e).2 = m * (2 : ℚ) ^ e := by
  by_cases he : 0 ≤ e
  · obtain ⟨k, rfl⟩ := Int.eq_ofNat_of_zero_le he
    simp [quotient, Nat.shiftLeft_eq]
  · obtain ⟨k, rfl⟩ : ∃ k : ℕ, e = -k := ⟨(-e).toNat, by omega⟩
    rw [quotient, if_neg he, neg_neg]
    simp [Nat.shiftLeft_eq, div_eq_mul_inv]

theorem decimalPoint_eq {num den : ℕ} (hnum : num ≠ 0) (hden : den ≠ 0) :
    decimalPoint num den = Int.log 10 (num / den : ℚ) + 1 := by
  have hpoint (p : ℤ) :
      (if 0 ≤ p then den * Nat.pow 10 p.toNat ≤ num else den ≤ num * Nat.pow 10 (-p).toNat) ↔
        (10 : ℚ) ^ p ≤ num / den :=
    reaches_iff (b := 10) (by decide) num hden p
  have hlengths : ((Nat.log 10 num + 1 : ℕ) : ℤ) - (Nat.log 10 den + 1 : ℕ) =
      (Nat.log 10 num : ℤ) - Nat.log 10 den := by omega
  rw [log_div (by decide) hnum hden]
  simp only [decimalPoint, length_toDigits hnum, length_toDigits hden, hlengths, hpoint,
    Nat.cast_ofNat]
  split <;> omega

theorem toBits_of_gridPoint? {x : Float} {num den d : ℕ} {scale : ℤ}
    (h : gridPoint? x num den scale = some d) :
    (ofDecimal false d scale).toBits = x.toBits := by
  simp only [gridPoint?] at h
  generalize (if 0 ≤ scale then num else num * Nat.pow 10 (-scale).toNat) = scaledNum at h
  generalize (if 0 ≤ scale then den * Nat.pow 10 scale.toNat else den) = scaledDen at h
  split at h
  case h_1 hbelow habove =>
    rw [Option.some.injEq] at h
    split at h <;> subst h
    · exact beq_iff_eq.mp hbelow
    · exact beq_iff_eq.mp habove
  case h_2 hbelow habove =>
    cases h
    exact beq_iff_eq.mp hbelow
  case h_3 hbelow habove =>
    cases h
    exact beq_iff_eq.mp habove
  case h_4 => cases h

/-- A grid is missed only if neither of the two points around the number reads back. -/
theorem toBits_ne_of_gridPoint?_eq_none {x : Float} {num den : ℕ} {scale : ℤ}
    (h : gridPoint? x num den scale = none) {d : ℕ}
    (hd : d = ⌊(num / den : ℚ) / (10 : ℚ) ^ scale⌋₊ ∨
      d = ⌊(num / den : ℚ) / (10 : ℚ) ^ scale⌋₊ + 1) :
    (ofDecimal false d scale).toBits ≠ x.toBits := by
  have hbelow : (if 0 ≤ scale then num else num * Nat.pow 10 (-scale).toNat) /
      (if 0 ≤ scale then den * Nat.pow 10 scale.toNat else den) =
        ⌊(num / den : ℚ) / (10 : ℚ) ^ scale⌋₊ := by
    have hscaled := scaled_div (b := 10) (by decide) num den scale
    rw [Nat.cast_ofNat] at hscaled
    rw [← hscaled, Nat.floor_div_eq_div]
    rfl
  simp only [gridPoint?, hbelow] at h
  split at h
  case h_4 hlow hhigh =>
    rcases hd with rfl | rfl
    · exact beq_eq_false_iff_ne.mp hlow
    · exact beq_eq_false_iff_ne.mp hhigh
  all_goals cases h

/-- Seventeen digits suffice: one of the two points around a float on the grid of seventeen digits
is so near that it rounds to the float. -/
theorem exists_rounded_eq {m : ℕ} {e scale : ℤ} (h : IsLegal m e) (hm : m ≠ 0)
    (hscale : (10 : ℚ) ^ (scale + 16) ≤ m * (2 : ℚ) ^ e) :
    ∃ d, (d = ⌊m * (2 : ℚ) ^ e / (10 : ℚ) ^ scale⌋₊ ∨
      d = ⌊m * (2 : ℚ) ^ e / (10 : ℚ) ^ scale⌋₊ + 1) ∧
      rounded (d * (10 : ℚ) ^ scale) = magnitude m e := by
  set v : ℚ := m * (2 : ℚ) ^ e with hv
  have hgrid := ten_zpow_pos scale
  have hunit := two_zpow_pos e
  have hvpos : 0 < v := mul_pos (by exact_mod_cast Nat.pos_of_ne_zero hm) hunit
  have hfine : (10 : ℚ) ^ scale * 10 ^ 16 ≤ v := by
    rw [zpow_add₀ (by norm_num)] at hscale
    exact_mod_cast hscale
  have hmantissa : (m : ℚ) < 2 ^ 53 := by exact_mod_cast h.mantissa_lt
  have hnear (d : ℕ) (hd : 0 < d) (hdist : |d * (10 : ℚ) ^ scale - v| ≤ (10 : ℚ) ^ scale / 2) :
      rounded (d * (10 : ℚ) ^ scale) = magnitude m e := by
    refine rounded_eq_of_near h (mul_pos (by exact_mod_cast hd) hgrid) ?_ ?_
    · refine hdist.trans_lt ?_
      nlinarith
    · rintro rfl
      refine hdist.trans_lt ?_
      push_cast at hv
      nlinarith
  have hlow := Nat.floor_le (div_nonneg hvpos.le hgrid.le)
  have hhigh := Nat.lt_floor_add_one (v / (10 : ℚ) ^ scale)
  rw [le_div_iff₀ hgrid] at hlow
  rw [div_lt_iff₀ hgrid] at hhigh
  have hpositive : 0 < ⌊v / (10 : ℚ) ^ scale⌋₊ := by
    apply Nat.floor_pos.mpr
    rw [le_div_iff₀ hgrid]
    nlinarith
  generalize ⌊v / (10 : ℚ) ^ scale⌋₊ = below at *
  rcases le_total (v - below * (10 : ℚ) ^ scale) ((10 : ℚ) ^ scale / 2) with hle | hle
  · refine ⟨below, Or.inl rfl, hnear below hpositive ?_⟩
    rw [abs_le]
    constructor <;> linarith
  · refine ⟨below + 1, Or.inr rfl, hnear (below + 1) (Nat.succ_pos _) ?_⟩
    push_cast
    rw [abs_le]
    constructor <;> linarith

/-- The digits of a number without the zeros at their end. -/
def significantDigits (d : ℕ) : List Char :=
  ((Nat.toDigits 10 d).reverse.dropWhile (· == '0')).reverse

theorem exists_toDigits_eq (d : ℕ) :
    ∃ k, Nat.toDigits 10 d = significantDigits d ++ List.replicate k '0' := by
  have hsplit := List.takeWhile_append_dropWhile (p := (· == '0')) (l := (Nat.toDigits 10 d).reverse)
  have hzeros : ∀ c ∈ (Nat.toDigits 10 d).reverse.takeWhile (· == '0'), c = '0' := by
    intro c hc
    have hzero := List.mem_takeWhile_imp hc
    exact beq_iff_eq.mp hzero
  refine ⟨((Nat.toDigits 10 d).reverse.takeWhile (· == '0')).length, ?_⟩
  rw [← List.reverse_inj, List.reverse_append, significantDigits, List.reverse_reverse,
    List.reverse_replicate, ← List.eq_replicate_of_mem hzeros, hsplit]

theorem isDigit_of_mem_significantDigits {d : ℕ} {c : Char} (h : c ∈ significantDigits d) :
    c.isDigit = true := by
  obtain ⟨k, hk⟩ := exists_toDigits_eq d
  apply Text.isDigit_of_mem_toDigits (n := d)
  rw [hk]
  exact List.mem_append_left _ h

theorem significantDigits_ne_nil {d : ℕ} (h : d ≠ 0) : significantDigits d ≠ [] := by
  intro hnil
  obtain ⟨k, hk⟩ := exists_toDigits_eq d
  rw [hnil, List.nil_append] at hk
  have hvalue := Text.decimalValue_toDigits d
  have hzeros := @Text.decimalValue_zeros_append [] k (by simp)
  rw [List.append_nil] at hzeros
  rw [hk, hzeros] at hvalue
  exact h hvalue.symm

theorem ofDecimal_significantDigits (negative : Bool) (d : ℕ) (scale : ℤ) :
    ofDecimal negative (Text.decimalValue (significantDigits d))
        (scale + (Nat.toDigits 10 d).length - (significantDigits d).length) =
      ofDecimal negative d scale := by
  obtain ⟨k, hk⟩ := exists_toDigits_eq d
  have hlength : (Nat.toDigits 10 d).length = (significantDigits d).length + k := by
    rw [hk, List.length_append, List.length_replicate]
  have hvalue : d = Text.decimalValue (significantDigits d) * 10 ^ k := by
    rw [← Text.decimalValue_append_zeros k fun c => isDigit_of_mem_significantDigits, ← hk,
      Text.decimalValue_toDigits]
  have hexponent : scale + (Nat.toDigits 10 d).length - (significantDigits d).length = scale + k := by
    omega
  rw [hexponent, ← ofDecimal_mul_pow, ← hvalue]

/-- The decimal that the search tries with `k + 1` digits, if one reads back. -/
def candidate? (x : Float) (num den : ℕ) (k : ℕ) : Option (ℕ × ℤ) :=
  let scale := decimalPoint num den - (k + 1)
  (gridPoint? x num den scale).map fun d => (d, scale)

theorem shortestFrom_eq {x : Float} {num den d : ℕ} {scale : ℤ}
    (h : (List.range 17).findSome? (candidate? x num den) = some (d, scale)) :
    shortestFrom x num den = ⟨significantDigits d, scale + (Nat.toDigits 10 d).length⟩ := by
  have hunfold : shortestFrom x num den =
      (fun found : ℕ × ℤ => ⟨significantDigits found.1,
        found.2 + (Nat.toDigits 10 found.1).length⟩ : ℕ × ℤ → Decimal)
        (((List.range 17).findSome? (candidate? x num den)).getD (0, 0)) := rfl
  rw [hunfold, h]
  rfl

theorem candidate?_sixteen_ne_none {num den m : ℕ} {e : ℤ} (hden : den ≠ 0) (h : IsLegal m e)
    (hm : m ≠ 0) (hvalue : (num / den : ℚ) = m * (2 : ℚ) ^ e) :
    candidate? (ofMagnitude false (magnitude m e)) num den 16 ≠ none := by
  have hpos : (0 : ℚ) < m * (2 : ℚ) ^ e :=
    mul_pos (by exact_mod_cast Nat.pos_of_ne_zero hm) (two_zpow_pos e)
  have hnum : num ≠ 0 := by
    rintro rfl
    rw [← hvalue, Nat.cast_zero, zero_div] at hpos
    exact hpos.false
  have hscale : (10 : ℚ) ^ (decimalPoint num den - ((16 : ℕ) + 1) + 16) ≤ m * (2 : ℚ) ^ e := by
    rw [decimalPoint_eq hnum hden, ← hvalue]
    rw [← hvalue] at hpos
    have hlog := Int.zpow_log_le_self (b := 10) (by decide) hpos
    rw [Nat.cast_ofNat] at hlog
    have hexponent : Int.log 10 (num / den : ℚ) + 1 - ((16 : ℕ) + 1) + 16 =
        Int.log 10 (num / den : ℚ) := by omega
    rwa [hexponent]
  intro hnone
  obtain ⟨d, hd, hrounded⟩ := exists_rounded_eq h hm hscale
  rw [← hvalue] at hd
  apply toBits_ne_of_gridPoint?_eq_none (Option.map_eq_none_iff.mp hnone) hd
  rw [ofDecimal_eq, hrounded]

/-- The search for the shortest decimal of a float finds one, and it rounds to the float. -/
theorem exists_shortestFrom {m : ℕ} {e : ℤ} (h : IsLegal m e) (hm : m ≠ 0) :
    ∃ (d : ℕ) (scale : ℤ), d ≠ 0 ∧ rounded (d * (10 : ℚ) ^ scale) = magnitude m e ∧
      shortestFrom (nearest false (quotient m e).1 (quotient m e).2) (quotient m e).1
          (quotient m e).2 =
        ⟨significantDigits d, scale + (Nat.toDigits 10 d).length⟩ := by
  obtain ⟨hden, hvalue⟩ := quotient_value m e
  generalize (quotient m e).1 = num at *
  generalize (quotient m e).2 = den at *
  rw [nearest_eq false num hden, hvalue, rounded_value h]
  have hsearch := candidate?_sixteen_ne_none hden h hm hvalue
  generalize hx : ofMagnitude false (magnitude m e) = x at *
  cases hfound : (List.range 17).findSome? (candidate? x num den) with
  | none =>
      rw [List.findSome?_eq_none_iff] at hfound
      exact absurd (hfound 16 (by decide)) hsearch
  | some found =>
      obtain ⟨k, -, hk⟩ := List.exists_of_findSome?_eq_some hfound
      obtain ⟨d, hd, rfl⟩ := Option.map_eq_some_iff.mp hk
      have hbits := toBits_of_gridPoint? hd
      rw [ofDecimal_eq, ← hx] at hbits
      have hrounded := eq_of_toBits_ofMagnitude_eq (rounded_le _) h.magnitude_lt.le hbits
      refine ⟨d, _, ?_, hrounded, shortestFrom_eq hfound⟩
      rintro rfl
      have hzero : magnitude m e = 0 := by
        rw [← hrounded]
        simp [rounded]
      exact hm (Nat.eq_zero_of_add_eq_zero_left hzero)

end Quasiquote.Binary64
