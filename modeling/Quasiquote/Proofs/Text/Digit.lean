import Mathlib.Algebra.Order.Ring.Nat
import Quasiquote.Text.Digit

namespace Quasiquote.Text

theorem length_toDigits_le_iff {n k : Nat} (hk : 0 < k) :
    (Nat.toDigits 10 n).length ≤ k ↔ n < Nat.pow 10 k :=
  Nat.length_toDigits_le_iff (by decide) hk

theorem toNat_of_isDigit {c : Char} (h : c.isDigit = true) : 48 ≤ c.toNat ∧ c.toNat ≤ 57 := by
  simp only [Char.isDigit, Bool.and_eq_true, decide_eq_true_eq, UInt32.le_iff_toNat_le] at h
  exact h

theorem digit?_of_isDigit {c : Char} (h : c.isDigit = true) : digit? c = some (c.toNat - 48) := by
  obtain ⟨hlow, hhigh⟩ := toNat_of_isDigit h
  have hfound : zeros.find? (fun start => start ≤ c.toNat && c.toNat < start + 10) = some 48 := by
    rw [zeros, List.find?_cons_of_pos]
    simp only [Bool.and_eq_true, decide_eq_true_eq]
    omega
  rw [digit?, hfound]
  rfl

theorem isDecimal_of_isDigit {c : Char} (h : c.isDigit = true) : isDecimal c = true := by
  rw [isDecimal, digit?_of_isDigit h, Option.isSome_some]

theorem filterMap_digit? {cs : List Char} (h : ∀ c ∈ cs, c.isDigit = true) :
    cs.filterMap digit? = cs.map (·.toNat - 48) := by
  induction cs with
  | nil => rfl
  | cons c cs ih =>
      have hc := digit?_of_isDigit (h c (by simp))
      rw [List.filterMap_cons_some hc, ih fun d hd => h d (by simp [hd]), List.map_cons]

theorem decimalValue_eq_ofDigitChars {cs : List Char} (h : ∀ c ∈ cs, c.isDigit = true) :
    decimalValue cs = Nat.ofDigitChars 10 cs 0 := by
  rw [decimalValue, filterMap_digit? h, List.foldl_map, Nat.ofDigitChars_eq_foldl]
  rfl

theorem isDigit_of_mem_toDigits {n : Nat} {c : Char} (h : c ∈ Nat.toDigits 10 n) :
    c.isDigit = true :=
  Nat.isDigit_of_mem_toDigits (by decide) (by decide) h

theorem decimalValue_toDigits (n : Nat) : decimalValue (Nat.toDigits 10 n) = n := by
  rw [decimalValue_eq_ofDigitChars fun c => isDigit_of_mem_toDigits, Nat.ofDigitChars_ten_toDigits]

theorem isDigit_of_mem_zeros {n : Nat} {c : Char} (h : c ∈ List.replicate n '0') :
    c.isDigit = true := by
  rw [List.eq_of_mem_replicate h]
  rfl

theorem decimalValue_zeros_append {cs : List Char} (n : Nat) (h : ∀ c ∈ cs, c.isDigit = true) :
    decimalValue (List.replicate n '0' ++ cs) = decimalValue cs := by
  rw [decimalValue_eq_ofDigitChars h, decimalValue_eq_ofDigitChars, Nat.ofDigitChars_append,
    Nat.ofDigitChars_replicate_zero, Nat.mul_zero]
  intro c hc
  exact (List.mem_append.mp hc).elim isDigit_of_mem_zeros (h c)

theorem decimalValue_append_zeros {cs : List Char} (n : Nat) (h : ∀ c ∈ cs, c.isDigit = true) :
    decimalValue (cs ++ List.replicate n '0') = decimalValue cs * 10 ^ n := by
  rw [decimalValue_eq_ofDigitChars h, decimalValue_eq_ofDigitChars, Nat.ofDigitChars_append,
    Nat.ofDigitChars_replicate_zero, Nat.mul_comm]
  intro c hc
  exact (List.mem_append.mp hc).elim (h c) isDigit_of_mem_zeros

theorem toDigits_of_isDigit {c : Char} (h : c.isDigit = true) :
    Nat.toDigits 10 (c.toNat - 48) = [c] := by
  have hrange := toNat_of_isDigit h
  have hlt : c.toNat - 48 < 10 := by omega
  rw [Nat.toDigits_of_lt_base hlt, List.singleton_inj, ← Char.toNat_inj,
    Nat.toNat_digitChar_of_lt_ten hlt]
  omega

theorem toDigits_append {n : Nat} (hn : 0 < n) {cs : List Char} (h : ∀ c ∈ cs, c.isDigit = true) :
    Nat.toDigits 10 n ++ cs = Nat.toDigits 10 (Nat.ofDigitChars 10 cs n) := by
  induction cs generalizing n with
  | nil => rw [Nat.ofDigitChars_nil, List.append_nil]
  | cons c cs ih =>
      have hc := h c (by simp)
      have hrange := toNat_of_isDigit hc
      have hlast : Nat.toDigits 10 n ++ [c] = Nat.toDigits 10 (10 * n + (c.toNat - 48)) := by
        rw [← toDigits_of_isDigit hc]
        exact Nat.toDigits_append_toDigits (by decide) hn (by omega)
      rw [Nat.ofDigitChars_cons, List.append_cons, hlast]
      exact ih (by omega) fun d hd => h d (by simp [hd])

/-- Digits that do not begin with zero are the digits of the number that they write. -/
theorem toDigits_decimalValue {cs : List Char} (hne : cs ≠ []) (h : ∀ c ∈ cs, c.isDigit = true)
    (hhead : cs.head? ≠ some '0') : Nat.toDigits 10 (decimalValue cs) = cs := by
  cases cs with
  | nil => exact absurd rfl hne
  | cons c cs =>
      have hc := h c (by simp)
      have hpos : 0 < c.toNat - 48 := by
        have hzero : c.toNat ≠ '0'.toNat := fun hzero => hhead (congrArg some (Char.toNat_inj.mp hzero))
        have hrange := toNat_of_isDigit hc
        change c.toNat ≠ 48 at hzero
        omega
      rw [decimalValue_eq_ofDigitChars h, Nat.ofDigitChars_cons, Nat.mul_zero, Nat.zero_add]
      change Nat.toDigits 10 (Nat.ofDigitChars 10 cs (c.toNat - 48)) = c :: cs
      rw [← toDigits_append hpos fun d hd => h d (by simp [hd]), toDigits_of_isDigit hc]
      rfl

theorem head?_toDigits {n : Nat} (hn : 0 < n) : (Nat.toDigits 10 n).head? ≠ some '0' := by
  induction n using Nat.strongRecOn with
  | ind n ih =>
      by_cases hlt : n < 10
      · rw [Nat.toDigits_of_lt_base hlt]
        intro hzero
        have hchar : n.digitChar.toNat = '0'.toNat := congrArg Char.toNat (Option.some.inj hzero)
        rw [Nat.toNat_digitChar_of_lt_ten hlt] at hchar
        change 48 + n = 48 at hchar
        omega
      · rw [Nat.toDigits_of_base_le (by decide) (by omega), List.head?_append,
          Option.or_of_isSome (List.isSome_head?.mpr Nat.toDigits_ne_nil)]
        exact ih _ (by omega) (by omega)

theorem foldl_lt_of_digits {ds : List Nat} (h : ∀ d ∈ ds, d < 10) (n : Nat) :
    ds.foldl (fun n d => 10 * n + d) n < (n + 1) * 10 ^ ds.length := by
  induction ds generalizing n with
  | nil => simp
  | cons d ds ih =>
      have hd : 10 * n + d + 1 ≤ (n + 1) * 10 := by
        have := h d (by simp)
        omega
      calc ds.foldl (fun n d => 10 * n + d) (10 * n + d)
          < (10 * n + d + 1) * 10 ^ ds.length := ih (fun d hd => h d (by simp [hd])) _
        _ ≤ (n + 1) * 10 * 10 ^ ds.length := Nat.mul_le_mul_right _ hd
        _ = (n + 1) * 10 ^ (d :: ds).length := by
          rw [List.length_cons, Nat.pow_succ', Nat.mul_assoc]

theorem decimalValue_lt (cs : List Char) : decimalValue cs < 10 ^ cs.length := by
  have hdigits : ∀ d ∈ cs.filterMap digit?, d < 10 := by
    intro d hd
    obtain ⟨c, -, hc⟩ := List.mem_filterMap.mp hd
    exact digit?_lt hc
  calc decimalValue cs < (0 + 1) * 10 ^ (cs.filterMap digit?).length := foldl_lt_of_digits hdigits 0
    _ ≤ 10 ^ cs.length := by
      rw [Nat.zero_add, Nat.one_mul]
      exact Nat.pow_le_pow_right (by decide) (List.length_filterMap_le _ _)

end Quasiquote.Text
