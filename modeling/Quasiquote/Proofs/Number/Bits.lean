import Mathlib
import Quasiquote.Proofs.Number.Rounding

namespace Quasiquote.Binary64

open Float.Model Float.Model.UnpackedFloat

theorem isNaNBits_eq_false {bits : UInt64}
    (h : (bits.toNat >>> 52) % 2048 = 2047 → bits.toNat % 2 ^ 52 = 0) :
    @isNaNBits Format.binary64 bits.toBitVec = false := by
  rw [isNaNBits, decide_eq_false_iff_not]
  rintro ⟨hexponent, hmantissa⟩
  apply hmantissa
  rw [unpackExponent_def] at hexponent
  rw [unpackMantissa_def]
  have hbiased : (bits.toNat >>> 52) % 2048 = 2047 := by
    simpa [BitVec.extractLsb'_toNat] using congrArg BitVec.toNat hexponent
  apply BitVec.eq_of_toNat_eq
  simpa [BitVec.extractLsb'_toNat] using h hbiased

theorem toBits_ofBits {bits : UInt64}
    (h : (bits.toNat >>> 52) % 2048 = 2047 → bits.toNat % 2 ^ 52 = 0) :
    (Float.ofBits bits).toBits = bits := by
  have hpack := @pack_unpack Format.binary64 bits.toBitVec
  rw [isNaNBits_eq_false h] at hpack
  show UInt64.ofBitVec _ = bits
  simp [hpack]

theorem toBits_ofMagnitude (negative : Bool) {n : ℕ} (h : n ≤ 2047 * 2 ^ 52) :
    (ofMagnitude negative n).toBits.toNat = if negative then 2 ^ 63 + n else n := by
  have hbits : (if negative then 2 ^ 63 + n else n) < UInt64.size := by
    simp only [UInt64.size]
    split <;> omega
  have htoNat := UInt64.toNat_ofNat_of_lt' hbits
  rw [ofMagnitude, toBits_ofBits, htoNat]
  rw [htoNat, Nat.shiftRight_eq_div_pow]
  split <;> omega

theorem eq_of_toBits_ofMagnitude_eq {negative : Bool} {m n : ℕ} (hm : m ≤ 2047 * 2 ^ 52)
    (hn : n ≤ 2047 * 2 ^ 52)
    (h : (ofMagnitude negative m).toBits = (ofMagnitude negative n).toBits) : m = n := by
  have hbits := congrArg UInt64.toNat h
  rw [toBits_ofMagnitude negative hm, toBits_ofMagnitude negative hn] at hbits
  split at hbits <;> omega

theorem eq_ofMagnitude (x : Float) {negative : Bool} {n : ℕ}
    (h : x.toBits.toNat = if negative then 2 ^ 63 + n else n) : x = ofMagnitude negative n := by
  rw [ofMagnitude, ← h, UInt64.ofNat_toNat, Float.ofBits_toBits]

theorem finite_parts {x : Float} {negative : Bool} {m : ℕ} {e : ℤ}
    (h : parts x = .finite negative m e) : IsLegal m e ∧ x = ofMagnitude negative (magnitude m e) := by
  have hsize := x.toBits.toNat_lt
  simp only [parts, Nat.shiftRight_eq_div_pow, Nat.shiftLeft_eq, Nat.one_mul] at h
  split_ifs at h with hfull hfraction hzero
  · cases h
    refine ⟨⟨by omega, le_rfl, by decide, Or.inr rfl⟩, eq_ofMagnitude x ?_⟩
    simp only [magnitude, leastExponent, decide_eq_true_eq]
    split <;> omega
  · cases h
    refine ⟨⟨by omega, ?_, ?_, Or.inl (by omega)⟩, eq_ofMagnitude x ?_⟩ <;>
      simp only [magnitude, leastExponent, decide_eq_true_eq]
    · omega
    · omega
    · split <;> omega

theorem parts_ofMagnitude_ne_nan (negative : Bool) {n : ℕ} (h : n ≤ 2047 * 2 ^ 52) :
    parts (ofMagnitude negative n) ≠ .nan := by
  have hbits := toBits_ofMagnitude negative h
  simp only [parts, hbits, Nat.shiftRight_eq_div_pow, Nat.shiftLeft_eq, Nat.one_mul]
  cases negative <;> simp only [Bool.false_eq_true, ↓reduceIte] <;> split_ifs <;>
    simp only [reduceCtorEq, not_false_eq_true, ne_eq] <;> omega

end Quasiquote.Binary64
