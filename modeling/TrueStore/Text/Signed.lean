import TrueStore.Text.Numeral

/-! # Signed numbers of a fixed width

Numerals are read back within the bounds of their type, and arithmetic wraps around beyond them.
-/

namespace TrueStore

theorem scanSigned_decimalInt {bits : ℕ} {z : ℤ}
    (h : -2 ^ (bits - 1) ≤ z ∧ z < 2 ^ (bits - 1)) : scanSigned bits (decimalInt z) = some z := by
  obtain ⟨sign, magnitude, hscan, hvalue⟩ := scanInteger_decimalInt z
  simp only [scanSigned, hscan, hvalue]
  rw [if_pos h]

theorem scanSigned_bounds {bits : ℕ} {text : Bytes} {z : ℤ} (h : scanSigned bits text = some z) :
    -2 ^ (bits - 1) ≤ z ∧ z < 2 ^ (bits - 1) := by
  unfold scanSigned at h
  split at h
  · cases h
  · dsimp only at h
    split at h
    · rename_i hbounds
      cases h
      exact hbounds
    · cases h

theorem fromCharsI64_decimalInt {z : ℤ} (h : -2 ^ 63 ≤ z ∧ z < 2 ^ 63) :
    fromCharsI64 (decimalInt z) = some z := by
  cases z with
  | ofNat n => exact fromCharsI64_decimal (by have := h.2; simp at this; omega)
  | negSucc n =>
    have hvalue : applySign true (n + 1) = Int.negSucc n := by simp [applySign, Int.negSucc_eq]
    simp only [decimalInt, fromCharsI64, digitsValue_decimal, hvalue]
    rw [if_pos ⟨decimal_ne_nil _, decimal_all_isDigit _, h⟩]

theorem decimalInt_injective : Function.Injective decimalInt := fun y z h => by
  obtain ⟨sign, magnitude, hscan, hvalue⟩ := scanInteger_decimalInt y
  obtain ⟨sign', magnitude', hscan', hvalue'⟩ := scanInteger_decimalInt z
  rw [h, hscan'] at hscan
  cases hscan
  rw [← hvalue, hvalue']

theorem not_mem_decimalInt {z : ℤ} {b : UInt8} (h : isDigit b = false) (hb : b ≠ 45) :
    b ∉ decimalInt z := by
  cases z with
  | ofNat n => exact not_mem_decimal h
  | negSucc n => simpa [decimalInt, hb] using not_mem_decimal h

theorem wrap32_lt (z : ℤ) : wrap32 z < 2 ^ 31 := Int.bmod_lt (by decide)

theorem wrap32_eq {z : ℤ} (h : -2 ^ 31 ≤ z) (h' : z < 2 ^ 31) : wrap32 z = z :=
  Int.bmod_eq_of_le (by omega) (by omega)

/-- Wrapping around adds a multiple of `2 ^ 64` that leads into the signed range. -/
theorem wrap64_spec (z : ℤ) :
    ∃ k : ℤ, wrap64 z = z + 2 ^ 64 * k ∧ -2 ^ 63 ≤ wrap64 z ∧ wrap64 z < 2 ^ 63 := by
  have hle : -2 ^ 63 ≤ wrap64 z := Int.le_bmod (by decide)
  have hlt : wrap64 z < 2 ^ 63 := Int.bmod_lt (by decide)
  refine ⟨-z.bdiv (2 ^ 64), ?_, hle, hlt⟩
  have h := Int.bmod_eq_self_sub_mul_bdiv z (2 ^ 64)
  unfold wrap64
  rw [h]
  push_cast
  ring

end TrueStore
