import Mathlib.Data.Nat.Bitwise
import Mathlib.Tactic

/-! # Bits of a byte string

Bits are numbered from the most significant bit of the first byte. Past the end of the
string every bit is zero, so that a byte string is a finite piece of an infinite bit array.
-/

namespace TrueStore.Bits

def bit (s : List UInt8) (position : ℕ) : Bool :=
  (s.getD (position / 8) 0).toNat.testBit (7 - position % 8)

def mask (position : ℕ) : UInt8 := 0x80 >>> UInt8.ofNat (position % 8)

theorem bit_of_length_le {s : List UInt8} {p : ℕ} (h : s.length ≤ p / 8) : bit s p = false := by
  simp [bit, List.getElem?_eq_none h]

theorem bit_append_zeros (s : List UInt8) (n p : ℕ) : bit (s ++ List.replicate n 0) p = bit s p := by
  unfold bit
  congr 2
  rcases lt_or_ge (p / 8) s.length with h | h
  · simp [List.getElem?_append_left h]
  · rcases lt_or_ge (p / 8 - s.length) n with hn | hn
    · simp [List.getElem?_append_right h, h, hn]
    · simp [List.getElem?_append_right h, h, not_lt.mpr hn]

theorem toNat_mask (p : ℕ) : (mask p).toNat = 2 ^ (7 - p % 8) := by
  have h : ∀ r : Fin 8, (0x80 >>> UInt8.ofNat r : UInt8).toNat = 2 ^ (7 - (r : ℕ)) := by decide
  exact h ⟨p % 8, Nat.mod_lt _ (by decide)⟩

theorem testBit_not_mask (p : ℕ) {j : ℕ} (hj : j < 8) :
    (~~~mask p).toNat.testBit j = decide (j ≠ 7 - p % 8) := by
  have h : ∀ r j : Fin 8, (~~~(0x80 >>> UInt8.ofNat r : UInt8)).toNat.testBit j =
      decide ((j : ℕ) ≠ 7 - (r : ℕ)) := by decide
  exact h ⟨p % 8, Nat.mod_lt _ (by decide)⟩ ⟨j, hj⟩

theorem and_mask_ne_zero (b : UInt8) (p : ℕ) :
    decide (b &&& mask p ≠ 0) = b.toNat.testBit (7 - p % 8) := by
  have h : (b &&& mask p).toNat = (b.toNat.testBit (7 - p % 8)).toNat * 2 ^ (7 - p % 8) := by
    rw [UInt8.toNat_and, toNat_mask, Nat.and_two_pow]
  have hz : b &&& mask p = 0 ↔ (b &&& mask p).toNat = 0 := by
    rw [← UInt8.toNat_inj]
    rfl
  cases hb : b.toNat.testBit (7 - p % 8) <;> simp [hz, h, hb]

theorem shiftRight_and_one (b : UInt8) (p : ℕ) :
    (b >>> UInt8.ofNat (7 - p % 8) &&& 1).toNat = (b.toNat.testBit (7 - p % 8)).toNat := by
  have hs : (UInt8.ofNat (7 - p % 8)).toNat % 8 = 7 - p % 8 := by
    rw [UInt8.toNat_ofNat_of_lt' (by simp only [UInt8.size]; omega)]
    omega
  rw [UInt8.toNat_and, UInt8.toNat_shiftRight, hs, Nat.testBit_eq_decide_div_mod_eq,
    Nat.shiftRight_eq_div_pow]
  change _ &&& 1 = _
  rw [Nat.and_one_is_mod]
  rcases Nat.mod_two_eq_zero_or_one (b.toNat / 2 ^ (7 - p % 8)) with h | h <;> simp [h]

/-- The byte after a write of one of its bits. -/
def writeByte (b : UInt8) (p : ℕ) (v : Bool) : UInt8 :=
  if v then b ||| mask p else b &&& ~~~mask p

theorem testBit_writeByte (b : UInt8) (p : ℕ) (v : Bool) {j : ℕ} (hj : j < 8) :
    (writeByte b p v).toNat.testBit j = if j = 7 - p % 8 then v else b.toNat.testBit j := by
  cases v with
  | false =>
    simp only [writeByte, Bool.false_eq_true, if_false, UInt8.toNat_and, Nat.testBit_and,
      testBit_not_mask p hj]
    by_cases h : j = 7 - p % 8 <;> simp [h]
  | true =>
    simp only [writeByte, if_true, UInt8.toNat_or, Nat.testBit_or, toNat_mask,
      Nat.testBit_two_pow]
    by_cases h : j = 7 - p % 8
    · simp [h]
    · simp [h, Ne.symm h]

theorem bit_set_writeByte {s : List UInt8} {p : ℕ} (h : p / 8 < s.length) (v : Bool) (q : ℕ) :
    bit (s.set (p / 8) (writeByte (s.getD (p / 8) 0) p v)) q = if q = p then v else bit s q := by
  have hq : 7 - q % 8 < 8 := by omega
  by_cases hbyte : q / 8 = p / 8
  · have hget : (s.set (p / 8) (writeByte (s.getD (p / 8) 0) p v)).getD (q / 8) 0 =
        writeByte (s.getD (p / 8) 0) p v := by
      simp [hbyte, h]
    rw [bit, hget, testBit_writeByte _ _ _ hq, bit, hbyte]
    have hpos : 7 - q % 8 = 7 - p % 8 ↔ q = p := by omega
    simp only [hpos]
  · have hget : (s.set (p / 8) (writeByte (s.getD (p / 8) 0) p v)).getD (q / 8) 0 =
        s.getD (q / 8) 0 := by
      simp [Ne.symm hbyte]
    have hne : q ≠ p := fun he => hbyte (by rw [he])
    rw [bit, hget, if_neg hne, bit]

theorem countP_range_eight_mul (P : ℕ → Bool) (n : ℕ) :
    (List.range (8 * n)).countP P =
      ((List.range n).map fun i => (List.range 8).countP fun t => P (8 * i + t)).sum := by
  induction n with
  | zero => rfl
  | succ n ih =>
    rw [Nat.mul_succ, List.range_add, List.countP_append, ih, List.range_succ (n := n),
      List.map_append, List.sum_append, List.countP_map]
    simp only [List.map_singleton, List.sum_singleton, Function.comp_def]

/-- A sum over indexes may leave out those whose terms are zero. -/
theorem sum_range'_eq {f : ℕ → ℕ} {a m n : ℕ} (h : a + m ≤ n)
    (hf : ∀ i, i < a ∨ a + m ≤ i → f i = 0) :
    ((List.range' a m).map f).sum = ((List.range n).map f).sum := by
  obtain ⟨r, rfl⟩ := Nat.exists_eq_add_of_le h
  have hzero : ∀ l : List ℕ, (∀ i ∈ l, f i = 0) → (l.map f).sum = 0 := fun l hl =>
    List.sum_eq_zero fun x hx => by
      obtain ⟨i, hi, rfl⟩ := List.mem_map.mp hx
      exact hl i hi
  rw [List.range_eq_range', ← List.range'_append_1, ← List.range'_append_1, List.map_append,
    List.map_append, List.sum_append, List.sum_append, hzero (List.range' 0 a),
    hzero (List.range' (0 + (a + m)) r)]
  · simp
  · intro i hi
    exact hf i (Or.inr (by rw [List.mem_range'_1] at hi; omega))
  · intro i hi
    exact hf i (Or.inl (by rw [List.mem_range'_1] at hi; omega))

end TrueStore.Bits
