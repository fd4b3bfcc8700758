import Mathlib.Tactic

/-! # Big-endian byte strings

Byte strings of one length are ordered lexicographically as the numbers that they stand for in
big-endian notation.
-/

namespace TrueStore.BigEndian

/-- The number that a byte string stands for. -/
def value (l : List UInt8) : ℕ := l.foldl (fun v b => v * 256 + b.toNat) 0

theorem foldl_eq (l : List UInt8) (v : ℕ) :
    l.foldl (fun v b => v * 256 + b.toNat) v = v * 256 ^ l.length + value l := by
  induction l generalizing v with
  | nil => simp [value]
  | cons b l ih =>
    have hcons : value (b :: l) = (0 * 256 + b.toNat) * 256 ^ l.length + value l := ih _
    rw [List.foldl_cons, ih, hcons, List.length_cons, pow_succ]
    ring

theorem value_cons (b : UInt8) (l : List UInt8) :
    value (b :: l) = b.toNat * 256 ^ l.length + value l := by
  rw [value, List.foldl_cons, foldl_eq]
  ring

theorem value_append (l l' : List UInt8) :
    value (l ++ l') = value l * 256 ^ l'.length + value l' := by
  rw [value, List.foldl_append, foldl_eq]
  rfl

theorem value_lt (l : List UInt8) : value l < 256 ^ l.length := by
  induction l with
  | nil => simp [value]
  | cons b l ih =>
    have hb : b.toNat + 1 ≤ 256 := b.toNat_lt
    rw [value_cons, List.length_cons, pow_succ']
    calc b.toNat * 256 ^ l.length + value l < (b.toNat + 1) * 256 ^ l.length := by
          rw [add_mul, one_mul]
          exact Nat.add_lt_add_left ih _
      _ ≤ 256 * 256 ^ l.length := Nat.mul_le_mul_right _ hb

theorem compare_byte (a b : UInt8) : compare a b = compare a.toNat b.toNat := by
  change compareOfLessAndEq a b = _
  unfold compareOfLessAndEq
  rw [Nat.compare_eq_ite_lt]
  by_cases hlt : a < b
  · have := UInt8.lt_iff_toNat_lt.mp hlt
    simp [hlt, this]
  · have hle := UInt8.lt_iff_toNat_lt.not.mp hlt
    by_cases he : a = b
    · subst he
      simp
    · have hne : a.toNat ≠ b.toNat := fun h => he (UInt8.toNat_inj.mp h)
      have hgt : b.toNat < a.toNat := by omega
      simp [hlt, he, hle, hgt]

theorem value_lt_of_head {a b : UInt8} (h : a.toNat < b.toNat) {l l' : List UInt8}
    (hl : l.length = l'.length) : value (a :: l) < value (b :: l') := by
  rw [value_cons, value_cons, ← hl]
  calc a.toNat * 256 ^ l.length + value l < (a.toNat + 1) * 256 ^ l.length := by
        rw [add_mul, one_mul]
        exact Nat.add_lt_add_left (value_lt l) _
    _ ≤ b.toNat * 256 ^ l.length := Nat.mul_le_mul_right _ h
    _ ≤ b.toNat * 256 ^ l.length + value l' := Nat.le_add_right _ _

theorem compare_eq {l l' : List UInt8} (h : l.length = l'.length) :
    compare l l' = compare (value l) (value l') := by
  induction l generalizing l' with
  | nil =>
    obtain rfl := List.eq_nil_of_length_eq_zero h.symm
    rfl
  | cons a l ih =>
    obtain ⟨b, l', rfl⟩ := List.exists_cons_of_length_eq_add_one h.symm
    have hl : l.length = l'.length := by simpa using h
    rw [List.compare_cons_cons, compare_byte]
    rcases lt_trichotomy a.toNat b.toNat with hab | hab | hab
    · rw [Nat.compare_eq_lt.mpr hab, Nat.compare_eq_lt.mpr (value_lt_of_head hab hl)]
      rfl
    · rw [Nat.compare_eq_eq.mpr hab, ih hl, value_cons, value_cons, hab, hl]
      change compare (value l) (value l') = _
      rcases lt_trichotomy (value l) (value l') with hv | hv | hv
      · rw [Nat.compare_eq_lt.mpr hv, Nat.compare_eq_lt.mpr (Nat.add_lt_add_left hv _)]
      · rw [hv, Nat.compare_eq_eq.mpr rfl, Nat.compare_eq_eq.mpr rfl]
      · rw [Nat.compare_eq_gt.mpr hv, Nat.compare_eq_gt.mpr (Nat.add_lt_add_left hv _)]
    · rw [Nat.compare_eq_gt.mpr hab, Nat.compare_eq_gt.mpr (value_lt_of_head hab hl.symm)]
      rfl

theorem lt_iff {l l' : List UInt8} (h : l.length = l'.length) : l < l' ↔ value l < value l' := by
  induction l generalizing l' with
  | nil =>
    obtain rfl := List.eq_nil_of_length_eq_zero h.symm
    simp
  | cons a l ih =>
    obtain ⟨b, l', rfl⟩ := List.exists_cons_of_length_eq_add_one h.symm
    have hl : l.length = l'.length := by simpa using h
    rw [List.cons_lt_cons_iff, UInt8.lt_iff_toNat_lt]
    rcases lt_trichotomy a.toNat b.toNat with hab | hab | hab
    · exact iff_of_true (.inl hab) (value_lt_of_head hab hl)
    · obtain rfl := UInt8.toNat_inj.mp hab
      rw [value_cons, value_cons, ih hl, hl]
      simp
    · have hne : a ≠ b := fun he => hab.ne' (congrArg UInt8.toNat he)
      have hgt := value_lt_of_head hab hl.symm
      exact iff_of_false (by simp [hab.not_gt, hne]) hgt.not_gt

end TrueStore.BigEndian
