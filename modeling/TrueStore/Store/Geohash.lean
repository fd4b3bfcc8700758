import TrueStore.Store.Geospatial

/-! # Geohashes as doubles

A cell is a pair of numbers up to `2 ^ 26`, and its hash has their bits in turn. Hashes are stored
as doubles, which are exact up to `2 ^ 53`; the hashes of the easternmost cells are above.
-/

namespace TrueStore

namespace Geo

theorem testBit_foldl_or (l : List ℕ) (f : ℕ → UInt64) (hash : UInt64) (j : ℕ) :
    (l.foldl (fun hash bit => hash ||| f bit) hash).toNat.testBit j =
      (hash.toNat.testBit j || l.any fun bit => (f bit).toNat.testBit j) := by
  induction l generalizing hash with
  | nil => simp
  | cons bit l ih =>
    rw [List.foldl_cons, ih, UInt64.toNat_or, Nat.testBit_or, List.any_cons, Bool.or_assoc]

theorem testBit_moved (x : UInt64) {bit place : ℕ} (hbit : bit < 64) (hplace : place < 64)
    (j : ℕ) :
    (((x >>> UInt64.ofNat bit) &&& 1) <<< UInt64.ofNat place).toNat.testBit j =
      (x.toNat.testBit bit && decide (j = place)) := by
  have hb : (UInt64.ofNat bit).toNat % 64 = bit := by
    rw [UInt64.toNat_ofNat_of_lt' (by simp only [UInt64.size]; omega)]
    omega
  have hp : (UInt64.ofNat place).toNat % 64 = place := by
    rw [UInt64.toNat_ofNat_of_lt' (by simp only [UInt64.size]; omega)]
    omega
  rw [UInt64.toNat_shiftLeft, UInt64.toNat_and, UInt64.toNat_shiftRight, hb, hp,
    Nat.testBit_mod_two_pow, Nat.testBit_shiftLeft]
  change (decide (j < 64) && (decide (j ≥ place) && (x.toNat >>> bit &&& 1).testBit (j - place))) = _
  have hone : Nat.testBit 1 (j - place) = decide (j - place = 0) := by
    rw [Bool.eq_iff_iff, decide_eq_true_eq]
    exact Nat.testBit_one_eq_true_iff_self_eq_zero
  rw [Nat.testBit_and, Nat.testBit_shiftRight, hone]
  rcases lt_trichotomy j place with h | rfl | h
  · simp [h.ne, not_le.mpr h]
  · simp [hplace]
  · have hne : j - place ≠ 0 := by omega
    simp [h.ne', hne]

theorem testBit_interleave (x y : UInt64) (j : ℕ) :
    (interleave 27 x y).toNat.testBit j =
      (List.range 27).any fun bit => (x.toNat.testBit bit && decide (j = 2 * bit + 1)) ||
        (y.toNat.testBit bit && decide (j = 2 * bit)) := by
  unfold interleave
  simp only [UInt64.or_assoc]
  rw [testBit_foldl_or]
  simp only [UInt64.toNat_zero, Nat.zero_testBit, Bool.false_or, UInt64.toNat_or, Nat.testBit_or]
  rw [Bool.eq_iff_iff, List.any_eq_true, List.any_eq_true]
  refine exists_congr fun bit => and_congr_right fun hbit => ?_
  rw [List.mem_range] at hbit
  rw [testBit_moved x (by omega) (by omega), testBit_moved y (by omega) (by omega)]

theorem testBit_interleave_odd {x y : UInt64} {bit : ℕ} (h : bit < 27) :
    (interleave 27 x y).toNat.testBit (2 * bit + 1) = x.toNat.testBit bit := by
  rw [testBit_interleave, Bool.eq_iff_iff, List.any_eq_true]
  constructor
  · rintro ⟨b, -, hb⟩
    simp only [Bool.or_eq_true, Bool.and_eq_true, decide_eq_true_eq] at hb
    rcases hb with ⟨hx, he⟩ | ⟨-, he⟩
    · obtain rfl : bit = b := by omega
      exact hx
    · omega
  · intro hx
    exact ⟨bit, List.mem_range.mpr h, by simp [hx]⟩

theorem testBit_interleave_even {x y : UInt64} {bit : ℕ} (h : bit < 27) :
    (interleave 27 x y).toNat.testBit (2 * bit) = y.toNat.testBit bit := by
  rw [testBit_interleave, Bool.eq_iff_iff, List.any_eq_true]
  constructor
  · rintro ⟨b, -, hb⟩
    simp only [Bool.or_eq_true, Bool.and_eq_true, decide_eq_true_eq] at hb
    rcases hb with ⟨-, he⟩ | ⟨hy, he⟩
    · omega
    · obtain rfl : bit = b := by omega
      exact hy
  · intro hy
    exact ⟨bit, List.mem_range.mpr h, by simp [hy]⟩

theorem interleave_lt (x y : UInt64) : (interleave 27 x y).toNat < 2 ^ 54 := by
  refine Nat.lt_pow_two_of_testBit _ fun j hj => ?_
  rw [testBit_interleave, Bool.eq_false_iff]
  intro h
  obtain ⟨b, hb, hbit⟩ := List.any_eq_true.mp h
  rw [List.mem_range] at hb
  simp only [Bool.or_eq_true, Bool.and_eq_true, decide_eq_true_eq] at hbit
  omega

theorem testBit_deinterleave (hash : UInt64) {first : ℕ} (hfirst : first < 2) (j : ℕ) :
    (deinterleave hash first).toNat.testBit j =
      (decide (j < 32) && hash.toNat.testBit (2 * j + first)) := by
  unfold deinterleave
  rw [testBit_foldl_or]
  simp only [UInt64.toNat_zero, Nat.zero_testBit, Bool.false_or]
  rw [Bool.eq_iff_iff, List.any_eq_true, Bool.and_eq_true, decide_eq_true_eq]
  constructor
  · rintro ⟨b, hb, hbit⟩
    rw [List.mem_range] at hb
    rw [testBit_moved hash (by omega) (by omega), Bool.and_eq_true, decide_eq_true_eq] at hbit
    obtain ⟨hbit, rfl⟩ := hbit
    exact ⟨hb, hbit⟩
  · rintro ⟨hj, hbit⟩
    refine ⟨j, List.mem_range.mpr hj, ?_⟩
    rw [testBit_moved hash (by omega) (by omega), hbit]
    simp

theorem deinterleave_interleave {x y : UInt64} (hx : x.toNat < 2 ^ 27) (hy : y.toNat < 2 ^ 27) :
    deinterleave (interleave 27 x y) 1 = x ∧ deinterleave (interleave 27 x y) 0 = y := by
  have hhigh : ∀ {z : UInt64}, z.toNat < 2 ^ 27 → ∀ {j : ℕ}, 27 ≤ j → z.toNat.testBit j = false :=
    fun hz j hj => Nat.testBit_lt_two_pow (lt_of_lt_of_le hz (Nat.pow_le_pow_right (by decide) hj))
  have hpast : ∀ {j : ℕ}, 54 ≤ j → (interleave 27 x y).toNat.testBit j = false := fun hj =>
    Nat.testBit_lt_two_pow
      (lt_of_lt_of_le (interleave_lt x y) (Nat.pow_le_pow_right (by decide) hj))
  refine ⟨UInt64.toNat_inj.mp (Nat.eq_of_testBit_eq fun j => ?_),
    UInt64.toNat_inj.mp (Nat.eq_of_testBit_eq fun j => ?_)⟩
  · rw [testBit_deinterleave _ (by decide)]
    rcases lt_or_ge j 27 with hj | hj
    · rw [testBit_interleave_odd hj]
      simp [show j < 32 by omega]
    · rw [hpast (by omega), hhigh hx hj, Bool.and_false]
  · rw [testBit_deinterleave _ (by decide)]
    rcases lt_or_ge j 27 with hj | hj
    · rw [Nat.add_zero, testBit_interleave_even hj]
      simp [show j < 32 by omega]
    · rw [hpast (by omega), hhigh hy hj, Bool.and_false]

/-- The double nearest to an integer, as an integer: it has at most 53 significant bits, and a tie
goes to the even one. -/
def roundDouble (n : ℕ) : ℕ :=
  if n < 2 ^ 53 then n
  else
    let unit := 2 ^ (n.log2 - 52)
    if 2 * (n % unit) < unit ∨ (2 * (n % unit) = unit ∧ n / unit % 2 = 0) then n / unit * unit
    else (n / unit + 1) * unit

/-- The platform converts a number of the size of a hash to the nearest double, and a double that is
such a number back to it. -/
structure Rounds (F : Type) [Platform F] : Prop where
  round : ∀ n : UInt64, n.toNat < 2 ^ 54 →
    (Platform.ofU64 n : F) = Platform.ofU64 (UInt64.ofNat (roundDouble n.toNat))
  exact : ∀ n : UInt64, n.toNat < 2 ^ 54 → roundDouble n.toNat = n.toNat →
    Platform.toU64 (Platform.ofU64 n : F) = n

theorem roundDouble_even {n : ℕ} (h : n < 2 ^ 54) (heven : n < 2 ^ 53 ∨ n % 2 = 0) :
    roundDouble n = n := by
  unfold roundDouble
  split
  · rfl
  · rename_i hlarge
    have hlog : n.log2 = 53 := (Nat.log2_eq_iff (by omega)).mpr ⟨by omega, h⟩
    simp only [hlog, show 2 ^ (53 - 52) = 2 from rfl]
    rw [if_pos (by omega)]
    omega

/-- An odd number above `2 ^ 53` is a tie. -/
theorem roundDouble_odd {n : ℕ} (h : n < 2 ^ 54) (hlarge : 2 ^ 53 ≤ n) (hodd : n % 4 = 1) :
    roundDouble n = n - 1 := by
  unfold roundDouble
  rw [if_neg (by omega)]
  have hlog : n.log2 = 53 := (Nat.log2_eq_iff (by omega)).mpr ⟨hlarge, h⟩
  simp only [hlog, show 2 ^ (53 - 52) = 2 from rfl]
  rw [if_pos (by omega)]
  omega

/-- The cell that the score of a cell stands for. -/
def storedCell (x y : UInt64) : UInt64 × UInt64 :=
  (x, if x.toNat = 2 ^ 26 ∧ y.toNat % 2 = 1 then y - 1 else y)

variable {x y : UInt64}

theorem interleave_lt_of_lt (hx : x.toNat < 2 ^ 26) : (interleave 27 x y).toNat < 2 ^ 53 := by
  refine Nat.lt_pow_two_of_testBit _ fun j hj => ?_
  rcases lt_or_ge j 54 with h | h
  · obtain rfl : j = 2 * 26 + 1 := by omega
    rw [testBit_interleave_odd (by decide)]
    exact Nat.testBit_lt_two_pow hx
  · exact Nat.testBit_lt_two_pow
      (lt_of_lt_of_le (interleave_lt x y) (Nat.pow_le_pow_right (by decide) h))

theorem le_interleave (hx : x.toNat = 2 ^ 26) : 2 ^ 53 ≤ (interleave 27 x y).toNat := by
  refine Nat.ge_two_pow_of_testBit (i := 2 * 26 + 1) ?_
  rw [testBit_interleave_odd (by decide), hx, Nat.testBit_two_pow_self]

theorem interleave_mod_four (hx : x.toNat = 2 ^ 26) :
    (interleave 27 x y).toNat % 4 = y.toNat % 2 := by
  have hzero := testBit_interleave_even (x := x) (y := y) (show 0 < 27 by decide)
  have hone := testBit_interleave_odd (x := x) (y := y) (show 0 < 27 by decide)
  rw [hx, Nat.testBit_eq_decide_div_mod_eq, Nat.testBit_eq_decide_div_mod_eq,
    decide_eq_decide] at hone
  rw [Nat.testBit_eq_decide_div_mod_eq, Nat.testBit_eq_decide_div_mod_eq, decide_eq_decide] at hzero
  simp only [Nat.mul_zero, Nat.pow_zero, Nat.div_one, Nat.zero_add, Nat.pow_one] at hzero hone
  omega

/-- Without their lowest bits the cells of a pair have the same hash. -/
theorem interleave_div_four (x : UInt64) {y y' : UInt64} (h : y.toNat / 2 = y'.toNat / 2) :
    (interleave 27 x y).toNat / 4 = (interleave 27 x y').toNat / 4 := by
  have hbits : ∀ bit, y.toNat.testBit (bit + 1) = y'.toNat.testBit (bit + 1) := by
    intro bit
    rw [Nat.testBit_add_one, Nat.testBit_add_one, h]
  refine Nat.eq_of_testBit_eq fun j => ?_
  rw [show 4 = 2 ^ 2 from rfl, Nat.testBit_div_two_pow, Nat.testBit_div_two_pow]
  rcases lt_or_ge (j + 2) 54 with hj | hj
  · obtain ⟨bit, hbit | hbit⟩ := Nat.even_or_odd' (j + 2)
    · obtain ⟨bit, rfl⟩ : ∃ b, bit = b + 1 := ⟨bit - 1, by omega⟩
      rw [hbit, testBit_interleave_even (by omega), testBit_interleave_even (by omega), hbits]
    · rw [hbit, testBit_interleave_odd (by omega), testBit_interleave_odd (by omega)]
  · rw [Nat.testBit_lt_two_pow, Nat.testBit_lt_two_pow] <;>
      exact lt_of_lt_of_le (interleave_lt ..) (Nat.pow_le_pow_right (by decide) hj)

theorem toNat_sub_one (h : y.toNat % 2 = 1) : (y - 1).toNat = y.toNat - 1 := by
  rw [UInt64.toNat_sub_of_le _ _ (by rw [UInt64.le_iff_toNat_le]; change 1 ≤ _; omega)]
  rfl

theorem roundDouble_interleave (hx : x.toNat ≤ 2 ^ 26) :
    roundDouble (interleave 27 x y).toNat =
      (interleave 27 (storedCell x y).1 (storedCell x y).2).toNat := by
  have hbound := interleave_lt x y
  unfold storedCell
  split
  · rename_i h
    have hmod := interleave_mod_four (y := y) h.1
    have hmod' := interleave_mod_four (y := y - 1) h.1
    have hsub := toNat_sub_one h.2
    have hdiv := interleave_div_four x (show y.toNat / 2 = (y - 1).toNat / 2 by omega)
    rw [roundDouble_odd hbound (le_interleave h.1) (by omega)]
    dsimp only
    omega
  · rename_i h
    refine roundDouble_even hbound ?_
    rcases lt_or_ge x.toNat (2 ^ 26) with hlt | hge
    · exact .inl (interleave_lt_of_lt hlt)
    · have hmod := interleave_mod_four (y := y) (le_antisymm hx hge)
      exact .inr (by omega)

theorem storedCell_eq_iff : storedCell x y = (x, y) ↔ x.toNat ≠ 2 ^ 26 ∨ y.toNat % 2 = 0 := by
  unfold storedCell
  split
  · rename_i h
    have hsub := toNat_sub_one h.2
    simp only [Prod.mk.injEq, true_and]
    rw [← UInt64.toNat_inj, hsub]
    omega
  · rename_i h
    simp only [true_iff]
    omega

theorem storedCell_storedCell :
    storedCell (storedCell x y).1 (storedCell x y).2 = storedCell x y := by
  refine storedCell_eq_iff.mpr ?_
  unfold storedCell
  dsimp only
  split
  · rename_i h
    have hsub := toNat_sub_one h.2
    omega
  · rename_i h
    omega

theorem storedCell_snd_le (hy : y.toNat ≤ 2 ^ 26) : (storedCell x y).2.toNat ≤ 2 ^ 26 := by
  unfold storedCell
  dsimp only
  split
  · rename_i h
    have hsub := toNat_sub_one h.2
    omega
  · exact hy

/-- Two cells of the last column have one score. -/
theorem storedCell_add_one (hx : x.toNat = 2 ^ 26) (heven : y.toNat % 2 = 0)
    (hy : y.toNat < 2 ^ 26) : storedCell x (y + 1) = storedCell x y ∧ y + 1 ≠ y := by
  have hadd : (y + 1).toNat = y.toNat + 1 := by
    rw [UInt64.toNat_add]
    change (y.toNat + 1) % 2 ^ 64 = _
    omega
  have hsub : y + 1 - 1 = y := UInt64.add_sub_cancel y 1
  refine ⟨?_, fun h => ?_⟩
  · unfold storedCell
    rw [if_pos ⟨hx, by omega⟩, if_neg (by omega), hsub]
  · rw [h] at hadd
    omega

variable {F : Type} [Platform F]

/-- The score of a cell, as `GEOADD` stores it. -/
def cellScore (x y : UInt64) : F := Platform.ofU64 (interleave 27 x y)

/-- The cell of a score, as `decodeCoordinates` reads it. -/
def cellOf (score : F) : UInt64 × UInt64 :=
  (deinterleave (Platform.toU64 score) 1, deinterleave (Platform.toU64 score) 0)

variable (hF : Rounds F)
include hF

theorem cellScore_eq (hx : x.toNat ≤ 2 ^ 26) :
    (cellScore x y : F) = cellScore (storedCell x y).1 (storedCell x y).2 := by
  rw [cellScore, hF.round _ (interleave_lt x y), roundDouble_interleave hx, UInt64.ofNat_toNat,
    cellScore]

theorem cellOf_cellScore (hx : x.toNat ≤ 2 ^ 26) (hy : y.toNat ≤ 2 ^ 26) :
    cellOf (cellScore x y : F) = storedCell x y := by
  have hx' : (storedCell x y).1.toNat ≤ 2 ^ 26 := hx
  have hy' := storedCell_snd_le (x := x) hy
  have hexact := roundDouble_interleave (y := (storedCell x y).2) hx'
  rw [storedCell_storedCell] at hexact
  obtain ⟨hlon, hlat⟩ := deinterleave_interleave (x := (storedCell x y).1)
    (y := (storedCell x y).2) (by omega) (by omega)
  rw [cellScore_eq hF hx, cellOf, cellScore, hF.exact _ (interleave_lt ..) hexact, hlon, hlat]

theorem cellScore_eq_iff {x' y' : UInt64} (hx : x.toNat ≤ 2 ^ 26) (hy : y.toNat ≤ 2 ^ 26)
    (hx' : x'.toNat ≤ 2 ^ 26) (hy' : y'.toNat ≤ 2 ^ 26) :
    (cellScore x' y' : F) = cellScore x y ↔ storedCell x' y' = storedCell x y := by
  constructor
  · intro h
    rw [← cellOf_cellScore hF hx hy, ← cellOf_cellScore hF hx' hy', h]
  · intro h
    rw [cellScore_eq hF hx', cellScore_eq hF hx, h]

/-- A cell is read back from its score exactly when it is not an odd one in the last column. It
shares its score with no other cell exactly when it is not in the last column, or in the corner. -/
theorem cell_survives_iff (hx : x.toNat ≤ 2 ^ 26) (hy : y.toNat ≤ 2 ^ 26) :
    (cellOf (cellScore x y : F) = (x, y) ↔ x.toNat < 2 ^ 26 ∨ y.toNat % 2 = 0) ∧
    ((∀ x' y' : UInt64, x'.toNat ≤ 2 ^ 26 → y'.toNat ≤ 2 ^ 26 →
      (cellScore x' y' : F) = cellScore x y → x' = x ∧ y' = y) ↔
        x.toNat < 2 ^ 26 ∨ y.toNat = 2 ^ 26) := by
  refine ⟨?_, ?_⟩
  · rw [cellOf_cellScore hF hx hy, storedCell_eq_iff]
    omega
  · constructor
    · intro h
      by_contra hnot
      have hlast : x.toNat = 2 ^ 26 := by omega
      rcases Nat.mod_two_eq_zero_or_one y.toNat with heven | hodd
      · obtain ⟨hstored, hne⟩ := storedCell_add_one hlast heven (by omega)
        have hadd : (y + 1).toNat ≤ 2 ^ 26 := by
          rw [UInt64.toNat_add]
          change (y.toNat + 1) % 2 ^ 64 ≤ _
          omega
        exact hne (h x (y + 1) hx hadd ((cellScore_eq_iff hF hx hy hx hadd).mpr hstored)).2
      · have hsub := toNat_sub_one hodd
        obtain ⟨hstored, hne⟩ := storedCell_add_one (y := y - 1) hlast (by omega) (by omega)
        rw [UInt64.sub_add_cancel] at hstored hne
        have hle : (y - 1).toNat ≤ 2 ^ 26 := by omega
        exact hne (h x (y - 1) hx hle ((cellScore_eq_iff hF hx hy hx hle).mpr hstored.symm)).2.symm
    · intro h x' y' hx' hy' hscore
      rw [cellScore_eq_iff hF hx hy hx' hy'] at hscore
      obtain rfl : x' = x := congrArg Prod.fst hscore
      have hlat := congrArg Prod.snd hscore
      simp only [storedCell] at hlat
      refine ⟨rfl, ?_⟩
      rw [if_neg (show ¬(x'.toNat = 2 ^ 26 ∧ y.toNat % 2 = 1) by omega)] at hlat
      split at hlat
      · rename_i hodd
        have hsub := toNat_sub_one hodd.2
        rw [hlat] at hsub
        omega
      · exact hlat

omit hF

/-- Whole numbers, with the rounding of doubles where they are made of integers. -/
@[reducible] def roundingWhole : Platform Whole :=
  { (inferInstance : Platform Whole) with ofU64 := fun n => Int.ofNat (roundDouble n.toNat) }

theorem roundDouble_roundDouble {n : ℕ} (h : n < 2 ^ 54) :
    roundDouble n ≤ 2 ^ 54 ∧ roundDouble (roundDouble n) = roundDouble n := by
  by_cases hlarge : n < 2 ^ 53
  · have he : roundDouble n = n := roundDouble_even h (.inl hlarge)
    rw [he, he]
    exact ⟨by omega, rfl⟩
  · have hlog : n.log2 = 53 := (Nat.log2_eq_iff (by omega)).mpr ⟨by omega, h⟩
    have heven : roundDouble n % 2 = 0 ∧ roundDouble n ≤ 2 ^ 54 := by
      unfold roundDouble
      simp only [if_neg hlarge, hlog, show 2 ^ (53 - 52) = 2 from rfl]
      split <;> omega
    refine ⟨heven.2, ?_⟩
    rcases Nat.lt_or_eq_of_le heven.2 with hlt | heq
    · exact roundDouble_even hlt (.inr heven.1)
    · rw [heq]
      decide

theorem rounds_roundingWhole : @Rounds Whole roundingWhole := by
  refine @Rounds.mk Whole roundingWhole (fun n hn => ?_) (fun n _ hexact => ?_)
  · obtain ⟨hle, hround⟩ := roundDouble_roundDouble hn
    have hnat : (UInt64.ofNat (roundDouble n.toNat)).toNat = roundDouble n.toNat :=
      UInt64.toNat_ofNat_of_lt' (by simp only [UInt64.size]; omega)
    change Int.ofNat (roundDouble n.toNat) =
      Int.ofNat (roundDouble (UInt64.ofNat (roundDouble n.toNat)).toNat)
    rw [hnat, hround]
  · change UInt64.ofNat (Int.toNat (Int.ofNat (roundDouble n.toNat))) = n
    rw [hexact]
    exact UInt64.ofNat_toNat

/-- A cell in the middle of the map. -/
theorem cell_survives_iff_middle :
    @cellOf Whole roundingWhole (@cellScore Whole roundingWhole 33554432 5) = (33554432, 5) :=
  (@cell_survives_iff 33554432 5 Whole roundingWhole rounds_roundingWhole (by decide)
    (by decide)).1.mpr (by decide)

/-- Two cells at 180 degrees are one. -/
theorem last_column_collides :
    let score := @cellScore Whole roundingWhole
    @cellOf Whole roundingWhole (score 67108864 1) = (67108864, 0) ∧
      score 67108864 1 = score 67108864 0 := by
  intro score
  refine ⟨?_, ?_⟩
  · exact (@cellOf_cellScore 67108864 1 Whole roundingWhole rounds_roundingWhole (by decide)
      (by decide)).trans (by decide)
  · exact (@cellScore_eq_iff 67108864 0 Whole roundingWhole rounds_roundingWhole 67108864 1
      (by decide) (by decide) (by decide) (by decide)).mpr (by decide)

end Geo

end TrueStore
