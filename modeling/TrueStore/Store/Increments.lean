import TrueStore.Store.Strings
import TrueStore.Text.Signed

/-! # `INCR` in 32-bit integers

`INCR` reads a number from the start of the stored text and adds one to it in an `int`. It counts
exactly as long as the text is that of a number below the largest `int`.
-/

namespace TrueStore

namespace Keyspace

open RespType

variable {F : Type} [Platform F]

/-- The texts of the numbers to which one can be added in an `int`. -/
def Countable (value : Bytes) : Prop :=
  ∃ n : ℤ, value = decimalInt n ∧ -2 ^ 31 ≤ n ∧ n < 2 ^ 31 - 1

/-- `INCR` of a key with this value adds one, or refuses and leaves the keyspace alone. -/
def CountsOrRefuses (ks : Keyspace F) (c key value : Bytes) : Prop :=
  (∀ n : ℤ, value = decimalInt n → -2 ^ 31 ≤ n → n < 2 ^ 31 - 1 →
    handleIncr [c, key] ks = ((integer (n + 1)).toBytes,
      { ks with storage := ks.storage.insert key (decimalInt (n + 1)) })) ∧
  (¬Countable value →
    isError (handleIncr [c, key] ks).1 = true ∧ (handleIncr [c, key] ks).2 = ks)

variable {ks : Keyspace F} {c key value : Bytes}

theorem handleIncr_of_stoi {n : ℤ} (hvalue : ks.storage[key]? = some value)
    (hn : stoi value = some n) :
    handleIncr [c, key] ks = ((integer (wrap32 (n + 1))).toBytes,
      { ks with storage := ks.storage.insert key (decimalInt (wrap32 (n + 1))) }) := by
  simp only [handleIncr, hvalue, hn]

theorem stoi_decimalInt {n : ℤ} (hlow : -2 ^ 31 ≤ n) (hhigh : n < 2 ^ 31) :
    stoi (decimalInt n) = some n :=
  scanSigned_decimalInt ⟨by simpa using hlow, by simpa using hhigh⟩

theorem handleIncr_decimalInt {n : ℤ} (hvalue : ks.storage[key]? = some (decimalInt n))
    (hlow : -2 ^ 31 ≤ n) (hhigh : n < 2 ^ 31 - 1) :
    handleIncr [c, key] ks = ((integer (n + 1)).toBytes,
      { ks with storage := ks.storage.insert key (decimalInt (n + 1)) }) := by
  rw [handleIncr_of_stoi hvalue (stoi_decimalInt hlow (by omega)),
    wrap32_eq (by omega) (by omega)]

/-- A single `INCR` is right exactly when a number that it reads from the value is all of the value
and not the largest `int`. -/
theorem countsOrRefuses_iff (hvalue : ks.storage[key]? = some value) :
    ks.CountsOrRefuses c key value ↔
      ∀ n, stoi value = some n → value = decimalInt n ∧ n ≠ 2 ^ 31 - 1 := by
  constructor
  · rintro ⟨-, hrefuses⟩ n hn
    by_contra hnot
    have hcount : ¬Countable value := by
      rintro ⟨m, rfl, hlow, hhigh⟩
      rw [stoi_decimalInt hlow (by omega), Option.some.injEq] at hn
      exact hnot ⟨by rw [hn], by omega⟩
    have herror := (hrefuses hcount).1
    rw [handleIncr_of_stoi hvalue hn] at herror
    simp at herror
  · intro h
    refine ⟨?_, fun hcount => ?_⟩
    · rintro n rfl hlow hhigh
      exact handleIncr_decimalInt hvalue hlow hhigh
    · cases hn : stoi value with
      | none => simp [handleIncr, hvalue, hn]
      | some n =>
        obtain ⟨he, hne⟩ := h n hn
        obtain ⟨hlow, hhigh⟩ := scanSigned_bounds hn
        exact absurd ⟨n, he, by omega, by omega⟩ hcount

/-- The keyspace after a number of `INCR` commands. -/
def afterIncr (c key : Bytes) (ks : Keyspace F) (k : ℕ) : Keyspace F :=
  (fun ks => (handleIncr [c, key] ks).2)^[k] ks

theorem afterIncr_succ (k : ℕ) :
    afterIncr c key ks (k + 1) = (handleIncr [c, key] (afterIncr c key ks k)).2 :=
  Function.iterate_succ_apply' ..

/-- From a number on, `INCR` counts modulo `2 ^ 32`. -/
theorem afterIncr_storage {n : ℤ} (hvalue : ks.storage[key]? = some (decimalInt n))
    (hlow : -2 ^ 31 ≤ n) (hhigh : n < 2 ^ 31) (k : ℕ) :
    (afterIncr c key ks k).storage[key]? = some (decimalInt (wrap32 (n + k))) := by
  induction k with
  | zero => simpa [afterIncr, wrap32_eq hlow hhigh] using hvalue
  | succ k ih =>
    rw [afterIncr_succ, handleIncr_of_stoi ih (stoi_decimalInt_wrap32 _)]
    have hadd : wrap32 (wrap32 (n + k) + 1) = wrap32 (n + (k + 1 : ℕ)) := by
      simp only [wrap32, Int.bmod_add_bmod]
      push_cast
      ring_nf
    simp [hadd]

theorem isError_handleIncr_afterIncr {n : ℤ} (hvalue : ks.storage[key]? = some (decimalInt n))
    (hlow : -2 ^ 31 ≤ n) (hhigh : n < 2 ^ 31) (k : ℕ) :
    isError (handleIncr [c, key] (afterIncr c key ks k)).1 = false := by
  rw [handleIncr_of_stoi (afterIncr_storage hvalue hlow hhigh k) (stoi_decimalInt_wrap32 _)]
  simp

/-- `INCR` adds one or refuses exactly when a number that it reads from the value is all of the
value and not the largest `int`. A run of `INCR` commands that all succeed adds their number
exactly when the sum is an `int`. -/
theorem incr_exact_iff (c : Bytes) (hvalue : ks.storage[key]? = some value) :
    (ks.CountsOrRefuses c key value ↔
      ∀ n, stoi value = some n → value = decimalInt n ∧ n ≠ 2 ^ 31 - 1) ∧
    ∀ (n : ℤ) (k : ℕ), value = decimalInt n → -2 ^ 31 ≤ n → n < 2 ^ 31 →
      (((∀ i < k, isError (handleIncr [c, key] (afterIncr c key ks i)).1 = false) →
        (afterIncr c key ks k).storage[key]? = some (decimalInt (n + k))) ↔ n + k < 2 ^ 31) := by
  refine ⟨countsOrRefuses_iff hvalue, ?_⟩
  rintro n k rfl hlow hhigh
  rw [afterIncr_storage hvalue hlow hhigh]
  constructor
  · intro h
    have he := h fun i _ => isError_handleIncr_afterIncr hvalue hlow hhigh i
    have heq := decimalInt_injective (Option.some.inj he)
    have := wrap32_lt (n + k)
    omega
  · intro hsum _
    rw [wrap32_eq (by omega) hsum]

/-- Three times one more than 41. -/
theorem incr_exact_iff_answer :
    let ks : Keyspace Whole := { storage := (∅ : Map Bytes).insert (ascii "k") (ascii "41") }
    (afterIncr (ascii "INCR") (ascii "k") ks 3).storage[ascii "k"]? = some (ascii "44") := by
  intro ks
  have hvalue : ks.storage[ascii "k"]? = some (ascii "41") := by simp [ks]
  have h := ((incr_exact_iff (ascii "INCR") hvalue).2 41 3 (by decide) (by decide)
    (by decide)).mpr (by decide)
  exact h fun i hi => by interval_cases i <;> decide

/-- A text that only starts with a number is replaced, and the largest `int` becomes the least. -/
theorem incr_corrupts :
    let ks (value : Bytes) : Keyspace Whole :=
      { storage := (∅ : Map Bytes).insert (ascii "k") value }
    ¬(ks (ascii "12abc")).CountsOrRefuses (ascii "INCR") (ascii "k") (ascii "12abc") ∧
      (handleIncr [ascii "INCR", ascii "k"] (ks (ascii "12abc"))).2.storage[ascii "k"]? =
        some (ascii "13") ∧
      ¬(ks (ascii "2147483647")).CountsOrRefuses (ascii "INCR") (ascii "k")
        (ascii "2147483647") ∧
      (handleIncr [ascii "INCR", ascii "k"] (ks (ascii "2147483647"))).2.storage[ascii "k"]? =
        some (ascii "-2147483648") := by
  intro ks
  have hget : ∀ value, (ks value).storage[ascii "k"]? = some value := by simp [ks]
  refine ⟨fun h => ?_, by decide, fun h => ?_, by decide⟩
  · have hwhole := ((countsOrRefuses_iff (hget _)).mp h 12 (by decide)).1
    exact absurd hwhole (by decide)
  · have hlargest := ((countsOrRefuses_iff (hget _)).mp h (2 ^ 31 - 1) (by decide)).2
    exact hlargest rfl

end Keyspace

end TrueStore
