import Mathlib.Data.List.TakeWhile
import Mathlib.Tactic

/-! # Byte strings and decimal numerals

Strings of the program are sequences of arbitrary bytes. The conversions below
follow the C and C++ library: `strtoll` skips blanks, takes one sign and reads the
longest run of digits, whereas `from_chars` must consume the whole text. A decimal
numeral is read back by both.
-/

namespace TrueStore

/-- The contents of a `std::string`. -/
abbrev Bytes := List UInt8

instance : LawfulBEq Bytes := inferInstance

/-- The bytes of an ASCII literal. -/
def ascii (s : String) : Bytes := s.toUTF8.data.toList

def crlf : Bytes := [13, 10]

/-- `std::isspace` in the C locale. -/
def isSpace (b : UInt8) : Bool := b == 32 || (9 ≤ b && b ≤ 13)

def isDigit (b : UInt8) : Bool := 48 ≤ b && b ≤ 57

/-- `std::toupper` in the C locale. -/
def upperByte (b : UInt8) : UInt8 := if 97 ≤ b ∧ b ≤ 122 then b - 32 else b

/-- `std::tolower` in the C locale. -/
def lowerByte (b : UInt8) : UInt8 := if 65 ≤ b ∧ b ≤ 90 then b + 32 else b

def toUpper (s : Bytes) : Bytes := s.map upperByte

def toLower (s : Bytes) : Bytes := s.map lowerByte

def digitsValue (s : Bytes) : ℕ := s.foldl (fun v b => 10 * v + (b.toNat - 48)) 0

/-- `std::to_string` of an unsigned integer. -/
def decimal (n : ℕ) : Bytes := (Nat.toDigits 10 n).map Char.toUInt8

/-- `std::to_string` of a signed integer. -/
def decimalInt : ℤ → Bytes
  | .ofNat n => decimal n
  | .negSucc n => 45 :: decimal (n + 1)

/-- The optional sign that the `strto` family accepts before the digits. -/
def splitSign : Bytes → Bool × Bytes
  | 45 :: rest => (true, rest)
  | 43 :: rest => (false, rest)
  | rest => (false, rest)

/-- The sign and magnitude read by the `strto` family in base ten, or nothing when there are
no digits. Text after the digits is ignored. -/
def scanInteger (text : Bytes) : Option (Bool × ℕ) :=
  let signed := splitSign (text.dropWhile isSpace)
  let digits := signed.2.takeWhile isDigit
  if digits = [] then none else some (signed.1, digitsValue digits)

def applySign (sign : Bool) (magnitude : ℕ) : ℤ := if sign then -(magnitude : ℤ) else magnitude

/-- A signed conversion that throws `out_of_range` outside `bits`-wide integers. -/
def scanSigned (bits : ℕ) (text : Bytes) : Option ℤ :=
  match scanInteger text with
  | none => none
  | some (sign, magnitude) =>
    let value := applySign sign magnitude
    if -2 ^ (bits - 1) ≤ value ∧ value < 2 ^ (bits - 1) then some value else none

/-- `std::stoi`, where `none` is an exception. -/
def stoi (text : Bytes) : Option ℤ := scanSigned 32 text

/-- `std::stoll`, where `none` is an exception. -/
def stoll (text : Bytes) : Option ℤ := scanSigned 64 text

/-- `std::stoull`: a negative numeral wraps around modulo `2 ^ 64`. -/
def stoull (text : Bytes) : Option ℕ :=
  match scanInteger text with
  | none => none
  | some (sign, magnitude) =>
    if magnitude < 2 ^ 64 then some (if sign then (2 ^ 64 - magnitude) % 2 ^ 64 else magnitude)
    else none

/-- `std::from_chars` into `uint64_t` that must consume the whole text. -/
def fromCharsU64 (text : Bytes) : Option UInt64 :=
  if text ≠ [] ∧ text.all isDigit ∧ digitsValue text < 2 ^ 64 then
    some (UInt64.ofNat (digitsValue text))
  else none

/-- `std::from_chars` into `long long` that must consume the whole text. Only a minus sign is
accepted. -/
def fromCharsI64 (text : Bytes) : Option ℤ :=
  let signed : Bool × Bytes := match text with
    | 45 :: rest => (true, rest)
    | rest => (false, rest)
  let value := applySign signed.1 (digitsValue signed.2)
  if signed.2 ≠ [] ∧ signed.2.all isDigit ∧ -2 ^ 63 ≤ value ∧ value < 2 ^ 63 then some value
  else none

/-- Signed 64-bit arithmetic of the platform, modulo `2 ^ 64`. -/
def wrap64 (z : ℤ) : ℤ := z.bmod (2 ^ 64)

/-- Signed 32-bit arithmetic of the platform, modulo `2 ^ 32`. -/
def wrap32 (z : ℤ) : ℤ := z.bmod (2 ^ 32)

theorem isSpace_eq_false_of_isDigit {b : UInt8} (h : isDigit b = true) : isSpace b = false := by
  simp only [isDigit, isSpace, Bool.and_eq_true, decide_eq_true_eq, UInt8.le_iff_toNat_le,
    Bool.or_eq_false_iff, Bool.and_eq_false_iff, decide_eq_false_iff_not, beq_eq_false_iff_ne] at h ⊢
  have h₁ : (48 : UInt8).toNat = 48 := rfl
  have h₂ : (13 : UInt8).toNat = 13 := rfl
  refine ⟨?_, Or.inr (by omega)⟩
  rintro rfl
  exact absurd h.1 (by decide)

theorem digit_char_byte {c : Char} (h : c.isDigit = true) :
    isDigit c.toUInt8 = true ∧ c.toUInt8.toNat = c.toNat := by
  have hc : 48 ≤ c.toNat ∧ c.toNat ≤ 57 := by
    simpa [Char.isDigit, UInt32.le_iff_toNat_le] using h
  have ht : c.toUInt8.toNat = c.toNat := by
    change c.val.toNat % 256 = c.toNat
    exact Nat.mod_eq_of_lt (lt_of_le_of_lt hc.2 (by decide))
  refine ⟨?_, ht⟩
  simp only [isDigit, Bool.and_eq_true, decide_eq_true_eq, UInt8.le_iff_toNat_le, ht]
  exact hc

theorem isDigit_of_mem_decimal {n : ℕ} {b : UInt8} (h : b ∈ decimal n) : isDigit b = true := by
  obtain ⟨c, hc, rfl⟩ := List.mem_map.mp h
  exact (digit_char_byte (Nat.isDigit_of_mem_toDigits (by decide) (by decide) hc)).1

theorem decimal_ne_nil (n : ℕ) : decimal n ≠ [] := by
  simp [decimal]

theorem decimal_all_isDigit (n : ℕ) : (decimal n).all isDigit = true :=
  List.all_eq_true.mpr fun _ h => isDigit_of_mem_decimal h

theorem digitsValue_decimal (n : ℕ) : digitsValue (decimal n) = n := by
  have hfold : ∀ (l : List Char) (v : ℕ), (∀ c ∈ l, c.isDigit = true) →
      (l.map Char.toUInt8).foldl (fun v b => 10 * v + (b.toNat - 48)) v =
        Nat.ofDigitChars 10 l v := by
    intro l
    induction l with
    | nil => intro v _; simp
    | cons c l ih =>
      intro v h
      rw [Nat.ofDigitChars_cons, List.map_cons, List.foldl_cons,
        (digit_char_byte (h c List.mem_cons_self)).2]
      exact ih _ fun d hd => h d (List.mem_cons_of_mem _ hd)
  unfold digitsValue decimal
  rw [hfold _ _ fun c hc => Nat.isDigit_of_mem_toDigits (by decide) (by decide) hc]
  exact Nat.ofDigitChars_toDigits (by decide) (by decide)

theorem decimal_injective : Function.Injective decimal := fun m n h => by
  rw [← digitsValue_decimal m, h, digitsValue_decimal]

theorem decimal_cons (n : ℕ) : ∃ d ds, decimal n = d :: ds ∧ isDigit d = true := by
  obtain ⟨d, ds, h⟩ := List.exists_cons_of_ne_nil (decimal_ne_nil n)
  exact ⟨d, ds, h, isDigit_of_mem_decimal (h ▸ List.mem_cons_self)⟩

theorem splitSign_digit {d : UInt8} (h : isDigit d = true) (ds : Bytes) :
    splitSign (d :: ds) = (false, d :: ds) := by
  unfold splitSign
  split
  · rename_i he; cases he; exact absurd h (by decide)
  · rename_i he; cases he; exact absurd h (by decide)
  · rfl

theorem scanInteger_decimal_append (n : ℕ) {rest : Bytes}
    (hr : rest = [] ∨ ∃ b r, rest = b :: r ∧ isDigit b = false) :
    scanInteger (decimal n ++ rest) = some (false, n) := by
  obtain ⟨d, ds, hd, hdig⟩ := decimal_cons n
  have hdrop : (decimal n ++ rest).dropWhile isSpace = decimal n ++ rest := by
    rw [hd, List.cons_append, List.dropWhile_cons, isSpace_eq_false_of_isDigit hdig]
    rfl
  have hsign : splitSign (decimal n ++ rest) = (false, decimal n ++ rest) := by
    rw [hd, List.cons_append]
    exact splitSign_digit hdig _
  have htake : (decimal n ++ rest).takeWhile isDigit = decimal n := by
    rw [List.takeWhile_append_of_pos fun b hb => isDigit_of_mem_decimal hb]
    rcases hr with rfl | ⟨b, r, rfl, hb⟩
    · simp
    · simp [hb]
  simp only [scanInteger, hdrop, hsign, htake, if_neg (decimal_ne_nil n), digitsValue_decimal]

theorem scanInteger_decimal (n : ℕ) : scanInteger (decimal n) = some (false, n) := by
  simpa using scanInteger_decimal_append n (Or.inl rfl)

theorem stoull_decimal {n : ℕ} (h : n < 2 ^ 64) : stoull (decimal n) = some n := by
  simp only [stoull, scanInteger_decimal, if_pos h, Bool.false_eq_true, if_false]

/-- What `std::stoll` makes of an unsigned numeral followed by other text. -/
theorem stoll_decimal_append {n : ℕ} (h : n < 2 ^ 63) {rest : Bytes}
    (hr : rest = [] ∨ ∃ b r, rest = b :: r ∧ isDigit b = false) :
    stoll (decimal n ++ rest) = some (n : ℤ) := by
  have hn : (n : ℤ) < 2 ^ 63 := by exact_mod_cast h
  simp only [stoll, scanSigned, scanInteger_decimal_append n hr, applySign, Bool.false_eq_true,
    if_false]
  rw [if_pos ⟨by omega, by simpa using hn⟩]

theorem scanInteger_decimalInt (z : ℤ) :
    ∃ sign magnitude, scanInteger (decimalInt z) = some (sign, magnitude) ∧
      applySign sign magnitude = z := by
  cases z with
  | ofNat n => exact ⟨false, n, scanInteger_decimal n, rfl⟩
  | negSucc n =>
    obtain ⟨d, ds, hd, hdig⟩ := decimal_cons (n + 1)
    refine ⟨true, n + 1, ?_, by simp [applySign, Int.negSucc_eq]⟩
    have hdrop : (45 :: decimal (n + 1)).dropWhile isSpace = 45 :: decimal (n + 1) := by
      rw [List.dropWhile_cons]
      rfl
    have htake : (decimal (n + 1)).takeWhile isDigit = decimal (n + 1) :=
      List.takeWhile_eq_self_iff.mpr fun b hb => isDigit_of_mem_decimal hb
    simp only [scanInteger, decimalInt, hdrop, splitSign, htake, if_neg (decimal_ne_nil _),
      digitsValue_decimal]

theorem stoi_decimalInt_wrap32 (z : ℤ) : stoi (decimalInt (wrap32 z)) = some (wrap32 z) := by
  obtain ⟨sign, magnitude, hscan, hvalue⟩ := scanInteger_decimalInt (wrap32 z)
  have hlow : -2 ^ 31 ≤ wrap32 z := by
    have := Int.le_bmod (x := z) (m := 2 ^ 32) (by decide)
    unfold wrap32
    omega
  have hhigh : wrap32 z < 2 ^ 31 := by
    have := Int.bmod_lt (x := z) (m := 2 ^ 32) (by decide)
    unfold wrap32
    omega
  simp only [stoi, scanSigned, hscan, hvalue]
  rw [if_pos ⟨by simpa using hlow, by simpa using hhigh⟩]

theorem fromCharsI64_decimal {n : ℕ} (h : n < 2 ^ 63) : fromCharsI64 (decimal n) = some (n : ℤ) := by
  obtain ⟨d, ds, hd, hdig⟩ := decimal_cons n
  have hsign : (match decimal n with
      | 45 :: rest => (true, rest)
      | rest => (false, rest) : Bool × Bytes) = (false, decimal n) := by
    rw [hd]
    split
    · rename_i he
      cases he
      exact absurd hdig (by decide)
    · rfl
  have hn : (n : ℤ) < 2 ^ 63 := by exact_mod_cast h
  simp only [fromCharsI64, hsign, digitsValue_decimal, applySign, Bool.false_eq_true, if_false]
  rw [if_pos ⟨decimal_ne_nil n, decimal_all_isDigit n, by omega, hn⟩]

theorem fromCharsU64_decimal (n : UInt64) : fromCharsU64 (decimal n.toNat) = some n := by
  unfold fromCharsU64
  rw [if_pos ⟨decimal_ne_nil _, decimal_all_isDigit _, by rw [digitsValue_decimal]; exact n.toNat_lt⟩,
    digitsValue_decimal, UInt64.ofNat_toNat]

theorem not_mem_decimal {n : ℕ} {b : UInt8} (h : isDigit b = false) : b ∉ decimal n :=
  fun hb => by simp [isDigit_of_mem_decimal hb] at h

end TrueStore
