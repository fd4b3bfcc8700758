import TrueStore.Store.Strings
import TrueStore.Store.Bitmaps
import TrueStore.Text.Bits
import TrueStore.Text.Signed

/-! # Bitmaps as bit arrays

A string is a bit array that is zero past its end. `SETBIT` writes one bit of it and
`GETBIT` reads one, whatever the formulas by which they find it in a byte. `BITCOUNT`
counts the ones in a range of positions; its arithmetic stays within 64 bits.
-/

namespace TrueStore

namespace Keyspace

open RespType Bits

variable {F : Type} [Platform F]

theorem parseOffset_decimal {offset : ℕ} (h : offset < 2 ^ 32) :
    parseOffset (decimal offset) = some offset := by
  have hn : (UInt64.ofNat offset).toNat = offset :=
    UInt64.toNat_ofNat_of_lt' (lt_trans h (by decide))
  have hread : fromCharsU64 (decimal offset) = some (UInt64.ofNat offset) := by
    simpa [hn] using fromCharsU64_decimal (UInt64.ofNat offset)
  simp only [parseOffset, hread, hn]
  rw [if_pos ⟨trivial, h⟩]

theorem length_resized (value : Bytes) (index : ℕ) :
    (resized value index).length = max value.length (index + 1) := by
  unfold resized
  split <;> simp <;> omega

theorem bit_resized (value : Bytes) (index position : ℕ) :
    bit (resized value index) position = bit value position := by
  unfold resized
  split
  · exact bit_append_zeros ..
  · rfl

theorem setBit_fst (value : Bytes) (offset : ℕ) (b : Bool) :
    (setBit value offset b).1 = bit value offset := by
  change decide ((resized value (offset / 8)).getD (offset / 8) 0 &&& mask offset ≠ 0) = _
  rw [and_mask_ne_zero]
  exact bit_resized value _ offset

theorem length_setBit (value : Bytes) (offset : ℕ) (b : Bool) :
    (setBit value offset b).2.length = max value.length (1 + offset / 8) := by
  simp [setBit, length_resized, Nat.add_comm]

theorem bit_setBit (value : Bytes) (offset : ℕ) (b : Bool) (position : ℕ) :
    bit (setBit value offset b).2 position =
      if position = offset then b else bit value position := by
  have hlt : offset / 8 < (resized value (offset / 8)).length := by
    rw [length_resized]
    omega
  rw [← bit_resized value (offset / 8) position]
  exact bit_set_writeByte hlt b position

theorem getBit_eq (value : Bytes) (offset : ℕ) : getBit value offset = (bit value offset).toNat := by
  unfold getBit
  split
  · rename_i h
    rw [bit_of_length_le h]
    rfl
  · exact shiftRight_and_one _ offset

inductive BitCommand where
  | setbit (offset : ℕ) (value : Bool)
  | getbit (offset : ℕ)
  deriving DecidableEq, Repr

namespace BitCommand

def offset : BitCommand → ℕ
  | setbit offset _ => offset
  | getbit offset => offset

def writes : BitCommand → Option ℕ
  | setbit offset _ => some offset
  | getbit _ => none

def args (key : Bytes) : BitCommand → List Bytes
  | setbit offset value =>
    [ascii "SETBIT", key, decimal offset, if value then ascii "1" else ascii "0"]
  | getbit offset => [ascii "GETBIT", key, decimal offset]

def handle (clock : Readings) (key : Bytes) (c : BitCommand) (ks : Keyspace F) :
    Bytes × Keyspace F :=
  match c with
  | setbit .. => handleSetbit clock (c.args key) ks
  | getbit _ => handleGetbit clock (c.args key) ks

def run (key : Bytes) : List (Readings × BitCommand) → Keyspace F → List Bytes × Keyspace F
  | [], ks => ([], ks)
  | (clock, c) :: rest, ks =>
    let r := c.handle clock key ks
    let s := run key rest r.2
    (r.1 :: s.1, s.2)

def lastWritten (position : ℕ) : List BitCommand → Option Bool
  | [] => none
  | setbit offset value :: rest =>
    (lastWritten position rest).or (if offset = position then some value else none)
  | getbit _ :: rest => lastWritten position rest

/-- The bit at a position of the array: the one last written, or the original one. -/
def bitAfter (original : Bytes) (commands : List BitCommand) (position : ℕ) : Bool :=
  (lastWritten position commands).getD (bit original position)

/-- The length of the string: long enough for the original and for every offset written. -/
def lengthAfter (original : ℕ) (commands : List BitCommand) : ℕ :=
  match (commands.filterMap writes).max? with
  | none => original
  | some largest => max original (1 + largest / 8)

theorem lastWritten_cons (position : ℕ) (c : BitCommand) (rest : List BitCommand) :
    lastWritten position (c :: rest) =
      (lastWritten position rest).or (lastWritten position [c]) := by
  cases c <;> simp [lastWritten]

theorem bitAfter_cons {original next : Bytes} {c : BitCommand} {position : ℕ}
    (h : bit next position = bitAfter original [c] position) (rest : List BitCommand) :
    bitAfter next rest position = bitAfter original (c :: rest) position := by
  rw [bitAfter, h, bitAfter, bitAfter, lastWritten_cons position c rest]
  cases lastWritten position rest <;> rfl

theorem lengthAfter_cons (original : ℕ) (c : BitCommand) (rest : List BitCommand) :
    lengthAfter (lengthAfter original [c]) rest = lengthAfter original (c :: rest) := by
  cases c with
  | getbit offset => rfl
  | setbit offset value =>
    unfold lengthAfter
    simp only [List.filterMap_cons, writes, List.filterMap_nil, List.max?_cons, List.max?_nil]
    cases (rest.filterMap writes).max? with
    | none => rfl
    | some largest =>
      change max (max original (1 + offset / 8)) (1 + largest / 8) =
        max original (1 + max offset largest / 8)
      rcases le_total offset largest with h | h
      · rw [max_eq_right h]
        omega
      · rw [max_eq_left h]
        omega

section run

variable (key : Bytes) (before rest : List (Readings × BitCommand)) (ks : Keyspace F)

theorem run_append : run key (before ++ rest) ks =
    ((run key before ks).1 ++ (run key rest (run key before ks).2).1,
      (run key rest (run key before ks).2).2) := by
  induction before generalizing ks with
  | nil => rfl
  | cons c before ih => simp only [List.cons_append, run, ih]

theorem length_run : (run key before ks).1.length = before.length := by
  induction before generalizing ks with
  | nil => rfl
  | cons c before ih => simp only [run, List.length_cons, ih]

end run

end BitCommand

open BitCommand

/-- The key holds a string that never expires, or nothing. -/
structure Bitmap (key value : Bytes) (ks : Keyspace F) : Prop where
  expirations : ks.expirations[key]? = none
  type : ks.typeOf key = .string ∨ ks.typeOf key = .none
  value : ks.storage.getD key [] = value

theorem Bitmap.wrongStringType {key value : Bytes} {ks : Keyspace F} (h : Bitmap key value ks)
    (clock : Clock) : ks.wrongStringType clock key = (false, ks) := by
  rcases h.type with ht | ht <;>
    simp [Keyspace.wrongStringType, keyType, isExpired, h.expirations, ht]

theorem Bitmap.insert {key value : Bytes} {ks : Keyspace F} (h : Bitmap key value ks)
    (next : Bytes) : Bitmap key next { ks with storage := ks.storage.insert key next } where
  expirations := h.expirations
  type := Or.inl (by simp [typeOf])
  value := by simp [Std.ExtTreeMap.getD_eq_getD_getElem?]

theorem Bitmap.handle {key value : Bytes} {ks : Keyspace F} (h : Bitmap key value ks)
    (clock : Readings) {c : BitCommand} (hc : c.offset < 2 ^ 32) :
    (c.handle clock key ks).1 = (integer (bit value c.offset).toNat).toBytes ∧
    ∃ next, Bitmap key next (c.handle clock key ks).2 ∧
      next.length = lengthAfter value.length [c] ∧
      ∀ position, bit next position = bitAfter value [c] position := by
  have hread : parseOffset (decimal c.offset) = some c.offset := parseOffset_decimal hc
  cases c with
  | setbit offset b =>
    simp only [BitCommand.offset] at hread
    have hbit : (decide ((if b then ascii "1" else ascii "0") = ascii "1")) = b := by
      cases b <;> decide
    have hok : ¬((if b then ascii "1" else ascii "0") ≠ ascii "0" ∧
        (if b then ascii "1" else ascii "0") ≠ ascii "1") := by
      cases b <;> simp
    have hrun : (setbit offset b).handle clock key ks =
        ((integer (setBit value offset b).1.toNat).toBytes,
          { ks with storage := ks.storage.insert key (setBit value offset b).2 }) := by
      simp only [BitCommand.handle, args, handleSetbit, hread, if_neg hok,
        h.wrongStringType, checked, Bool.false_eq_true, if_false, h.value, hbit]
    rw [hrun]
    refine ⟨by rw [setBit_fst]; rfl, _, h.insert _, by rw [length_setBit]; rfl, fun position => ?_⟩
    rw [bit_setBit]
    by_cases hp : position = offset
    · simp [bitAfter, lastWritten, hp]
    · simp [bitAfter, lastWritten, hp, Ne.symm hp]
  | getbit offset =>
    simp only [BitCommand.offset] at hread
    have hrun : (getbit offset).handle clock key ks =
        ((integer (getBit value offset)).toBytes, ks) := by
      simp only [BitCommand.handle, args, handleGetbit, hread,
        h.wrongStringType, checked, Bool.false_eq_true, if_false, h.value]
    rw [hrun]
    exact ⟨by rw [getBit_eq]; rfl, value, h, rfl, fun position => rfl⟩

theorem Bitmap.run {key value : Bytes} {ks : Keyspace F} (h : Bitmap key value ks)
    {commands : List (Readings × BitCommand)} (hc : ∀ c ∈ commands, c.2.offset < 2 ^ 32) :
    ∃ next, Bitmap key next (run key commands ks).2 ∧
      next.length = lengthAfter value.length (commands.map Prod.snd) ∧
      ∀ position, bit next position = bitAfter value (commands.map Prod.snd) position := by
  induction commands generalizing ks value with
  | nil => exact ⟨value, h, rfl, fun position => rfl⟩
  | cons c commands ih =>
    obtain ⟨-, middle, hmiddle, hlength, hbits⟩ := h.handle c.1 (hc c List.mem_cons_self)
    obtain ⟨next, hnext, hlength', hbits'⟩ :=
      ih hmiddle fun d hd => hc d (List.mem_cons_of_mem _ hd)
    refine ⟨next, hnext, ?_, fun position => ?_⟩
    · rw [hlength', hlength, lengthAfter_cons]
      rfl
    · rw [hbits', bitAfter_cons (hbits position)]
      rfl

/-- Bitmaps refine a zero-extended bit array: every reply is the bit last written at its offset or
the original one, the string holds exactly these bits, and it is as long as the largest offset
written requires. -/
theorem bitmap_refines_bit_array {key value : Bytes} {ks : Keyspace F} (h : Bitmap key value ks)
    {commands : List (Readings × BitCommand)} (hc : ∀ c ∈ commands, c.2.offset < 2 ^ 32) :
    (∀ before clock c after, commands = before ++ (clock, c) :: after →
      (BitCommand.run key commands ks).1[before.length]? =
        some (integer (bitAfter value (before.map Prod.snd) c.offset).toNat).toBytes) ∧
    (∀ position, bit ((BitCommand.run key commands ks).2.storage.getD key []) position =
      bitAfter value (commands.map Prod.snd) position) ∧
    ∀ clock name, (handleStrlen clock [name, key] (BitCommand.run key commands ks).2).1 =
      (integer (lengthAfter value.length (commands.map Prod.snd))).toBytes := by
  refine ⟨?_, ?_⟩
  · rintro before clock c after rfl
    obtain ⟨middle, hmiddle, -, hbits⟩ := h.run fun d hd => hc d (List.mem_append_left _ hd)
    have hreply := (hmiddle.handle clock (hc (clock, c) (by simp))).1
    rw [run_append]
    dsimp only
    rw [List.getElem?_append_right (by rw [length_run]), length_run, Nat.sub_self]
    simp only [BitCommand.run, List.getElem?_cons_zero, hreply, hbits]
  · obtain ⟨next, hnext, hlength, hbits⟩ := h.run hc
    refine ⟨fun position => ?_, fun clock name => ?_⟩
    · rw [hnext.value, hbits]
    · simp only [handleStrlen, hnext.wrongStringType, checked, Bool.false_eq_true, if_false,
        hnext.value, hlength]

/-- A write past the end of a string of one byte. -/
theorem bitmap_refines_bit_array_growing :
    let ks : Keyspace Whole := { storage := (∅ : Map Bytes).insert (ascii "k") [0x0f] }
    let clock : Readings := fun _ => ⟨0, 0⟩
    let commands := [(clock, setbit 20 true), (clock, getbit 6), (clock, setbit 20 false)]
    (BitCommand.run (ascii "k") commands ks).1 =
      [(integer 0).toBytes, (integer 1).toBytes, (integer 1).toBytes] ∧
    (handleStrlen clock [ascii "STRLEN", ascii "k"] (BitCommand.run (ascii "k") commands ks).2).1 =
      (integer 3).toBytes := by
  intro ks clock commands
  have hbitmap : Bitmap (ascii "k") [0x0f] ks :=
    ⟨by simp [ks], Or.inl (by simp [ks, typeOf]), by
      simp [ks, Std.ExtTreeMap.getD_eq_getD_getElem?]⟩
  obtain ⟨hreply, -, hstrlen⟩ :=
    bitmap_refines_bit_array hbitmap (show ∀ c ∈ commands, _ from by simp [commands, BitCommand.offset])
  have hlength : lengthAfter [(0x0f : UInt8)].length (commands.map Prod.snd) = 3 := by decide
  refine ⟨?_, by rw [hstrlen, hlength]; rfl⟩
  have h₀ := hreply [] clock _ _ rfl
  have h₁ := hreply [(clock, setbit 20 true)] clock _ _ rfl
  have h₂ := hreply [(clock, setbit 20 true), (clock, getbit 6)] clock _ _ rfl
  refine List.ext_getElem? fun i => ?_
  match i with
  | 0 => exact h₀
  | 1 => exact h₁
  | 2 => exact h₂
  | i + 3 => rw [List.getElem?_eq_none (by rw [length_run]; simp [commands])]; rfl

/-- A value of `long long`, unless the computation overflows. `bitCount` computes with integers, and
`bitCountChecked` below does the same in the types of the source. -/
def int64 (z : ℤ) : Option ℤ := if -2 ^ 63 ≤ z ∧ z < 2 ^ 63 then some z else none

/-- The loop of `BITCOUNT` over the bytes of a bit range. -/
def countLoop (value : Bytes) (firstBit lastBit : ℕ) : List ℕ → ℤ → Option ℤ
  | [], count => some count
  | i :: rest, count => do
    let byte ← value[i]?
    let count ← int64 (count + popcount (maskedByte byte i firstBit lastBit))
    countLoop value firstBit lastBit rest count

/-- `start += length` or `end += length` for an index that counts from the end. -/
def shiftIndex (length index : ℤ) : Option ℤ :=
  if index < 0 then int64 (index + length) else some index

def firstBitChecked (start : ℤ) (bitRange : Bool) : Option ℤ :=
  if bitRange then some start else int64 (start * 8)

def lastBitChecked (stop : ℤ) (bitRange : Bool) : Option ℤ :=
  if bitRange then some stop
  else do
    let product ← int64 (stop * 8)
    int64 (product + 7)

/-- `bitCount` in the types of the source. -/
def bitCountChecked (value : Bytes) (start stop : ℤ) (bitRange : Bool) : Option ℤ :=
  if start < 0 ∧ stop < 0 ∧ stop < start then some 0
  else do
    let size ← int64 value.length
    let length ← int64 (size * if bitRange then 8 else 1)
    let start ← shiftIndex length start
    let stop ← shiftIndex length stop
    let last ← int64 (length - 1)
    let start := max start 0
    let stop := min (max stop 0) last
    if stop < start then some 0
    else do
      let firstBit ← firstBitChecked start bitRange
      let lastBit ← lastBitChecked stop bitRange
      countLoop value firstBit.toNat lastBit.toNat
        (List.range' (firstBit.toNat / 8) (lastBit.toNat / 8 + 1 - firstBit.toNat / 8)) 0

/-- An index of the reference range: a negative one counts from the end. -/
def fromEnd (length index : ℤ) : ℤ := if index < 0 then index + length else index

def firstIndex (length start : ℤ) : ℤ := max (fromEnd length start) 0

def lastIndex (length stop : ℤ) : ℤ := min (max (fromEnd length stop) 0) (length - 1)

/-- The bit positions that a range selects in a string of the given size: none if both indexes are
negative and out of order, else those between its bounds. A byte range selects whole bytes. -/
def Selected (size : ℕ) (start stop : ℤ) (bitRange : Bool) (position : ℕ) : Prop :=
  ¬(start < 0 ∧ stop < 0 ∧ stop < start) ∧
    if bitRange then
      firstIndex (8 * size) start ≤ position ∧ (position : ℤ) ≤ lastIndex (8 * size) stop
    else
      8 * firstIndex size start ≤ position ∧ (position : ℤ) ≤ 8 * lastIndex size stop + 7

instance (size : ℕ) (start stop : ℤ) (bitRange : Bool) (position : ℕ) :
    Decidable (Selected size start stop bitRange position) := by
  unfold Selected
  infer_instance

/-- The number of ones that a range selects. -/
def selectedOnes (value : Bytes) (start stop : ℤ) (bitRange : Bool) : ℕ :=
  (List.range (8 * value.length)).countP fun position =>
    bit value position && decide (Selected value.length start stop bitRange position)

theorem testBit_shiftRight_mask (f t : ℕ) (hf : f < 8) (ht : t < 8) :
    (0xff >>> UInt8.ofNat f : UInt8).toNat.testBit (7 - t) = decide (f ≤ t) := by
  have h : ∀ f t : Fin 8, (0xff >>> UInt8.ofNat f : UInt8).toNat.testBit (7 - t) =
      decide ((f : ℕ) ≤ t) := by decide
  exact h ⟨f, hf⟩ ⟨t, ht⟩

theorem testBit_shiftLeft_mask (l t : ℕ) (hl : l < 8) (ht : t < 8) :
    (0xff <<< UInt8.ofNat (7 - l) : UInt8).toNat.testBit (7 - t) = decide (t ≤ l) := by
  have h : ∀ l t : Fin 8, (0xff <<< UInt8.ofNat (7 - l) : UInt8).toNat.testBit (7 - t) =
      decide ((t : ℕ) ≤ l) := by decide
  exact h ⟨l, hl⟩ ⟨t, ht⟩

theorem testBit_maskedByte (b : UInt8) {i firstBit lastBit t : ℕ} (hfirst : firstBit / 8 ≤ i)
    (hlast : i ≤ lastBit / 8) (ht : t < 8) :
    (maskedByte b i firstBit lastBit).toNat.testBit (7 - t) =
      (b.toNat.testBit (7 - t) && decide (firstBit ≤ 8 * i + t ∧ 8 * i + t ≤ lastBit)) := by
  have hf : (if i = firstBit / 8 then b &&& (0xff >>> UInt8.ofNat (firstBit % 8)) else b).toNat.testBit
      (7 - t) = (b.toNat.testBit (7 - t) && decide (firstBit ≤ 8 * i + t)) := by
    split
    · rw [UInt8.toNat_and, Nat.testBit_and, testBit_shiftRight_mask _ _ (Nat.mod_lt _ (by decide)) ht]
      congr 2
      apply propext
      omega
    · rw [decide_eq_true (by omega : firstBit ≤ 8 * i + t), Bool.and_true]
  simp only [maskedByte]
  split
  · rw [UInt8.toNat_and, Nat.testBit_and, hf,
      testBit_shiftLeft_mask _ _ (Nat.mod_lt _ (by decide)) ht, Bool.and_assoc, ← Bool.decide_and]
    congr 2
    apply propext
    omega
  · rw [hf]
    congr 2
    apply propext
    omega

theorem popcount_eq (b : UInt8) :
    popcount b = (List.range 8).countP fun t => b.toNat.testBit (7 - t) := by
  simp only [popcount, List.range_succ_eq_map, List.range_zero, List.map_cons, List.map_nil,
    List.countP_cons, List.countP_nil]
  ring

theorem sum_popcount {value : Bytes} {firstBit lastBit : ℕ} (horder : firstBit ≤ lastBit)
    (hlast : lastBit < 8 * value.length) :
    ((List.range' (firstBit / 8) (lastBit / 8 + 1 - firstBit / 8)).map fun i =>
        popcount (maskedByte (value.getD i 0) i firstBit lastBit)).sum =
      (List.range (8 * value.length)).countP fun position =>
        bit value position && decide (firstBit ≤ position ∧ position ≤ lastBit) := by
  rw [countP_range_eight_mul, ← sum_range'_eq (a := firstBit / 8)
    (m := lastBit / 8 + 1 - firstBit / 8) (by omega)]
  · congr 1
    refine List.map_congr_left fun i hi => ?_
    rw [List.mem_range'_1] at hi
    rw [popcount_eq]
    refine List.countP_congr fun t ht => ?_
    rw [List.mem_range] at ht
    have hbyte : (8 * i + t) / 8 = i := by omega
    have hmod : (8 * i + t) % 8 = t := by omega
    rw [testBit_maskedByte _ (by omega) (by omega) ht, bit, hbyte, hmod]
  · intro i hi
    rw [List.countP_eq_zero]
    intro t ht
    rw [List.mem_range] at ht
    have hout : ¬(firstBit ≤ 8 * i + t ∧ 8 * i + t ≤ lastBit) := by omega
    simp [hout]

def firstBit (size : ℕ) (start : ℤ) (bitRange : Bool) : ℤ :=
  if bitRange then firstIndex (8 * size) start else 8 * firstIndex size start

def lastBit (size : ℕ) (stop : ℤ) (bitRange : Bool) : ℤ :=
  if bitRange then lastIndex (8 * size) stop else 8 * lastIndex size stop + 7

theorem selected_iff (size : ℕ) (start stop : ℤ) (bitRange : Bool) (position : ℕ) :
    Selected size start stop bitRange position ↔
      ¬(start < 0 ∧ stop < 0 ∧ stop < start) ∧
        firstBit size start bitRange ≤ position ∧ (position : ℤ) ≤ lastBit size stop bitRange := by
  cases bitRange <;> rfl

theorem firstBit_nonneg (size : ℕ) (start : ℤ) (bitRange : Bool) :
    0 ≤ firstBit size start bitRange := by
  cases bitRange <;> simp [firstBit, firstIndex]

theorem lastBit_lt (size : ℕ) (stop : ℤ) (bitRange : Bool) :
    lastBit size stop bitRange < 8 * size := by
  cases bitRange <;> simp only [lastBit, lastIndex] <;> grind

theorem selectedOnes_eq_zero {value : Bytes} {start stop : ℤ} {bitRange : Bool}
    (h : ∀ position, ¬Selected value.length start stop bitRange position) :
    selectedOnes value start stop bitRange = 0 := by
  rw [selectedOnes, List.countP_eq_zero]
  intro position _
  simp [h position]

/-- The count of the ones between two positions of the string. -/
def onesBetween (value : Bytes) (first last : ℕ) : ℕ :=
  ((List.range' (first / 8) (last / 8 + 1 - first / 8)).map fun i =>
    popcount (maskedByte (value.getD i 0) i first last)).sum

theorem onesBetween_eq {value : Bytes} {start stop : ℤ} {bitRange : Bool}
    (hwrong : ¬(start < 0 ∧ stop < 0 ∧ stop < start))
    (horder : firstBit value.length start bitRange ≤ lastBit value.length stop bitRange) :
    onesBetween value (firstBit value.length start bitRange).toNat
      (lastBit value.length stop bitRange).toNat = selectedOnes value start stop bitRange := by
  have hfirst := firstBit_nonneg value.length start bitRange
  have hlast := lastBit_lt value.length stop bitRange
  rw [onesBetween, sum_popcount (by omega) (by omega), selectedOnes]
  refine List.countP_congr fun position _ => ?_
  have hiff : ((firstBit value.length start bitRange).toNat ≤ position ∧
      position ≤ (lastBit value.length stop bitRange).toNat) ↔
        Selected value.length start stop bitRange position := by
    rw [selected_iff]
    constructor
    · rintro ⟨h, h'⟩
      exact ⟨hwrong, by omega, by omega⟩
    · rintro ⟨-, h, h'⟩
      omega
  simp only [hiff]

theorem bitCount_eq (value : Bytes) (start stop : ℤ) (bitRange : Bool) :
    bitCount value start stop bitRange =
      if start < 0 ∧ stop < 0 ∧ stop < start then 0
      else if lastBit value.length stop bitRange < firstBit value.length start bitRange then 0
      else onesBetween value (firstBit value.length start bitRange).toNat
        (lastBit value.length stop bitRange).toNat := by
  unfold bitCount
  split
  · rfl
  · cases bitRange with
    | false =>
      have hstop : lastBit value.length stop false < firstBit value.length start false ↔
          lastIndex value.length stop < firstIndex value.length start := by
        simp only [lastBit, firstBit, Bool.false_eq_true, if_false]
        omega
      simp only [hstop]
      simp only [firstBit, lastBit, firstIndex, lastIndex, fromEnd, Bool.false_eq_true, if_false,
        mul_one, mul_comm (8 : ℤ)]
      rfl
    | true =>
      simp only [firstBit, lastBit, firstIndex, lastIndex, fromEnd, if_true, mul_comm (8 : ℤ)]
      rfl

theorem bitCount_eq_selectedOnes (value : Bytes) (start stop : ℤ) (bitRange : Bool) :
    bitCount value start stop bitRange = selectedOnes value start stop bitRange := by
  rw [bitCount_eq]
  split
  · rename_i h
    exact (selectedOnes_eq_zero fun position hp => hp.1 h).symm
  · rename_i h
    split
    · rename_i horder
      refine (selectedOnes_eq_zero fun position hp => ?_).symm
      rw [selected_iff] at hp
      omega
    · rename_i horder
      exact onesBetween_eq h (not_lt.mp horder)

theorem int64_eq {z : ℤ} (h : -2 ^ 63 ≤ z) (h' : z < 2 ^ 63) : int64 z = some z := if_pos ⟨h, h'⟩

theorem popcount_le (b : UInt8) : popcount b ≤ 8 :=
  List.countP_le_length.trans_eq List.length_range

/-- The loop reads within bounds and its counter does not overflow. -/
theorem countLoop_eq {value : Bytes} {first last : ℕ} :
    ∀ {indexes : List ℕ} {count : ℤ}, (∀ i ∈ indexes, i < value.length) → 0 ≤ count →
      count + 8 * indexes.length < 2 ^ 63 →
      countLoop value first last indexes count =
        some (count + ((indexes.map fun i =>
          popcount (maskedByte (value.getD i 0) i first last)).sum : ℕ))
  | [], count, _, _, _ => by simp [countLoop]
  | i :: rest, count, hmem, hpos, hbound => by
    have hi : i < value.length := hmem i List.mem_cons_self
    have hle := popcount_le (maskedByte value[i] i first last)
    rw [List.length_cons] at hbound
    push_cast at hbound
    have hnext : int64 (count + popcount (maskedByte value[i] i first last)) =
        some (count + popcount (maskedByte value[i] i first last)) :=
      int64_eq (by omega) (by omega)
    have hget : value.getD i 0 = value[i] := by simp [hi]
    simp only [countLoop, List.getElem?_eq_getElem hi, Option.bind_eq_bind, Option.bind_some,
      hnext, List.map_cons, List.sum_cons, hget]
    rw [countLoop_eq (fun j hj => hmem j (List.mem_cons_of_mem _ hj)) (by omega) (by omega)]
    push_cast
    ring_nf

/-- In a string of less than `2 ^ 60` bytes the computation never overflows and never leaves the
string. -/
theorem bitCountChecked_eq {value : Bytes} (hlength : value.length < 2 ^ 60) {start stop : ℤ}
    (hstart : -2 ^ 63 ≤ start ∧ start < 2 ^ 63) (hstop : -2 ^ 63 ≤ stop ∧ stop < 2 ^ 63)
    (bitRange : Bool) :
    bitCountChecked value start stop bitRange = some (bitCount value start stop bitRange : ℤ) := by
  rw [bitCount_eq]
  unfold bitCountChecked
  by_cases hwrong : start < 0 ∧ stop < 0 ∧ stop < start
  · simp [hwrong]
  have hsize : int64 value.length = some (value.length : ℤ) := int64_eq (by omega) (by omega)
  set length : ℤ := value.length * if bitRange then 8 else 1 with hlen
  have hrange : 0 ≤ length ∧ length < 2 ^ 63 := by
    cases bitRange <;> simp only [hlen, Bool.false_eq_true, if_true, if_false] <;> omega
  have hlength64 : int64 length = some length := int64_eq (by omega) (by omega)
  have hshift : ∀ index : ℤ, -2 ^ 63 ≤ index ∧ index < 2 ^ 63 →
      shiftIndex length index = some (fromEnd length index) := by
    intro index hindex
    unfold shiftIndex fromEnd
    split
    · exact int64_eq (by omega) (by omega)
    · rfl
  have hlast64 : int64 (length - 1) = some (length - 1) := int64_eq (by omega) (by omega)
  simp only [if_neg hwrong, Option.bind_eq_bind, hsize, Option.bind_some, ← hlen, hlength64,
    hshift start hstart, hshift stop hstop, hlast64]
  change (if lastIndex length stop < firstIndex length start then some 0 else _) = _
  have hfirst : 0 ≤ firstIndex length start := le_max_right _ _
  have hlast : lastIndex length stop ≤ length - 1 := min_le_right _ _
  have hfirstBit : firstIndex length start ≤ lastIndex length stop →
      firstBitChecked (firstIndex length start) bitRange =
        some (firstBit value.length start bitRange) := by
    intro horder
    cases bitRange with
    | false =>
      simp only [Bool.false_eq_true, if_false, mul_one] at hlen
      simp only [firstBitChecked, firstBit, Bool.false_eq_true, if_false, ← hlen, mul_comm (8 : ℤ)]
      exact int64_eq (by omega) (by omega)
    | true =>
      simp only [if_true] at hlen
      simp only [firstBitChecked, firstBit, if_true, hlen, mul_comm (8 : ℤ)]
  have hlastBit : firstIndex length start ≤ lastIndex length stop →
      lastBitChecked (lastIndex length stop) bitRange =
        some (lastBit value.length stop bitRange) := by
    intro horder
    cases bitRange with
    | false =>
      simp only [Bool.false_eq_true, if_false, mul_one] at hlen
      simp only [lastBitChecked, lastBit, Bool.false_eq_true, if_false, ← hlen, mul_comm (8 : ℤ),
        Option.bind_eq_bind]
      rw [int64_eq (by omega) (by omega), Option.bind_some, int64_eq (by omega) (by omega)]
    | true =>
      simp only [if_true] at hlen
      simp only [lastBitChecked, lastBit, if_true, hlen, mul_comm (8 : ℤ)]
  have horder : lastBit value.length stop bitRange < firstBit value.length start bitRange ↔
      lastIndex length stop < firstIndex length start := by
    cases bitRange with
    | false =>
      simp only [Bool.false_eq_true, if_false, mul_one] at hlen
      simp only [lastBit, firstBit, Bool.false_eq_true, if_false, ← hlen]
      omega
    | true =>
      simp only [if_true] at hlen
      simp only [lastBit, firstBit, if_true, hlen, mul_comm (8 : ℤ)]
  simp only [horder]
  split
  · rfl
  · rename_i hle
    change (firstBitChecked (firstIndex length start) bitRange).bind (fun _ =>
      (lastBitChecked (lastIndex length stop) bitRange).bind _) = _
    rw [hfirstBit (not_lt.mp hle), hlastBit (not_lt.mp hle), Option.bind_some, Option.bind_some]
    have hbound := lastBit_lt value.length stop bitRange
    have hnonneg := firstBit_nonneg value.length start bitRange
    have hbits := not_lt.mp (horder.not.mpr hle)
    rw [countLoop_eq _ le_rfl]
    · simp [onesBetween]
    · rw [List.length_range']
      omega
    · intro i hi
      rw [List.mem_range'_1] at hi
      omega

theorem parsePlainIndex_decimalInt {z : ℤ} (h : -2 ^ 63 ≤ z ∧ z < 2 ^ 63) :
    parsePlainIndex (decimalInt z) = some z := by
  simp [parsePlainIndex, fromCharsI64_decimalInt h]

theorem bitcountRange_of_peek {clock : Readings} {key value : Bytes} {ks : Keyspace F}
    (h : (ks.peek (clock 0) key).1 = some value) (start stop : ℤ) (bitRange : Bool) :
    (bitcountRange clock key start stop bitRange ks).1 =
      (integer (bitCount value start stop bitRange)).toBytes := by
  unfold peek at h
  dsimp only at h
  split at h
  · cases h
  · rename_i hlive
    dsimp only at h
    have hcontains : (ks.isExpired (clock 0) key).2.storage.contains key = true := by
      rw [Std.ExtTreeMap.contains_eq_isSome_getElem?, h]
      rfl
    have htype : ks.wrongStringType (clock 0) key = (false, (ks.isExpired (clock 0) key).2) := by
      simp only [wrongStringType, keyType, if_neg hlive, typeOf, hcontains, if_true]
      rfl
    simp only [bitcountRange, checked, htype, Bool.false_eq_true, if_false, h]

/-- `BITCOUNT` counts exactly the ones of the reference range, in bytes and in bits, without
overflow and within the bounds of the string. -/
theorem bitcount_counts_selected {clock : Readings} {key value : Bytes} {ks : Keyspace F}
    (hvalue : (ks.peek (clock 0) key).1 = some value) (hlength : value.length < 2 ^ 60)
    {start stop : ℤ} (hstart : -2 ^ 63 ≤ start ∧ start < 2 ^ 63)
    (hstop : -2 ^ 63 ≤ stop ∧ stop < 2 ^ 63) (name unit : Bytes) :
    (∀ bitRange, bitCountChecked value start stop bitRange =
      some (selectedOnes value start stop bitRange : ℤ)) ∧
    (toUpper unit = ascii "BIT" →
      (handleBitcount clock [name, key, decimalInt start, decimalInt stop, unit] ks).1 =
        (integer (selectedOnes value start stop true)).toBytes) ∧
    (toUpper unit = ascii "BYTE" →
      (handleBitcount clock [name, key, decimalInt start, decimalInt stop, unit] ks).1 =
        (integer (selectedOnes value start stop false)).toBytes) ∧
    (handleBitcount clock [name, key, decimalInt start, decimalInt stop] ks).1 =
      (integer (selectedOnes value start stop false)).toBytes := by
  have hbit : ¬ascii "BYTE" = ascii "BIT" := by decide
  refine ⟨fun bitRange => ?_, fun hunit => ?_, fun hunit => ?_, ?_⟩
  · rw [bitCountChecked_eq hlength hstart hstop, bitCount_eq_selectedOnes]
  · simp [handleBitcount, parsePlainIndex_decimalInt hstart, parsePlainIndex_decimalInt hstop,
      hunit, bitcountRange_of_peek hvalue, bitCount_eq_selectedOnes]
  · simp [handleBitcount, parsePlainIndex_decimalInt hstart, parsePlainIndex_decimalInt hstop,
      hunit, hbit, bitcountRange_of_peek hvalue, bitCount_eq_selectedOnes]
  · simp [handleBitcount, parsePlainIndex_decimalInt hstart, parsePlainIndex_decimalInt hstop,
      bitcountRange_of_peek hvalue, bitCount_eq_selectedOnes]

/-- The range from the third bit to the last byte of a short string. -/
theorem bitcount_counts_selected_tail :
    let ks : Keyspace Whole := { storage := (∅ : Map Bytes).insert (ascii "k") [0xff, 0x0f] }
    let clock : Readings := fun _ => ⟨0, 0⟩
    (handleBitcount clock [ascii "BITCOUNT", ascii "k", decimalInt 2, decimalInt (-3),
      ascii "bit"] ks).1 = (integer 8).toBytes := by
  intro ks clock
  have hpeek : (ks.peek (clock 0) (ascii "k")).1 = some [0xff, 0x0f] := by
    simp [ks, peek, isExpired]
  have hones : selectedOnes [0xff, 0x0f] 2 (-3) true = 8 := by decide
  have hstart : (-2 ^ 63 : ℤ) ≤ 2 ∧ (2 : ℤ) < 2 ^ 63 := by decide
  have hstop : (-2 ^ 63 : ℤ) ≤ -3 ∧ (-3 : ℤ) < 2 ^ 63 := by decide
  have h := (bitcount_counts_selected hpeek (by decide) hstart hstop (ascii "BITCOUNT")
    (ascii "bit")).2.1 (by decide)
  rw [h, hones]
  rfl

end Keyspace

end TrueStore
