import TrueStore.Store.SortedSets

/-! # Bitmap commands

Bits of a string are numbered from the most significant bit of its first byte.
-/

namespace TrueStore

/-- The operations of `BITOP`. -/
inductive BitOperation where
  | and
  | or
  | xor
  | not
  deriving DecidableEq, Repr

namespace BitOperation

def parse (name : Bytes) : Option BitOperation :=
  if name = ascii "AND" then some .and
  else if name = ascii "OR" then some .or
  else if name = ascii "XOR" then some .xor
  else if name = ascii "NOT" then some .not
  else none

def combine (operation : BitOperation) (inputs : List UInt8) : UInt8 :=
  inputs.foldl
    (fun byte input => match operation with
      | .and => byte &&& input
      | .or => byte ||| input
      | .xor => byte ^^^ input
      | .not => input ^^^ 0xff)
    (if operation = .and then 0xff else 0)

/-- The result of the operation; a source that is too short is padded with zeros. -/
def apply (operation : BitOperation) (sources : List Bytes) : Bytes :=
  (List.range ((sources.map List.length).foldl max 0)).map fun i =>
    operation.combine (sources.map fun source => source.getD i 0)

end BitOperation

def popcount (b : UInt8) : ℕ := (List.range 8).countP fun i => b.toNat.testBit i

def maskedByte (b : UInt8) (i firstBit lastBit : ℕ) : UInt8 :=
  let b := if i = firstBit / 8 then b &&& (0xff >>> UInt8.ofNat (firstBit % 8)) else b
  if i = lastBit / 8 then b &&& (0xff <<< UInt8.ofNat (7 - lastBit % 8)) else b

/-- The count of `BITCOUNT` between two indexes that may count from the end. -/
def bitCount (value : Bytes) (start stop : ℤ) (bitRange : Bool) : ℕ :=
  if start < 0 ∧ stop < 0 ∧ stop < start then 0
  else
    let length : ℤ := value.length * (if bitRange then 8 else 1)
    let start := max (if start < 0 then start + length else start) 0
    let stop := min (max (if stop < 0 then stop + length else stop) 0) (length - 1)
    if stop < start then 0
    else
      let firstBit := (if bitRange then start else start * 8).toNat
      let lastBit := (if bitRange then stop else stop * 8 + 7).toNat
      ((List.range' (firstBit / 8) (lastBit / 8 + 1 - firstBit / 8)).map fun i =>
        popcount (maskedByte (value.getD i 0) i firstBit lastBit)).sum

namespace Keyspace

open RespType

variable {F : Type} [Platform F]

/-- Offsets are plain decimal numerals below `2 ^ 32`. -/
def parseOffset (text : Bytes) : Option ℕ :=
  match fromCharsU64 text with
  | none => none
  | some offset =>
    if text = decimal offset.toNat ∧ offset.toNat < 2 ^ 32 then some offset.toNat else none

def offsetError : Bytes := errorReply (ascii "ERR bit offset is not an integer or out of range")

/-- Indexes of `BITCOUNT` have no leading zeros, unlike those of `ZRANGE`. -/
def parsePlainIndex (text : Bytes) : Option ℤ :=
  match fromCharsI64 text with
  | none => none
  | some index => if text = decimalInt index then some index else none

/-- The value of `SETBIT` before the bit is set: long enough to hold it. -/
def resized (value : Bytes) (index : ℕ) : Bytes :=
  if value.length ≤ index then value ++ List.replicate (index + 1 - value.length) 0 else value

def setBit (value : Bytes) (offset : ℕ) (bit : Bool) : Bool × Bytes :=
  let value := resized value (offset / 8)
  let mask : UInt8 := 0x80 >>> UInt8.ofNat (offset % 8)
  let byte := value.getD (offset / 8) 0
  (byte &&& mask ≠ 0, value.set (offset / 8) (if bit then byte ||| mask else byte &&& ~~~mask))

def handleSetbit (clock : Readings) (args : List Bytes) (ks : Keyspace F) : Bytes × Keyspace F :=
  match args with
  | [_, key, offsetText, bit] =>
    match parseOffset offsetText with
    | none => (offsetError, ks)
    | some offset =>
      if bit ≠ ascii "0" ∧ bit ≠ ascii "1" then
        (errorReply (ascii "ERR bit is not an integer or out of range"), ks)
      else
        checked (ks.wrongStringType (clock 0) key) fun ks =>
          let r := setBit (ks.storage.getD key []) offset (bit = ascii "1")
          ((integer r.1.toNat).toBytes, { ks with storage := ks.storage.insert key r.2 })
  | _ => (arityError "setbit", ks)

def getBit (value : Bytes) (offset : ℕ) : ℕ :=
  if value.length ≤ offset / 8 then 0
  else (value.getD (offset / 8) 0 >>> UInt8.ofNat (7 - offset % 8) &&& 1).toNat

def handleGetbit (clock : Readings) (args : List Bytes) (ks : Keyspace F) : Bytes × Keyspace F :=
  match args with
  | [_, key, offsetText] =>
    match parseOffset offsetText with
    | none => (offsetError, ks)
    | some offset =>
      checked (ks.wrongStringType (clock 0) key) fun ks =>
        ((integer (getBit (ks.storage.getD key []) offset)).toBytes, ks)
  | _ => (arityError "getbit", ks)

/-- `BITCOUNT` once its options are known. -/
def bitcountRange (clock : Readings) (key : Bytes) (start stop : ℤ) (bitRange : Bool)
    (ks : Keyspace F) : Bytes × Keyspace F :=
  checked (ks.wrongStringType (clock 0) key) fun ks =>
    ((integer (match ks.storage[key]? with
      | none => 0
      | some value => bitCount value start stop bitRange)).toBytes, ks)

def handleBitcount (clock : Readings) (args : List Bytes) (ks : Keyspace F) :
    Bytes × Keyspace F :=
  match args with
  | [_, key] => bitcountRange clock key 0 (2 ^ 63 - 1) false ks
  | [_, key, first, last] =>
    match parsePlainIndex first, parsePlainIndex last with
    | some start, some stop => bitcountRange clock key start stop false ks
    | _, _ => (notInteger, ks)
  | [_, key, first, last, unit] =>
    match parsePlainIndex first, parsePlainIndex last with
    | some start, some stop =>
      if toUpper unit ≠ ascii "BYTE" ∧ toUpper unit ≠ ascii "BIT" then (syntaxError, ks)
      else bitcountRange clock key start stop (toUpper unit = ascii "BIT") ks
    | _, _ => (notInteger, ks)
  | _ => (arityError "bitcount", ks)

/-- The loop of `BITOP` over its sources: their values, or nothing at a key of another type. -/
def bitopSources : Readings → List Bytes → Keyspace F → Option (List Bytes) × Keyspace F
  | _, [], ks => (some [], ks)
  | clock, key :: keys, ks =>
    let w := ks.wrongStringType (clock 0) key
    if w.1 then (none, w.2)
    else
      let rest := bitopSources clock.later keys w.2
      (rest.1.map (w.2.storage.getD key [] :: ·), rest.2)

/-- The destination of `BITOP` is replaced, or deleted by an empty result. -/
def storeBits (ks : Keyspace F) (key result : Bytes) : Keyspace F :=
  { ks.eraseOthers key with
    storage := if result = [] then ks.storage.erase key else ks.storage.insert key result
    expirations := ks.expirations.erase key }

def handleBitop (clock : Readings) (args : List Bytes) (ks : Keyspace F) : Bytes × Keyspace F :=
  match args with
  | _ :: name :: destination :: source :: sources =>
    match BitOperation.parse (toUpper name) with
    | none => (syntaxError, ks)
    | some operation =>
      if operation = .not ∧ sources ≠ [] then
        (errorReply (ascii "ERR BITOP NOT must be called with a single source key."), ks)
      else
        let r := bitopSources clock (source :: sources) ks
        match r.1 with
        | none => (wrongType, r.2)
        | some values =>
          let result := operation.apply values
          ((integer result.length).toBytes, r.2.storeBits destination result)
  | _ => (arityError "bitop", ks)

@[simp] theorem isError_offsetError : isError offsetError = true := rfl

theorem handleSetbit_cases (clock : Readings) (args : List Bytes) (ks : Keyspace F) :
    (isError (handleSetbit clock args ks).1 = true ∧
      Evicts clock ks (handleSetbit clock args ks).2) ∨
    (∃ c key text bit offset, args = [c, key, text, bit] ∧ parseOffset text = some offset ∧
      ¬(bit ≠ ascii "0" ∧ bit ≠ ascii "1") ∧
      (ks.wrongStringType (clock 0) key).1 = false ∧
      handleSetbit clock args ks =
        let ks₁ := ks.evict (clock 0) key
        let r := setBit (ks₁.storage.getD key []) offset (bit = ascii "1")
        ((integer r.1.toNat).toBytes, { ks₁ with storage := ks₁.storage.insert key r.2 })) := by
  unfold handleSetbit
  split
  · rename_i c key text bit
    split
    · exact .inl ⟨rfl, .refl _⟩
    · rename_i offset ho
      split
      · exact .inl ⟨rfl, .refl _⟩
      · rename_i hb
        rcases checked_cases (ks.wrongStringType (clock 0) key) _ with ⟨-, h⟩ | ⟨hw, h⟩
        · rw [h]
          exact .inl ⟨rfl, wrongStringType_snd ks _ key ▸ .single clock ks 0 key⟩
        · rw [h, wrongStringType_snd]
          exact .inr ⟨c, key, text, bit, offset, rfl, ho, hb, hw, rfl⟩
  · exact .inl ⟨rfl, .refl _⟩

theorem evicts_bitopSources (keys : List Bytes) (clock : Readings) (ks : Keyspace F) :
    Evicts clock ks (bitopSources clock keys ks).2 := by
  induction keys generalizing clock ks with
  | nil => exact .refl _
  | cons key keys ih =>
    simp only [bitopSources, wrongStringType_snd]
    split
    · exact .single clock ks 0 key
    · exact .step 0 key (ih clock.later _).of_later

theorem handleBitop_cases (clock : Readings) (args : List Bytes) (ks : Keyspace F) :
    (isError (handleBitop clock args ks).1 = true ∧
      Evicts clock ks (handleBitop clock args ks).2) ∨
    (∃ c name dest source sources operation values,
      args = c :: name :: dest :: source :: sources ∧
      BitOperation.parse (toUpper name) = some operation ∧
      ¬(operation = .not ∧ sources ≠ []) ∧
      (bitopSources clock (source :: sources) ks).1 = some values ∧
      handleBitop clock args ks =
        ((integer (operation.apply values).length).toBytes,
          (bitopSources clock (source :: sources) ks).2.storeBits dest
            (operation.apply values))) := by
  unfold handleBitop
  split
  · rename_i c name dest source sources
    split
    · exact .inl ⟨rfl, .refl _⟩
    · rename_i operation hop
      split
      · exact .inl ⟨rfl, .refl _⟩
      · rename_i hnot
        dsimp only
        split
        · exact .inl ⟨rfl, evicts_bitopSources _ _ _⟩
        · rename_i values hv
          exact .inr ⟨c, name, dest, source, sources, operation, values, rfl, hop, hnot, hv, rfl⟩
  · exact .inl ⟨rfl, .refl _⟩

theorem evicts_handleGetbit (clock : Readings) (args : List Bytes) (ks : Keyspace F) :
    Evicts clock ks (handleGetbit clock args ks).2 := by
  unfold handleGetbit
  split
  · split
    · exact .refl _
    · exact evicts_checked (wrongStringType_snd ..) _
  · exact .refl _

theorem evicts_bitcountRange (clock : Readings) (key : Bytes) (start stop : ℤ) (bitRange : Bool)
    (ks : Keyspace F) : Evicts clock ks (bitcountRange clock key start stop bitRange ks).2 :=
  evicts_checked (wrongStringType_snd ..) _

theorem evicts_handleBitcount (clock : Readings) (args : List Bytes) (ks : Keyspace F) :
    Evicts clock ks (handleBitcount clock args ks).2 := by
  unfold handleBitcount
  split
  · exact evicts_bitcountRange ..
  · split
    · exact evicts_bitcountRange ..
    · exact .refl _
  · split
    · split
      · exact .refl _
      · exact evicts_bitcountRange ..
    · exact .refl _
  · exact .refl _

end Keyspace

end TrueStore
