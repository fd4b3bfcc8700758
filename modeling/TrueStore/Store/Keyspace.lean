import TrueStore.Resp.Basic
import TrueStore.Stream.Basic

/-! # The keyspace

The five containers that hold the data, the lazy expiry of strings and the type of a
key. Doubles, `fnmatch` and SHA-256 come from the platform: a double is an element of a
linear order, since every conversion that reads one refuses NaN.
-/

namespace TrueStore

/-- What the server takes from the platform: the doubles other than NaN with their arithmetic and
conversions, `fnmatch(3)` and the SHA-256 of OpenSSL. -/
class Platform (F : Type) extends LinearOrder F where
  /-- `std::stod`: an exception, or the value (`none` for NaN) and the characters used. -/
  stod : Bytes → Option (Option F × ℕ)
  /-- The double nearest to a constant of the source. -/
  ofRat : ℚ → F
  isInf : F → Bool
  add : F → F → F
  sub : F → F → F
  mul : F → F → F
  div : F → F → F
  sqrt : F → F
  sin : F → F
  cos : F → F
  asin : F → F
  /-- `static_cast<double>` of an unsigned and of a signed integer. -/
  ofU64 : UInt64 → F
  ofI64 : ℤ → F
  /-- `static_cast<std::uint64_t>` and `static_cast<long long>` of a double. -/
  toU64 : F → UInt64
  toI64 : F → ℤ
  /-- `std::to_chars` in shortest form, and with four decimals. -/
  toChars : F → Bytes
  toCharsFixed : F → Bytes
  /-- `std::to_string` of a double. -/
  toStringF : F → Bytes
  /-- Seconds as a duration of the steady clock, in nanoseconds. -/
  secondsToTicks : F → ℤ
  fnmatch : Bytes → Bytes → Bool
  sha256 : Bytes → Bytes

/-- Doubles that happen to be whole numbers. They compute as the platform does as long as
numerals and results are whole, which is enough to run the model on concrete input. -/
def Whole := ℤ
  deriving DecidableEq

instance : LinearOrder Whole := inferInstanceAs (LinearOrder ℤ)

/-- The blanks, the sign and the digits that a numeral at the start of a text consists of. -/
def numeralLength (text : Bytes) : ℕ :=
  let blanks := (text.takeWhile isSpace).length
  let sign := (text.drop blanks).length - (splitSign (text.drop blanks)).2.length
  blanks + sign + ((text.drop (blanks + sign)).takeWhile isDigit).length

instance : Platform Whole where
  stod text := (scanInteger text).map fun n => (some (applySign n.1 n.2), numeralLength text)
  ofRat q := q.floor
  isInf _ := false
  add := Int.add
  sub := Int.sub
  mul := Int.mul
  div := Int.tdiv
  sqrt x := Int.ofNat (Nat.sqrt (Int.toNat x))
  sin _ := (0 : ℤ)
  cos _ := (1 : ℤ)
  asin x := x
  ofU64 n := Int.ofNat n.toNat
  ofI64 n := n
  toU64 x := UInt64.ofNat (Int.toNat x)
  toI64 x := x
  toChars x := decimalInt x
  toCharsFixed x := decimalInt x ++ ascii ".0000"
  toStringF x := decimalInt x ++ ascii ".000000"
  secondsToTicks x := Int.mul x 1000000000
  fnmatch pattern key := pattern = ascii "*" || pattern = key
  sha256 password := password

/-- One reading of the clocks: nanoseconds of `steady_clock` and milliseconds since the epoch. -/
structure Clock where
  steady : ℤ
  unixMs : UInt64

/-- The clock readings of one call, in the order in which it makes them. -/
abbrev Readings := ℕ → Clock

def Readings.later (clock : Readings) : Readings := fun i => clock (i + 1)

/-- A map of the source keyed by strings. Only its contents are observable, except through the
order in which it is listed, which is taken to be the order of the keys. -/
abbrev Map (V : Type) := Std.ExtTreeMap Bytes V

/-- The two indexes of a sorted set. Pairs are ordered by score, then by member. -/
structure SortedSet (F : Type) [Platform F] where
  scores : Map F := ∅
  ordered : Std.ExtTreeSet (F × Bytes) lexOrd.compare := ∅

instance (F : Type) [Platform F] :
    Std.TransCmp (lexOrd.compare : F × Bytes → F × Bytes → Ordering) := inferInstance

/-- The containers of `Store` that hold data. -/
@[ext]
structure Keyspace (F : Type) [Platform F] where
  storage : Map Bytes := ∅
  expirations : Map ℤ := ∅
  dynamicVector : Map (List Bytes) := ∅
  streams : Map Stream := ∅
  sortedSets : Map (SortedSet F) := ∅

inductive KeyType where
  | none
  | string
  | list
  | stream
  | zset
  deriving DecidableEq, Repr

def KeyType.toBytes : KeyType → Bytes
  | .none => ascii "none"
  | .string => ascii "string"
  | .list => ascii "list"
  | .stream => ascii "stream"
  | .zset => ascii "zset"

open RespType

variable {F : Type} [Platform F]

namespace Keyspace

/-- `Store::is_expired`: a key past its deadline is removed on the way. -/
def isExpired (ks : Keyspace F) (clock : Clock) (key : Bytes) : Bool × Keyspace F :=
  match ks.expirations[key]? with
  | none => (false, ks)
  | some deadline =>
    if deadline ≤ clock.steady then
      (true, { ks with
        expirations := ks.expirations.erase key
        storage := ks.storage.erase key })
    else (false, ks)

/-- The keyspace after `is_expired` has looked at a key. -/
def evict (ks : Keyspace F) (clock : Clock) (key : Bytes) : Keyspace F := (ks.isExpired clock key).2

/-- The first container that holds the key, in the order of `Store::key_type`. -/
def typeOf (ks : Keyspace F) (key : Bytes) : KeyType :=
  if ks.storage.contains key then .string
  else if ks.dynamicVector.contains key then .list
  else if ks.streams.contains key then .stream
  else if ks.sortedSets.contains key then .zset
  else .none

def keyType (ks : Keyspace F) (clock : Clock) (key : Bytes) : KeyType × Keyspace F :=
  let r := ks.isExpired clock key
  if r.1 then (.none, r.2) else (r.2.typeOf key, r.2)

def wrongSortedSetType (ks : Keyspace F) (clock : Clock) (key : Bytes) : Bool × Keyspace F :=
  let t := ks.keyType clock key
  (t.1 ≠ .none && t.1 ≠ .zset, t.2)

def wrongStringType (ks : Keyspace F) (clock : Clock) (key : Bytes) : Bool × Keyspace F :=
  let t := ks.keyType clock key
  (t.1 ≠ .none && t.1 ≠ .string, t.2)

def checked (wrong : Bool × Keyspace F) (body : Keyspace F → Bytes × Keyspace F) :
    Bytes × Keyspace F :=
  if wrong.1 then (wrongType, wrong.2) else body wrong.2

def peek (ks : Keyspace F) (clock : Clock) (key : Bytes) : Option Bytes × Keyspace F :=
  let r := ks.isExpired clock key
  if r.1 then (none, r.2) else (r.2.storage[key]?, r.2)

/-- The names of all keys, container by container. -/
def candidates (ks : Keyspace F) : List Bytes :=
  ks.storage.keys ++ ks.dynamicVector.keys ++ ks.streams.keys ++ ks.sortedSets.keys

/-- The loop of `Store::handle_keys` over the candidates. -/
def matchKeys (pattern : Bytes) :
    Readings → List Bytes → Keyspace F → List Bytes × Keyspace F
  | _, [], ks => ([], ks)
  | clock, key :: rest, ks =>
    let r := ks.isExpired (clock 0) key
    let m := matchKeys pattern clock.later rest r.2
    if r.1 then m
    else if Platform.fnmatch F pattern key then (key :: m.1, m.2) else m

def handleKeys (clock : Readings) (args : List Bytes) (ks : Keyspace F) : Bytes × Keyspace F :=
  match args with
  | [_, pattern] =>
    let m := matchKeys pattern clock ks.candidates ks
    ((array m.1).toBytes, m.2)
  | _ => (arityError "keys", ks)

def handleType (clock : Readings) (args : List Bytes) (ks : Keyspace F) : Bytes × Keyspace F :=
  match args with
  | [_, key] =>
    let t := ks.keyType (clock 0) key
    ((simpleString t.1.toBytes).toBytes, t.2)
  | _ => (arityError "type", ks)

/-- The list at a key after some of it has been removed: an empty list is deleted. -/
def storeList (ks : Keyspace F) (key : Bytes) (list : List Bytes) : Keyspace F :=
  { ks with dynamicVector :=
      if list = [] then ks.dynamicVector.erase key else ks.dynamicVector.insert key list }

/-- Remove the key from every container except the strings. -/
def eraseOthers (ks : Keyspace F) (key : Bytes) : Keyspace F :=
  { ks with
    sortedSets := ks.sortedSets.erase key
    dynamicVector := ks.dynamicVector.erase key
    streams := ks.streams.erase key }

/-- `Storage[key] = value` and the removal of the key from the other containers. -/
def assign (ks : Keyspace F) (key value : Bytes) : Keyspace F :=
  { ks.eraseOthers key with storage := ks.storage.insert key value }

/-- The second keyspace is the first one after lazy expiry at some of the readings. Such removals are
all that a failing or a reading command does. -/
inductive Evicts (clock : Readings) : Keyspace F → Keyspace F → Prop where
  | refl (ks) : Evicts clock ks ks
  | step {ks ks'} (i : ℕ) (key : Bytes) : Evicts clock (ks.evict (clock i) key) ks' →
      Evicts clock ks ks'

theorem Evicts.single (clock : Readings) (ks : Keyspace F) (i : ℕ) (key : Bytes) :
    Evicts clock ks (ks.evict (clock i) key) := .step i key (.refl _)

theorem Evicts.of_later {clock : Readings} {a b : Keyspace F} (h : Evicts clock.later a b) :
    Evicts clock a b := by
  induction h with
  | refl => exact .refl _
  | step i key _ ih => exact .step (i + 1) key ih

/-- A property that no removal breaks survives any number of them. -/
theorem Evicts.preserves {clock : Readings} {P : Keyspace F → Prop}
    (hP : ∀ ks i key, P ks → P (ks.evict (clock i) key)) {a b : Keyspace F}
    (h : Evicts clock a b) (ha : P a) : P b := by
  induction h with
  | refl => exact ha
  | step i key _ ih => exact ih (hP _ i key ha)

section evict

variable (ks : Keyspace F) (clock : Clock) (key : Bytes)

@[simp] theorem isExpired_snd : (ks.isExpired clock key).2 = ks.evict clock key := rfl

@[simp] theorem keyType_snd : (ks.keyType clock key).2 = ks.evict clock key := by
  simp only [keyType]
  split <;> rfl

@[simp] theorem wrongSortedSetType_snd :
    (ks.wrongSortedSetType clock key).2 = ks.evict clock key := keyType_snd ks clock key

@[simp] theorem wrongStringType_snd :
    (ks.wrongStringType clock key).2 = ks.evict clock key := keyType_snd ks clock key

@[simp] theorem peek_snd : (ks.peek clock key).2 = ks.evict clock key := by
  simp only [peek]
  split <;> rfl

theorem evict_cases : ks.evict clock key = ks ∨
    ks.evict clock key =
      { ks with expirations := ks.expirations.erase key, storage := ks.storage.erase key } := by
  unfold evict isExpired
  split
  · exact Or.inl rfl
  · split
    · exact Or.inr rfl
    · exact Or.inl rfl

@[simp] theorem evict_dynamicVector : (ks.evict clock key).dynamicVector = ks.dynamicVector := by
  rcases evict_cases ks clock key with h | h <;> rw [h]

@[simp] theorem evict_streams : (ks.evict clock key).streams = ks.streams := by
  rcases evict_cases ks clock key with h | h <;> rw [h]

@[simp] theorem evict_sortedSets : (ks.evict clock key).sortedSets = ks.sortedSets := by
  rcases evict_cases ks clock key with h | h <;> rw [h]

end evict

theorem checked_cases (wrong : Bool × Keyspace F) (body : Keyspace F → Bytes × Keyspace F) :
    (wrong.1 = true ∧ checked wrong body = (wrongType, wrong.2)) ∨
      (wrong.1 = false ∧ checked wrong body = body wrong.2) := by
  unfold checked
  cases h : wrong.1 <;> simp

theorem evicts_checked {clock : Readings} {ks : Keyspace F} {wrong : Bool × Keyspace F} {i : ℕ}
    {key : Bytes} (hw : wrong.2 = ks.evict (clock i) key) (reply : Keyspace F → Bytes) :
    Evicts clock ks (checked wrong fun ks => (reply ks, ks)).2 := by
  rcases checked_cases wrong fun ks => (reply ks, ks) with ⟨-, h⟩ | ⟨-, h⟩ <;> rw [h] <;>
    exact hw ▸ .single clock ks i key

theorem evicts_matchKeys (pattern : Bytes) (keys : List Bytes) (clock : Readings)
    (ks : Keyspace F) : Evicts clock ks (matchKeys pattern clock keys ks).2 := by
  induction keys generalizing clock ks with
  | nil => exact .refl _
  | cons key rest ih =>
    have hrest := (ih clock.later (ks.isExpired (clock 0) key).2).of_later
    simp only [matchKeys]
    split
    · exact .step 0 key hrest
    · split <;> exact .step 0 key hrest

theorem evicts_handleKeys (clock : Readings) (args : List Bytes) (ks : Keyspace F) :
    Evicts clock ks (handleKeys clock args ks).2 := by
  unfold handleKeys
  split
  · exact evicts_matchKeys _ _ _ _
  · exact .refl _

theorem evicts_handleType (clock : Readings) (args : List Bytes) (ks : Keyspace F) :
    Evicts clock ks (handleType clock args ks).2 := by
  unfold handleType
  split
  · simpa using Evicts.single clock ks 0 _
  · exact .refl _

end Keyspace

end TrueStore
