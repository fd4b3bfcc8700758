import TrueStore.Store.Streams

/-! # Sorted-set commands -/

namespace TrueStore

open RespType

variable {F : Type} [Platform F]

namespace SortedSet

/-- `SortedSet::add`: whether the member is new, and the set with its score. -/
def add (set : SortedSet F) (score : F) (member : Bytes) : Bool × SortedSet F :=
  match set.scores[member]? with
  | none =>
    (true, { scores := set.scores.insert member score, ordered := set.ordered.insert (score, member) })
  | some old =>
    (false,
      { scores := set.scores.insert member score
        ordered := (set.ordered.erase (old, member)).insert (score, member) })

/-- The loop of `ZADD`: the number of new members and the set with all entries. -/
def addAll : List (F × Bytes) → SortedSet F → ℕ × SortedSet F
  | [], set => (0, set)
  | (score, member) :: entries, set =>
    let r := set.add score member
    let rest := addAll entries r.2
    (r.1.toNat + rest.1, rest.2)

/-- The loop of `ZREM`. -/
def removeAll : List Bytes → SortedSet F → ℕ × SortedSet F
  | [], set => (0, set)
  | member :: members, set =>
    match set.scores[member]? with
    | none => removeAll members set
    | some score =>
      let rest := removeAll members
        { scores := set.scores.erase member, ordered := set.ordered.erase (score, member) }
      (rest.1 + 1, rest.2)

def range (set : SortedSet F) (start stop : ℤ) : List (F × Bytes) :=
  let size : ℤ := set.ordered.size
  let start := max (if start < 0 then start + size else start) 0
  let stop := min (if stop < 0 then stop + size else stop) (size - 1)
  if stop < start ∨ size ≤ start then []
  else (set.ordered.toList.drop start.toNat).take (stop - start + 1).toNat

end SortedSet

/-- `parse_score`, and `parse_number` of the geospatial commands. -/
def parseScore (text : Bytes) : Option F :=
  if text = [] ∨ (text.head?.any isSpace) then none
  else match Platform.stod text with
    | some (some score, consumed) => if consumed = text.length then some score else none
    | _ => none

/-- Scores of `ZADD` come before their members. -/
def parseEntries : List Bytes → Option (List (F × Bytes))
  | text :: member :: rest =>
    match parseScore text, parseEntries rest with
    | some score, some entries => some ((score, member) :: entries)
    | _, _ => none
  | _ => some []

def formatScore (score : F) : Bytes :=
  if score = Platform.ofRat 0 then ascii "0"
  else if Platform.isInf score then
    if score < Platform.ofRat 0 then ascii "-inf" else ascii "inf"
  else Platform.toChars score

namespace Keyspace

def notFloat : Bytes := errorReply (ascii "ERR value is not a valid float")

def setAt (ks : Keyspace F) (key : Bytes) : SortedSet F := ks.sortedSets.getD key {}

def handleZadd (clock : Readings) (args : List Bytes) (ks : Keyspace F) : Bytes × Keyspace F :=
  match args with
  | _ :: key :: rest =>
    if rest.length < 2 ∨ rest.length % 2 ≠ 0 then (arityError "zadd", ks)
    else match parseEntries (F := F) rest with
      | none => (notFloat, ks)
      | some entries =>
        checked (ks.wrongSortedSetType (clock 0) key) fun ks =>
          let r := SortedSet.addAll entries (ks.setAt key)
          ((integer r.1).toBytes, { ks with sortedSets := ks.sortedSets.insert key r.2 })
  | _ => (arityError "zadd", ks)

def zrankReply (key member : Bytes) (ks : Keyspace F) : Bytes :=
  match ks.sortedSets[key]? with
  | none => nullBulkString.toBytes
  | some set =>
    match set.scores[member]? with
    | none => nullBulkString.toBytes
    | some score => (integer (set.ordered.toList.idxOf (score, member))).toBytes

def handleZrank (clock : Readings) (args : List Bytes) (ks : Keyspace F) : Bytes × Keyspace F :=
  match args with
  | [_, key, member] =>
    checked (ks.wrongSortedSetType (clock 0) key) fun ks => (zrankReply key member ks, ks)
  | _ => (arityError "zrank", ks)

def zrangeReply (key : Bytes) (start stop : ℤ) (withScores : Bool) (ks : Keyspace F) : Bytes :=
  match ks.sortedSets[key]? with
  | none => (array []).toBytes
  | some set =>
    (array ((set.range start stop).flatMap fun e =>
      if withScores then [e.2, formatScore e.1] else [e.2])).toBytes

/-- `ZRANGE` once its options are known. -/
def zrange (clock : Readings) (key first last : Bytes) (withScores : Bool) (ks : Keyspace F) :
    Bytes × Keyspace F :=
  match fromCharsI64 first, fromCharsI64 last with
  | some start, some stop =>
    checked (ks.wrongSortedSetType (clock 0) key) fun ks =>
      (zrangeReply key start stop withScores ks, ks)
  | _, _ => (notInteger, ks)

def handleZrange (clock : Readings) (args : List Bytes) (ks : Keyspace F) : Bytes × Keyspace F :=
  match args with
  | [_, key, first, last] => zrange clock key first last false ks
  | [_, key, first, last, option] =>
    if toUpper option ≠ ascii "WITHSCORES" then (syntaxError, ks)
    else zrange clock key first last true ks
  | _ => (arityError "zrange", ks)

def zcardReply (key : Bytes) (ks : Keyspace F) : Bytes :=
  (integer (ks.setAt key).scores.size).toBytes

def handleZcard (clock : Readings) (args : List Bytes) (ks : Keyspace F) : Bytes × Keyspace F :=
  match args with
  | [_, key] => checked (ks.wrongSortedSetType (clock 0) key) fun ks => (zcardReply key ks, ks)
  | _ => (arityError "zcard", ks)

def zscoreReply (key member : Bytes) (ks : Keyspace F) : Bytes :=
  match ks.sortedSets[key]? with
  | none => nullBulkString.toBytes
  | some set =>
    match set.scores[member]? with
    | none => nullBulkString.toBytes
    | some score => (bulkString (formatScore score)).toBytes

def handleZscore (clock : Readings) (args : List Bytes) (ks : Keyspace F) : Bytes × Keyspace F :=
  match args with
  | [_, key, member] =>
    checked (ks.wrongSortedSetType (clock 0) key) fun ks => (zscoreReply key member ks, ks)
  | _ => (arityError "zscore", ks)

/-- The sorted set at a key after a removal: an empty set is deleted. -/
def storeSet (ks : Keyspace F) (key : Bytes) (set : SortedSet F) : Keyspace F :=
  { ks with sortedSets :=
      if set.scores.isEmpty then ks.sortedSets.erase key else ks.sortedSets.insert key set }

def handleZrem (clock : Readings) (args : List Bytes) (ks : Keyspace F) : Bytes × Keyspace F :=
  match args with
  | _ :: key :: member :: members =>
    checked (ks.wrongSortedSetType (clock 0) key) fun ks =>
      match ks.sortedSets[key]? with
      | none => ((integer 0).toBytes, ks)
      | some set =>
        let r := SortedSet.removeAll (member :: members) set
        ((integer r.1).toBytes, ks.storeSet key r.2)
  | _ => (arityError "zrem", ks)

@[simp] theorem isError_notFloat : isError notFloat = true := rfl

theorem handleZadd_cases (clock : Readings) (args : List Bytes) (ks : Keyspace F) :
    (isError (handleZadd clock args ks).1 = true ∧ Evicts clock ks (handleZadd clock args ks).2) ∨
    (∃ c key rest entries, args = c :: key :: rest ∧ parseEntries (F := F) rest = some entries ∧
      ¬(rest.length < 2 ∨ rest.length % 2 ≠ 0) ∧
      (ks.wrongSortedSetType (clock 0) key).1 = false ∧
      handleZadd clock args ks =
        let ks₁ := ks.evict (clock 0) key
        let r := SortedSet.addAll entries (ks₁.setAt key)
        ((integer r.1).toBytes, { ks₁ with sortedSets := ks₁.sortedSets.insert key r.2 })) := by
  unfold handleZadd
  split
  · rename_i c key rest
    split
    · exact .inl ⟨rfl, .refl _⟩
    · rename_i hf
      split
      · exact .inl ⟨rfl, .refl _⟩
      · rename_i entries he
        rcases checked_cases (ks.wrongSortedSetType (clock 0) key) _ with ⟨-, h⟩ | ⟨hw, h⟩
        · rw [h]
          exact .inl ⟨rfl, wrongSortedSetType_snd ks _ key ▸ .single clock ks 0 key⟩
        · rw [h, wrongSortedSetType_snd]
          exact .inr ⟨c, key, rest, entries, rfl, he, hf, hw, rfl⟩
  · exact .inl ⟨rfl, .refl _⟩

theorem handleZrem_cases (clock : Readings) (args : List Bytes) (ks : Keyspace F) :
    (isError (handleZrem clock args ks).1 = true ∧ Evicts clock ks (handleZrem clock args ks).2) ∨
    (∃ c key m ms, args = c :: key :: m :: ms ∧
      (ks.wrongSortedSetType (clock 0) key).1 = false ∧ ks.sortedSets[key]? = none ∧
      handleZrem clock args ks = ((integer 0).toBytes, ks.evict (clock 0) key)) ∨
    (∃ c key m ms set, args = c :: key :: m :: ms ∧
      (ks.wrongSortedSetType (clock 0) key).1 = false ∧ ks.sortedSets[key]? = some set ∧
      handleZrem clock args ks =
        let r := SortedSet.removeAll (m :: ms) set
        ((integer r.1).toBytes, (ks.evict (clock 0) key).storeSet key r.2)) := by
  unfold handleZrem
  split
  · rename_i c key m ms
    rcases checked_cases (ks.wrongSortedSetType (clock 0) key) _ with ⟨-, h⟩ | ⟨hw, h⟩
    · rw [h]
      exact .inl ⟨rfl, wrongSortedSetType_snd ks _ key ▸ .single clock ks 0 key⟩
    · rw [h, wrongSortedSetType_snd, evict_sortedSets]
      split
      · rename_i hn
        exact .inr (.inl ⟨c, key, m, ms, rfl, hw, hn, rfl⟩)
      · rename_i set hs
        exact .inr (.inr ⟨c, key, m, ms, set, rfl, hw, hs, rfl⟩)
  · exact .inl ⟨rfl, .refl _⟩

theorem evicts_handleZrank (clock : Readings) (args : List Bytes) (ks : Keyspace F) :
    Evicts clock ks (handleZrank clock args ks).2 := by
  unfold handleZrank
  split
  · exact evicts_checked (wrongSortedSetType_snd ..) _
  · exact .refl _

theorem evicts_zrange (clock : Readings) (key first last : Bytes) (withScores : Bool)
    (ks : Keyspace F) : Evicts clock ks (zrange clock key first last withScores ks).2 := by
  unfold zrange
  split
  · exact evicts_checked (wrongSortedSetType_snd ..) _
  · exact .refl _

theorem evicts_handleZrange (clock : Readings) (args : List Bytes) (ks : Keyspace F) :
    Evicts clock ks (handleZrange clock args ks).2 := by
  unfold handleZrange
  split
  · exact evicts_zrange ..
  · split
    · exact .refl _
    · exact evicts_zrange ..
  · exact .refl _

theorem evicts_handleZcard (clock : Readings) (args : List Bytes) (ks : Keyspace F) :
    Evicts clock ks (handleZcard clock args ks).2 := by
  unfold handleZcard
  split
  · exact evicts_checked (wrongSortedSetType_snd ..) _
  · exact .refl _

theorem evicts_handleZscore (clock : Readings) (args : List Bytes) (ks : Keyspace F) :
    Evicts clock ks (handleZscore clock args ks).2 := by
  unfold handleZscore
  split
  · exact evicts_checked (wrongSortedSetType_snd ..) _
  · exact .refl _

end Keyspace

end TrueStore
