import TrueStore.Aof.Replay
import TrueStore.Stream.Order

/-! # Where a replay may drift

A log records commands, not their effects, so a replay at another time need not lead to the same
data: strings with a deadline may have expired at other moments, and automatic stream IDs differ.
The drift of a run says which keys are concerned. Away from them the replayed data are the live
ones, and this is enough for a replay to succeed as long as no later write depends on the drift.
-/

namespace TrueStore

open RespType

variable {F : Type} [Platform F]

/-- What two executions of the same writes at different times may disagree on. -/
structure Drift where
  /-- The keys with a string that may be absent in one of them, and whether every string that
  they can hold is a number. -/
  strings : Map Bool := ∅
  /-- The streams with automatic IDs. -/
  streams : Std.ExtTreeSet Bytes := ∅
  /-- The number of writes. -/
  writes : ℕ := 0

namespace Drift

/-- The drift after one more write. -/
def after (d : Drift) (args : List Bytes) : Drift :=
  let d := { d with writes := d.writes + 1 }
  match dataCommand args, args with
  | some .set, [_, key, _] =>
    { d with strings := d.strings.erase key, streams := d.streams.erase key }
  | some .set, [_, key, value, _, _] =>
    { d with
      strings := d.strings.insert key (stoi value).isSome
      streams := d.streams.erase key }
  | some .setbit, _ :: key :: _ =>
    { d with strings := if d.strings.contains key then d.strings.insert key false else d.strings }
  | some .bitop, _ :: _ :: dest :: sources =>
    { d with
      strings :=
        if sources.any (d.strings.contains ·) then d.strings.insert dest false
        else d.strings.erase dest
      streams := d.streams.erase dest }
  | some .xadd, _ :: key :: id :: _ =>
    { d with streams := if id = Stream.autoId then d.streams.insert key else d.streams }
  | _, _ => d

def decides (d : Drift) (ks : Keyspace F) (key : Bytes) : Bool :=
  !d.strings.contains key || !(ks.dynamicVector.contains key || ks.streams.contains key)

def safe (d : Drift) (ks : Keyspace F) (args : List Bytes) : Bool :=
  match dataCommand args, args with
  | some .zadd, _ :: key :: _ | some .zrem, _ :: key :: _ | some .geoadd, _ :: key :: _ =>
    !d.strings.contains key
  | some .incr, _ :: key :: _ => d.strings[key]? ≠ some false
  | some .setbit, _ :: key :: _ => d.decides ks key
  | some .bitop, _ :: _ :: _ :: sources => sources.all (d.decides ks)
  | some .xadd, _ :: key :: id :: _ => id = Stream.autoId || !d.streams.contains key
  | _, _ => true

end Drift

def asksAuto (args : List Bytes) : Prop :=
  dataCommand args = some .xadd ∧ ∃ c key fields, args = c :: key :: Stream.autoId :: fields

/-- The data of a replay agree with the live data up to the drift. -/
structure Sim (d : Drift) (live again : Keyspace F) : Prop where
  lists : again.dynamicVector = live.dynamicVector
  sets : again.sortedSets = live.sortedSets
  strings : ∀ key : Bytes, d.strings.contains key = false →
    again.storage[key]? = live.storage[key]? ∧ live.expirations[key]? = none ∧
      again.expirations[key]? = none
  numbers : ∀ key : Bytes, d.strings[key]? = some true → ∀ value, again.storage[key]? = some value →
    (stoi value).isSome = true
  unset : ∀ key : Bytes, d.strings.contains key = true → live.sortedSets[key]? = none
  streams : ∀ key : Bytes, d.streams.contains key = false → again.streams[key]? = live.streams[key]?
  auto : ∀ key : Bytes, d.streams.contains key = true → ∃ s s' m m', live.streams[key]? = some s ∧
    again.streams[key]? = some s' ∧ s.maxId = some m ∧ s'.maxId = some m' ∧
    Stream.Ahead d.writes m m'
  ordered : ∀ (key : Bytes) (s : Stream), again.streams[key]? = some s → s.Ordered

namespace Sim

open Keyspace

variable {d : Drift} {live again : Keyspace F}

theorem empty : Sim {} ({} : Keyspace F) {} where
  lists := rfl
  sets := rfl
  strings key _ := by simp
  numbers key h := by simp at h
  unset key h := by simp at h
  streams key _ := rfl
  auto key h := by simp at h
  ordered key s h := by simp at h

theorem evict_getElem? (ks : Keyspace F) (clock : Clock) (key k : Bytes)
    (h : ks.expirations[k]? = none) :
    (ks.evict clock key).storage[k]? = ks.storage[k]? ∧
      (ks.evict clock key).expirations[k]? = none := by
  unfold evict isExpired
  split
  · exact ⟨rfl, h⟩
  · rename_i deadline hd
    have hne : key ≠ k := by
      rintro rfl
      rw [h] at hd
      cases hd
    split
    · simp [Std.ExtTreeMap.getElem?_erase, hne, h]
    · exact ⟨rfl, h⟩

theorem evict_storage_some {ks : Keyspace F} {clock : Clock} {key k value : Bytes}
    (h : (ks.evict clock key).storage[k]? = some value) : ks.storage[k]? = some value := by
  rcases evict_cases ks clock key with he | he <;> rw [he] at h
  · exact h
  · simp only [Std.ExtTreeMap.getElem?_erase] at h
    split at h
    · cases h
    · exact h

theorem evict_live (h : Sim d live again) (clock : Clock) (key : Bytes) :
    Sim d (live.evict clock key) again where
  lists := by rw [h.lists, evict_dynamicVector]
  sets := by rw [h.sets, evict_sortedSets]
  strings k hk := by
    obtain ⟨hs, hl, ha⟩ := h.strings k hk
    obtain ⟨hs', hl'⟩ := evict_getElem? live clock key k hl
    exact ⟨hs.trans hs'.symm, hl', ha⟩
  numbers := h.numbers
  unset k hk := by rw [evict_sortedSets]; exact h.unset k hk
  streams k hk := by rw [evict_streams]; exact h.streams k hk
  auto k hk := by rw [evict_streams]; exact h.auto k hk
  ordered := h.ordered

theorem evict_again (h : Sim d live again) (clock : Clock) (key : Bytes) :
    Sim d live (again.evict clock key) where
  lists := by rw [evict_dynamicVector, h.lists]
  sets := by rw [evict_sortedSets, h.sets]
  strings k hk := by
    obtain ⟨hs, hl, ha⟩ := h.strings k hk
    obtain ⟨hs', ha'⟩ := evict_getElem? again clock key k ha
    exact ⟨hs'.trans hs, hl, ha'⟩
  numbers k hk value hv := h.numbers k hk value (evict_storage_some hv)
  unset := h.unset
  streams k hk := by rw [evict_streams]; exact h.streams k hk
  auto k hk := by rw [evict_streams]; exact h.auto k hk
  ordered k s hs := h.ordered k s (by rwa [evict_streams] at hs)

theorem evicts_live (h : Sim d live again) {clock : Readings} {live' : Keyspace F}
    (he : Evicts clock live live') : Sim d live' again :=
  he.preserves (P := fun ks => Sim d ks again) (fun _ i key h => h.evict_live (clock i) key) h

theorem contains_streams (h : Sim d live again) (key : Bytes) :
    again.streams.contains key = live.streams.contains key := by
  simp only [Std.ExtTreeMap.contains_eq_isSome_getElem?]
  cases hk : d.streams.contains key with
  | false => rw [h.streams key hk]
  | true =>
    obtain ⟨s, s', m, m', hs, hs', -⟩ := h.auto key hk
    rw [hs, hs']
    rfl

theorem keyType_eq (h : Sim d live again) {key : Bytes} (hk : d.strings.contains key = false)
    (clock clock' : Clock) : (again.keyType clock' key).1 = (live.keyType clock key).1 := by
  obtain ⟨hs, hl, ha⟩ := h.strings key hk
  have hstring : again.storage.contains key = live.storage.contains key := by
    simp only [Std.ExtTreeMap.contains_eq_isSome_getElem?, hs]
  simp only [keyType, isExpired, hl, ha, Bool.false_eq_true, if_false, typeOf, hstring, h.lists,
    h.contains_streams key, h.sets]

theorem typeOf_ne_zset {ks : Keyspace F} {key : Bytes} (h : ks.sortedSets[key]? = none) :
    ks.typeOf key ≠ .zset := by
  unfold typeOf
  simp only [Std.ExtTreeMap.contains_eq_isSome_getElem?, h, Option.isSome_none,
    Bool.false_eq_true, if_false]
  repeat' split
  all_goals simp

theorem keyType_ne_zset {ks : Keyspace F} {key : Bytes} (h : ks.sortedSets[key]? = none)
    (clock : Clock) : (ks.keyType clock key).1 ≠ .zset := by
  unfold keyType
  dsimp only
  split
  · simp
  · exact typeOf_ne_zset (by rw [isExpired_snd, evict_sortedSets]; exact h)

/-- The dispatcher refuses a key in the replay only if it would refuse it now. -/
theorem again_ne_zset (h : Sim d live again) {key : Bytes} {clock : Clock}
    (hz : (live.keyType clock key).1 ≠ .zset) (clock' : Clock) :
    (again.keyType clock' key).1 ≠ .zset := by
  cases hk : d.strings.contains key with
  | false => rwa [h.keyType_eq hk clock]
  | true => exact keyType_ne_zset (by rw [h.sets]; exact h.unset key hk) clock'

theorem again_wrongSortedSetType (h : Sim d live again) {key : Bytes}
    (hk : d.strings.contains key = false) {clock : Clock}
    (hz : (live.wrongSortedSetType clock key).1 = false) (clock' : Clock) :
    (again.wrongSortedSetType clock' key).1 = false := by
  simp only [wrongSortedSetType] at hz ⊢
  rwa [h.keyType_eq hk clock]

theorem again_wrongStringType (h : Sim d live again) {key : Bytes}
    (hk : d.decides live key = true) {clock : Clock}
    (hz : (live.wrongStringType clock key).1 = false) (clock' : Clock) :
    (again.wrongStringType clock' key).1 = false := by
  simp only [wrongStringType] at hz ⊢
  cases hc : d.strings.contains key with
  | false => rwa [h.keyType_eq hc clock]
  | true =>
    simp only [Drift.decides, hc, Bool.not_true, Bool.false_or, Bool.not_eq_true',
      Bool.or_eq_false_iff] at hk
    have hzset := h.unset key hc
    unfold keyType
    dsimp only
    split
    · simp
    · simp only [isExpired_snd, typeOf, evict_dynamicVector, evict_streams, evict_sortedSets,
        h.lists, h.contains_streams key, h.sets, hk.1, hk.2,
        Std.ExtTreeMap.contains_eq_isSome_getElem?, hzset]
      split <;> simp

end Sim

end TrueStore
