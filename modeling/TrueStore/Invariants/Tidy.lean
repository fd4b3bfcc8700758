import TrueStore.Server.Runs
import TrueStore.Store.Loading

/-! # No empty containers, no orphan deadlines

The type of a key, its existence and the listing of keys are read off the containers, so a
container without elements must not stay behind a removal, and a deadline must not outlive its
string.
-/

namespace TrueStore

open RespType

variable {F : Type} [Platform F]

namespace Keyspace

/-- Lists, streams and sorted sets have elements, and only strings have deadlines. -/
structure Tidy (ks : Keyspace F) : Prop where
  lists : ∀ (key : Bytes) (list : List Bytes), ks.dynamicVector[key]? = some list → list ≠ []
  streams : ∀ (key : Bytes) (stream : Stream), ks.streams[key]? = some stream →
    stream.tree.isEmpty = false
  sets : ∀ (key : Bytes) (set : SortedSet F), ks.sortedSets[key]? = some set →
    set.scores.isEmpty = false
  deadlines : ∀ key : Bytes, ks.expirations.contains key = true → ks.storage.contains key = true

theorem tidy_empty : ({} : Keyspace F).Tidy where
  lists key list h := by simp at h
  streams key stream h := by simp at h
  sets key set h := by simp at h
  deadlines key h := by simp at h

theorem forall_insert {V : Type} {P : V → Prop} {m : Map V}
    (h : ∀ (key : Bytes) (v : V), m[key]? = some v → P v) (key : Bytes) {v : V} (hv : P v) :
    ∀ (k : Bytes) (w : V), (m.insert key v)[k]? = some w → P w := by
  intro k w hk
  rw [Std.ExtTreeMap.getElem?_insert] at hk
  split at hk
  · cases hk
    exact hv
  · exact h k w hk

theorem forall_erase {V : Type} {P : V → Prop} {m : Map V}
    (h : ∀ (key : Bytes) (v : V), m[key]? = some v → P v) (key : Bytes) :
    ∀ (k : Bytes) (w : V), (m.erase key)[k]? = some w → P w := by
  intro k w hk
  rw [Std.ExtTreeMap.getElem?_erase] at hk
  split at hk
  · cases hk
  · exact h k w hk

namespace Tidy

variable {ks : Keyspace F} (h : ks.Tidy)
include h

theorem evict (clock : Clock) (key : Bytes) : (ks.evict clock key).Tidy where
  lists := by rw [evict_dynamicVector]; exact h.lists
  streams := by rw [evict_streams]; exact h.streams
  sets := by rw [evict_sortedSets]; exact h.sets
  deadlines k hk := by
    rcases evict_cases ks clock key with he | he <;> rw [he] at hk ⊢
    · exact h.deadlines k hk
    · simp only [Std.ExtTreeMap.contains_erase, Bool.and_eq_true] at hk ⊢
      exact ⟨hk.1, h.deadlines k hk.2⟩

theorem evicts {clock : Readings} {ks' : Keyspace F} (he : Evicts clock ks ks') : ks'.Tidy :=
  he.preserves (fun _ _ key hks => hks.evict _ key) h

theorem string (key value : Bytes) : Tidy { ks with storage := ks.storage.insert key value } where
  lists := h.lists
  streams := h.streams
  sets := h.sets
  deadlines k hk := by
    rw [Std.ExtTreeMap.contains_insert, h.deadlines k hk, Bool.or_true]

theorem deadline (key value : Bytes) (t : ℤ) :
    Tidy { ks with
      expirations := ks.expirations.insert key t
      storage := ks.storage.insert key value } where
  lists := h.lists
  streams := h.streams
  sets := h.sets
  deadlines k hk := by
    simp only [Std.ExtTreeMap.contains_insert, Bool.or_eq_true] at hk ⊢
    exact hk.imp_right (h.deadlines k)

theorem list (key : Bytes) {list : List Bytes} (hl : list ≠ []) :
    Tidy { ks with dynamicVector := ks.dynamicVector.insert key list } where
  lists := forall_insert h.lists key hl
  streams := h.streams
  sets := h.sets
  deadlines := h.deadlines

theorem stream (key : Bytes) {stream : Stream} (hs : stream.tree.isEmpty = false) :
    Tidy { ks with streams := ks.streams.insert key stream } where
  lists := h.lists
  streams := forall_insert h.streams key hs
  sets := h.sets
  deadlines := h.deadlines

theorem set (key : Bytes) {set : SortedSet F} (hs : set.scores.isEmpty = false) :
    Tidy { ks with sortedSets := ks.sortedSets.insert key set } where
  lists := h.lists
  streams := h.streams
  sets := forall_insert h.sets key hs
  deadlines := h.deadlines

theorem storeList (key : Bytes) (list : List Bytes) : (ks.storeList key list).Tidy := by
  unfold Keyspace.storeList
  split
  · exact ⟨forall_erase h.lists key, h.streams, h.sets, h.deadlines⟩
  · rename_i hl
    exact h.list key hl

theorem storeSet (key : Bytes) (set : SortedSet F) : (ks.storeSet key set).Tidy := by
  unfold Keyspace.storeSet
  split
  · exact ⟨h.lists, h.streams, forall_erase h.sets key, h.deadlines⟩
  · rename_i hs
    exact h.set key (by simpa using hs)

theorem eraseOthers (key : Bytes) : (ks.eraseOthers key).Tidy where
  lists := forall_erase h.lists key
  streams := forall_erase h.streams key
  sets := forall_erase h.sets key
  deadlines := h.deadlines

theorem assignForever (key value : Bytes) : (ks.assignForever key value).Tidy where
  lists := forall_erase h.lists key
  streams := forall_erase h.streams key
  sets := forall_erase h.sets key
  deadlines k hk := by
    simp only [Keyspace.assignForever, Std.ExtTreeMap.contains_erase, Bool.and_eq_true] at hk
    exact ((h.eraseOthers key).string key value).deadlines k hk.2

theorem assignUntil (key value : Bytes) (t : ℤ) : (ks.assignUntil key value t).Tidy :=
  (h.eraseOthers key).deadline key value t

/-- `BITOP` with an empty result deletes the string together with its deadline. -/
theorem storeBits (key result : Bytes) : (ks.storeBits key result).Tidy where
  lists := forall_erase h.lists key
  streams := forall_erase h.streams key
  sets := forall_erase h.sets key
  deadlines k hk := by
    simp only [Keyspace.storeBits, Std.ExtTreeMap.contains_erase, Bool.and_eq_true] at hk ⊢
    split
    · rw [Std.ExtTreeMap.contains_erase, Bool.and_eq_true]
      exact ⟨hk.1, h.deadlines k hk.2⟩
    · rw [Std.ExtTreeMap.contains_insert, h.deadlines k hk.2, Bool.or_true]

end Tidy

theorem Tidy.setAt {ks : Keyspace F} (h : ks.Tidy) {key : Bytes}
    (hkey : ks.sortedSets.contains key = true) : (ks.setAt key).scores.isEmpty = false := by
  rw [Std.ExtTreeMap.contains_eq_isSome_getElem?, Option.isSome_iff_exists] at hkey
  obtain ⟨set, hs⟩ := hkey
  rw [Keyspace.setAt, Std.ExtTreeMap.getD_eq_getD_getElem?, hs]
  exact h.sets key set hs

theorem isEmpty_add (set : SortedSet F) (score : F) (member : Bytes) :
    (set.add score member).2.scores.isEmpty = false := by
  unfold SortedSet.add
  split <;> simp

theorem isEmpty_addAll {entries : List (F × Bytes)} (h : entries ≠ []) (set : SortedSet F) :
    (SortedSet.addAll entries set).2.scores.isEmpty = false := by
  induction entries generalizing set with
  | nil => exact absurd rfl h
  | cons e entries ih =>
    rw [SortedSet.addAll]
    by_cases hnil : entries = []
    · subst hnil
      exact isEmpty_add ..
    · exact ih hnil _

theorem isEmpty_addPoints_of_nonempty (o : Geo.AddOptions) (entries : List (F × Bytes))
    {set : SortedSet F} (h : set.scores.isEmpty = false) :
    (Geo.addPoints o entries set).2.2.scores.isEmpty = false := by
  induction entries generalizing set with
  | nil => exact h
  | cons e entries ih =>
    unfold Geo.addPoints
    split
    · exact ih h
    · exact ih (isEmpty_add ..)

/-- Without `XX` the first point is added to an empty set, whatever the other options. -/
theorem isEmpty_addPoints {o : Geo.AddOptions} {entries : List (F × Bytes)} (hne : entries ≠ [])
    {set : SortedSet F} (h : o.xx = true → set.scores.isEmpty = false) :
    (Geo.addPoints o entries set).2.2.scores.isEmpty = false := by
  by_cases hset : set.scores.isEmpty = false
  · exact isEmpty_addPoints_of_nonempty o entries hset
  · obtain ⟨e, entries, rfl⟩ := List.exists_cons_of_ne_nil hne
    have hxx : o.xx = false := by
      by_contra hc
      exact hset (h (by simpa using hc))
    have hscores : set.scores = ∅ := Std.ExtTreeMap.isEmpty_iff.mp (by simpa using hset)
    unfold Geo.addPoints
    rw [if_neg (by simp [hxx, hscores])]
    exact isEmpty_addPoints_of_nonempty o entries (isEmpty_add ..)

theorem Tidy.addGeo {ks : Keyspace F} (h : ks.Tidy) (o : Geo.AddOptions) (key : Bytes)
    {entries : List (F × Bytes)} (hne : entries ≠ []) : (Keyspace.addGeo o key entries ks).2.Tidy := by
  unfold Keyspace.addGeo
  split
  · exact h
  · rename_i hx
    refine h.set key (isEmpty_addPoints hne fun hxx => h.setAt ?_)
    by_contra hc
    rw [Bool.not_eq_true] at hc
    exact hx ⟨hxx, by rw [hc]; rfl⟩

theorem parseEntries_ne_nil {rest : List Bytes} {entries : List (F × Bytes)}
    (h : parseEntries (F := F) rest = some entries) (hlen : 2 ≤ rest.length) : entries ≠ [] := by
  rcases rest with - | ⟨text, - | ⟨member, rest⟩⟩
  · simp at hlen
  · simp at hlen
  · unfold parseEntries at h
    split at h
    · cases h
      simp
    · cases h

theorem parsePoints_ne_nil {rest : List Bytes} {entries : List (F × Bytes)}
    (h : Geo.parsePoints (F := F) rest = .ok entries) (hlen : 3 ≤ rest.length) : entries ≠ [] := by
  rcases rest with - | ⟨longitude, - | ⟨latitude, - | ⟨member, rest⟩⟩⟩
  · simp at hlen
  · simp at hlen
  · simp at hlen
  · unfold Geo.parsePoints at h
    split at h
    · cases h
    · split at h
      · cases h
      · cases h
        simp

end Keyspace

open Keyspace

theorem DataCommand.tidy_handle (command : DataCommand) (clock : Readings) (args : List Bytes)
    {ks : Keyspace F} (h : ks.Tidy) : (command.handle clock args ks).2.Tidy := by
  by_cases hw : command.isWrite = false
  · exact h.evicts ((command.outcome_handle clock args ks).evicts_of_not_isWrite hw)
  cases command with
  | zadd =>
    rcases handleZadd_cases clock args ks with ⟨-, he⟩ | ⟨_, key, rest, entries, -, hp, hlen, -, he⟩
    · exact h.evicts he
    · simp only [handle, he]
      have hne := parseEntries_ne_nil hp (by omega)
      exact (h.evict (clock 0) key).set key (isEmpty_addAll hne _)
  | zrem =>
    rcases handleZrem_cases clock args ks with ⟨-, he⟩ | ⟨_, key, _, _, -, -, -, he⟩ |
      ⟨_, key, _, _, _, -, -, -, he⟩
    · exact h.evicts he
    · simp only [handle, he]
      exact h.evict _ key
    · simp only [handle, he]
      exact (h.evict _ key).storeSet key _
  | geoadd =>
    rcases handleGeoadd_cases clock args ks with ⟨-, he⟩ | ⟨_, key, rest, entries, -, -, ho, hp, -, he⟩
    · exact h.evicts he
    · simp only [handle, he]
      have hlen : 3 ≤ (Geo.addOptions {} rest).2.length := by
        by_contra hc
        refine ho (Or.inr ?_)
        rcases hn : (Geo.addOptions {} rest).2 with - | ⟨a, - | ⟨b, l⟩⟩
        · exact Or.inl rfl
        · exact Or.inr (by simp)
        · rw [hn] at hc
          rcases l with - | ⟨c, l⟩
          · exact Or.inr (by simp)
          · simp at hc
      exact (h.evict (clock 0) key).addGeo _ key (parsePoints_ne_nil hp hlen)
  | set =>
    rcases handleSet_cases clock args ks with ⟨-, he⟩ | ⟨_, key, value, -, he⟩ |
      ⟨_, key, value, _, _, -, t, he⟩ <;> simp only [handle, he]
    · exact h
    · exact h.assignForever key value
    · exact h.assignUntil key value t
  | incr =>
    rcases handleIncr_cases args ks with ⟨-, he⟩ | ⟨_, key, n, -, -, he⟩ <;> simp only [handle, he]
    · exact h
    · exact h.string key _
  | setbit =>
    rcases handleSetbit_cases clock args ks with ⟨-, he⟩ | ⟨_, key, _, _, offset, -, -, -, -, he⟩
    · exact h.evicts he
    · simp only [handle, he]
      exact (h.evict _ key).string key _
  | bitop =>
    rcases handleBitop_cases clock args ks with ⟨-, he⟩ |
      ⟨_, _, dest, src, srcs, op, vs, -, -, -, -, he⟩
    · exact h.evicts he
    · simp only [handle, he]
      exact (h.evicts (evicts_bitopSources (src :: srcs) clock ks)).storeBits dest _
  | rpush =>
    rcases handleRpush_cases args ks with ⟨-, he⟩ | ⟨_, key, _, _, -, he⟩ <;> simp only [handle, he]
    · exact h
    · exact h.list key (by simp)
  | lpush =>
    rcases handleLpush_cases args ks with ⟨-, he⟩ | ⟨_, key, _, _, -, he⟩ <;> simp only [handle, he]
    · exact h
    · exact h.list key (by simp)
  | lpop =>
    rcases handleLpop_cases args ks with he | ⟨_, key, _, n, -, -, -, he⟩ <;> simp only [handle, he]
    · exact h
    · exact h.storeList key _
  | xadd =>
    rcases handleXadd_cases clock args ks with ⟨-, he⟩ | ⟨_, key, _, _, id, stream, -, -, hi, he⟩ <;>
      simp only [handle, he]
    · exact h
    · refine h.stream key ?_
      unfold Stream.insert at hi
      split at hi
      · cases hi
      · split at hi
        · cases hi
        · cases hi
          simp
  | _ => exact absurd rfl hw

theorem DataCommand.tidy_dispatch (command : DataCommand) (clock : Readings) (args : List Bytes)
    {ks : Keyspace F} (h : ks.Tidy) : (command.dispatch clock args ks).2.Tidy := by
  rcases command.dispatch_cases clock args ks with ⟨-, he⟩ | ⟨_, key, _, -, -, ⟨-, he⟩ | ⟨-, he⟩⟩ <;>
    rw [he]
  · exact command.tidy_handle clock args h
  · exact h.evict _ key
  · exact command.tidy_handle clock.later args (h.evict _ key)

theorem Call.tidy_result {c : Call F} (h : c.data.Tidy) : c.result.2.Tidy := by
  cases c with
  | pop data key => exact DataCommand.tidy_handle .lpop (fun _ => ⟨0, 0⟩) [ascii "LPOP", key] h
  | run clock data args =>
    simp only [Call.result, execute]
    split
    · exact DataCommand.tidy_dispatch _ clock args h
    · exact h

theorem Chain.tidy {ks ks' : Keyspace F} {calls : List (Call F)} (hchain : Chain ks calls ks')
    (h : ks.Tidy) : ks'.Tidy := by
  induction hchain with
  | nil => exact h
  | evict clock key _ ih => exact ih (h.evict clock key)
  | call c hc _ ih =>
    subst hc
    exact ih (Call.tidy_result h)

namespace Keyspace

theorem Tidy.loadEntry {ks : Keyspace F} (h : ks.Tidy) (systemNow steadyNow : ℤ)
    (entry : Rdb.Entry) : (ks.loadEntry systemNow steadyNow entry).Tidy := by
  unfold Keyspace.loadEntry
  split
  · exact h.string _ _
  · dsimp only
    split
    · exact h
    · exact h.deadline _ _ _

theorem Tidy.loadEntries {ks : Keyspace F} (h : ks.Tidy) (systemNow steadyNow : ℤ)
    (entries : List Rdb.Entry) : (ks.loadEntries systemNow steadyNow entries).Tidy := by
  induction entries generalizing ks with
  | nil => exact h
  | cons entry entries ih => exact ih (h.loadEntry systemNow steadyNow entry)

end Keyspace

namespace Server

/-- `Server::start` with a snapshot: the entries go into the store before the first client. -/
def restore (systemNow steadyNow : ℤ) (entries : List Rdb.Entry) (s : Server F) : Server F :=
  { s with store := { s.store with
      toKeyspace := s.store.toKeyspace.loadEntries systemNow steadyNow entries } }

theorem loggedFrom_restore (config : Config) (replid : ReplId) (link : Option (ℤ × ℤ))
    (systemNow steadyNow : ℤ) (entries : List Rdb.Entry) :
    LoggedFrom (({} : Keyspace F).loadEntries systemNow steadyNow entries) Anything Always
      ((boot config replid link).restore systemNow steadyNow entries) := by
  have h : (boot config replid link : Server F).Logged Anything Always :=
    logged_boot config replid link
  have hdata : (boot config replid link : Server F).store.toKeyspace = {} := by cases link <;> rfl
  have hcalls : (boot config replid link : Server F).calls = [] := by cases link <;> rfl
  refine ⟨?_, h.fits, h.log, h.settled.block, h.settled.pending, h.settled.asks.congr rfl rfl⟩
  change Chain _ (boot config replid link : Server F).calls
    ((boot config replid link : Server F).store.toKeyspace.loadEntries _ _ _)
  rw [hdata, hcalls]
  exact .nil _

/-- No empty list, stream or sorted set and no deadline without a string, in any state that a
server reaches from a snapshot. -/
theorem tidy_run (config : Config) (replid : ReplId) (link : Option (ℤ × ℤ))
    (systemNow steadyNow : ℤ) (entries : List Rdb.Entry) (events : List (Env × Event)) :
    (run events ((boot config replid link : Server F).restore systemNow steadyNow
      entries)).store.Tidy :=
  (run_preserves (fun _ env event h => h.step env event) events
    (loggedFrom_restore config replid link systemNow steadyNow entries)).chain.tidy
    (tidy_empty.loadEntries systemNow steadyNow entries)

end Server

end TrueStore
