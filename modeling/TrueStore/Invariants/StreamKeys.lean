import TrueStore.Command.Collections
import TrueStore.Invariants.KeyTypes

/-! # Keys of streams and keys of sorted sets

`ZADD` and `GEOADD` refuse the key of a stream, and `XADD` refuses the key of a sorted set. The
checks look past an expired string only once it is gone, so they are reliable at a key without a
deadline. A key that nothing overwrites has none, and never holds both a stream and a sorted set.
-/

namespace TrueStore

open RespType

variable {F : Type} [Platform F]

namespace Keyspace

/-- The key has no deadline, and a sorted set at the key is all that it holds. -/
structure SetAlone (key : Bytes) (ks : Keyspace F) : Prop where
  forever : ks.expirations.contains key = false
  alone : ks.sortedSets.contains key = true → ks.typeOf key = .zset

theorem setAlone_empty (key : Bytes) : SetAlone key ({} : Keyspace F) where
  forever := by simp
  alone h := by simp at h

namespace SetAlone

variable {key : Bytes} {ks ks' : Keyspace F}

theorem congr (h : SetAlone key ks)
    (hforever : ks'.expirations.contains key = ks.expirations.contains key)
    (hholds : ∀ a, ks'.holds a key = ks.holds a key) : SetAlone key ks' where
  forever := hforever.trans h.forever
  alone hz := by
    have hstring : ks'.storage.contains key = ks.storage.contains key := hholds .string
    have hlist : ks'.dynamicVector.contains key = ks.dynamicVector.contains key := hholds .list
    have hstream : ks'.streams.contains key = ks.streams.contains key := hholds .stream
    have hset : ks'.sortedSets.contains key = ks.sortedSets.contains key := hholds .zset
    unfold typeOf
    rw [hstring, hlist, hstream, hset]
    exact h.alone (hset.symm.trans hz)

theorem without_set (hforever : ks.expirations.contains key = false)
    (hz : ks.sortedSets.contains key = false) : SetAlone key ks where
  forever := hforever
  alone h := by rw [hz] at h; cases h

theorem sortedSets_of_typeOf (h : SetAlone key ks) (ht : ks.typeOf key ≠ .zset) :
    ks.sortedSets.contains key = false := by
  by_contra hz
  exact ht (h.alone (by simpa using hz))

theorem isExpired_self (h : SetAlone key ks) (clock : Clock) :
    ks.isExpired clock key = (false, ks) := by
  have hnone : ks.expirations[key]? = none :=
    Std.ExtTreeMap.getElem?_eq_none_of_contains_eq_false h.forever
  simp only [isExpired, hnone]

theorem evict_self (h : SetAlone key ks) (clock : Clock) : ks.evict clock key = ks := by
  rw [Keyspace.evict, h.isExpired_self]

theorem keyType_self (h : SetAlone key ks) (clock : Clock) :
    (ks.keyType clock key).1 = ks.typeOf key := by
  unfold keyType
  rw [h.isExpired_self]
  rfl

theorem evict (h : SetAlone key ks) (clock : Clock) (k : Bytes) :
    SetAlone key (ks.evict clock k) := by
  by_cases hk : k = key
  · subst hk
    rw [h.evict_self]
    exact h
  · rcases evict_cases ks clock k with he | he <;> rw [he]
    · exact h
    · refine h.congr ?_ fun a => ?_
      · simp [hk]
      · cases a <;> simp [holds, hk]

theorem of_evicts {clock : Readings} (h : SetAlone key ks) (he : Evicts clock ks ks') :
    SetAlone key ks' :=
  he.preserves (fun _ i k h' => h'.evict (clock i) k) h

theorem insertSet (h : SetAlone key ks) {k : Bytes}
    (hk : k = key → ks.typeOf key = .none ∨ ks.typeOf key = .zset) (set : SortedSet F) :
    SetAlone key { ks with sortedSets := ks.sortedSets.insert k set } := by
  by_cases hkey : k = key
  · subst hkey
    refine ⟨h.forever, fun _ => ?_⟩
    have ht := hk rfl
    unfold typeOf at ht ⊢
    grind
  · refine h.congr rfl fun a => ?_
    cases a <;> simp [holds, hkey]

theorem storeSet (h : SetAlone key ks) {k : Bytes}
    (hk : k = key → ks.typeOf key = .none ∨ ks.typeOf key = .zset) (set : SortedSet F) :
    SetAlone key (ks.storeSet k set) := by
  unfold Keyspace.storeSet
  split
  · by_cases hkey : k = key
    · subst hkey
      exact without_set h.forever (by simp)
    · refine h.congr rfl fun a => ?_
      cases a <;> simp [holds, hkey]
  · exact h.insertSet hk set

theorem insertOther (h : SetAlone key ks) {k : Bytes} (hk : k = key → ks.typeOf key ≠ .zset)
    (hforever : ks'.expirations = ks.expirations) (hsets : ks'.sortedSets = ks.sortedSets)
    (hother : k ≠ key → ∀ a, ks'.holds a key = ks.holds a key) : SetAlone key ks' := by
  by_cases hkey : k = key
  · refine without_set (hforever ▸ h.forever) ?_
    rw [hsets]
    exact h.sortedSets_of_typeOf (hk hkey)
  · exact h.congr (by rw [hforever]) (hother hkey)

theorem typeOf_of_wrongSortedSetType (h : SetAlone key ks) {clock : Clock}
    (hw : (ks.wrongSortedSetType clock key).1 = false) :
    ks.typeOf key = .none ∨ ks.typeOf key = .zset := by
  unfold wrongSortedSetType at hw
  rw [← h.keyType_self clock]
  simp only [Bool.and_eq_false_iff, decide_eq_false_iff_not, not_not] at hw
  exact hw

theorem typeOf_of_wrongStringType (h : SetAlone key ks) {clock : Clock}
    (hw : (ks.wrongStringType clock key).1 = false) : ks.typeOf key ≠ .zset := by
  unfold wrongStringType at hw
  rw [← h.keyType_self clock]
  intro ht
  simp [ht] at hw

theorem handleLpop (h : SetAlone key ks) (args : List Bytes) :
    SetAlone key (ks.handleLpop args).2 := by
  rcases handleLpop_cases args ks with he | ⟨_, k, _, n, -, hne, -, he⟩ <;> rw [he]
  · exact h
  · refine h.insertOther (k := k) ?_ rfl rfl fun hk a => ?_
    · rintro rfl ht
      have hlist : ks.dynamicVector.contains k = true := holds_list_of_listAt hne
      unfold typeOf at ht
      simp only [hlist, if_true] at ht
      split at ht <;> cases ht
    · cases a <;> simp only [holds, Keyspace.storeList]
      split <;> simp [hk]

end SetAlone

end Keyspace

namespace DataCommand

open Keyspace

variable {key : Bytes} {clock : Readings} {args : List Bytes} {ks : Keyspace F}

/-- The writes that check the type of their key themselves, and those that replace another key. -/
theorem setAlone_handle (command : DataCommand) (h : SetAlone key ks)
    (hi : command.incompatibleWithSortedSet = false)
    (hd : command.destination args = some key → isError (command.handle clock args ks).1 = true) :
    SetAlone key (command.handle clock args ks).2 := by
  by_cases hw : command.isWrite = true
  swap
  · exact h.of_evicts
      ((outcome_handle command clock args ks).evicts_of_not_isWrite (by simpa using hw))
  cases command with
  | zadd =>
    rcases handleZadd_cases clock args ks with ⟨-, he⟩ | ⟨_, k, _, entries, -, -, -, hz, he⟩
    · exact h.of_evicts he
    · rw [handle, he]
      refine (h.evict (clock 0) k).insertSet ?_ _
      rintro rfl
      rw [h.evict_self]
      exact h.typeOf_of_wrongSortedSetType hz
  | zrem =>
    rcases handleZrem_cases clock args ks with ⟨-, he⟩ | ⟨_, k, _, _, -, -, -, he⟩ |
      ⟨_, k, m, ms, set, -, hz, -, he⟩
    · exact h.of_evicts he
    · rw [handle, he]
      exact h.evict (clock 0) k
    · rw [handle, he]
      refine (h.evict (clock 0) k).storeSet ?_ _
      rintro rfl
      rw [h.evict_self]
      exact h.typeOf_of_wrongSortedSetType hz
  | geoadd =>
    rcases handleGeoadd_cases clock args ks with ⟨-, he⟩ | ⟨_, k, _, entries, -, -, -, -, hz, he⟩
    · exact h.of_evicts he
    · rw [handle, he, addGeo]
      split
      · exact h.evict (clock 0) k
      · refine (h.evict (clock 0) k).insertSet ?_ _
        rintro rfl
        rw [h.evict_self]
        exact h.typeOf_of_wrongSortedSetType hz
  | set =>
    rcases handleSet_cases clock args ks with ⟨-, he⟩ | ⟨_, k, value, rfl, he⟩ |
      ⟨_, k, value, _, _, rfl, t, he⟩
    · rw [handle, he]
      exact h
    all_goals
      rw [handle, he] at hd
      have hk : k ≠ key := by
        rintro rfl
        exact absurd (hd rfl) (by simp)
      rw [handle, he]
      refine h.congr ?_ fun a => ?_
      · simp [assignForever, assignUntil, assign, eraseOthers, hk]
      · cases a <;> simp [holds, assignForever, assignUntil, assign, eraseOthers, hk]
  | setbit =>
    rcases handleSetbit_cases clock args ks with ⟨-, he⟩ | ⟨_, k, _, _, offset, -, -, -, hs, he⟩
    · exact h.of_evicts he
    · rw [handle, he]
      refine (h.evict (clock 0) k).insertOther (k := k) ?_ rfl rfl fun hk a => ?_
      · rintro rfl
        rw [h.evict_self]
        exact h.typeOf_of_wrongStringType hs
      · cases a <;> simp [holds, hk]
  | bitop =>
    rcases handleBitop_cases clock args ks with ⟨-, he⟩ |
      ⟨_, _, dest, src, srcs, op, vs, rfl, -, -, -, he⟩
    · exact h.of_evicts he
    · rw [handle, he] at hd
      have hk : dest ≠ key := by
        rintro rfl
        exact absurd (hd rfl) (by simp)
      rw [handle, he]
      refine (h.of_evicts (evicts_bitopSources (src :: srcs) clock ks)).congr ?_ fun a => ?_
      · simp [storeBits, hk]
      · cases a <;> simp only [holds, storeBits, eraseOthers] <;> (try split) <;> simp [hk]
  | _ => first | exact absurd hi (by decide) | exact absurd hw (by decide)

/-- The writes that the dispatcher lets through to keys without a sorted set. -/
theorem setAlone_handle_guarded (command : DataCommand) (h : SetAlone key ks)
    (hi : command.incompatibleWithSortedSet = true) {c k : Bytes} {more : List Bytes}
    (hz : k = key → ks.typeOf key ≠ .zset) :
    SetAlone key (command.handle clock (c :: k :: more) ks).2 := by
  by_cases hw : command.isWrite = true
  swap
  · exact h.of_evicts
      ((outcome_handle command clock _ ks).evicts_of_not_isWrite (by simpa using hw))
  cases command with
  | incr =>
    rcases handleIncr_cases (c :: k :: more) ks with ⟨-, he⟩ | ⟨_, _, n, hargs, -, he⟩ <;>
      rw [handle, he]
    · exact h
    · obtain ⟨rfl, rfl, rfl⟩ : _ = c ∧ _ = k ∧ more = [] := by simpa [eq_comm] using hargs
      refine h.insertOther hz rfl rfl fun hk a => ?_
      cases a <;> simp [holds, hk]
  | rpush =>
    rcases handleRpush_cases (c :: k :: more) ks with ⟨-, he⟩ | ⟨_, _, v, vs, hargs, he⟩ <;>
      rw [handle, he]
    · exact h
    · obtain ⟨rfl, rfl, rfl⟩ : _ = c ∧ _ = k ∧ more = v :: vs := by simpa [eq_comm] using hargs
      refine h.insertOther hz rfl rfl fun hk a => ?_
      cases a <;> simp [holds, pushList, hk]
  | lpush =>
    rcases handleLpush_cases (c :: k :: more) ks with ⟨-, he⟩ | ⟨_, _, v, vs, hargs, he⟩ <;>
      rw [handle, he]
    · exact h
    · obtain ⟨rfl, rfl, rfl⟩ : _ = c ∧ _ = k ∧ more = v :: vs := by simpa [eq_comm] using hargs
      refine h.insertOther hz rfl rfl fun hk a => ?_
      cases a <;> simp [holds, pushList, hk]
  | lpop => exact h.handleLpop _
  | xadd =>
    rcases handleXadd_cases clock (c :: k :: more) ks with
      ⟨-, he⟩ | ⟨_, _, id, fields, assigned, stream, hargs, -, -, he⟩ <;> rw [handle, he]
    · exact h
    · obtain ⟨rfl, rfl, rfl⟩ : _ = c ∧ _ = k ∧ more = id :: fields := by
        simpa [eq_comm] using hargs
      refine h.insertOther hz rfl rfl fun hk a => ?_
      cases a <;> simp [holds, hk]
  | _ => first | exact absurd hi (by decide) | exact absurd hw (by decide)

end DataCommand

open Keyspace

theorem Call.setAlone_result {key : Bytes} {c : Call F} (hc : c.overwrites key = false)
    (h : SetAlone key c.data) : SetAlone key c.result.2 := by
  cases c with
  | pop ks k => exact h.handleLpop _
  | run clock ks args =>
    cases hcmd : dataCommand args with
    | none => simpa only [Call.result, Call.data, execute, hcmd] using h
    | some command =>
      have hx : execute clock args ks = command.dispatch clock args ks := by
        simp only [execute, hcmd]
      have hd : command.destination args = some key →
          isError (command.dispatch clock args ks).1 = true := by
        intro hdest
        simpa [Call.overwrites, hcmd, hdest, hx] using hc
      simp only [Call.data, Call.result, hx] at h ⊢
      rcases command.dispatch_cases clock args ks with
        ⟨hi, he⟩ | ⟨c, k, more, rfl, hi, ⟨-, he⟩ | ⟨hz, he⟩⟩ <;> rw [he]
      · by_cases hs : command.incompatibleWithSortedSet = true
        · rw [command.handle_of_short hs (hi.resolve_left (by simp [hs]))]
          exact h
        · exact command.setAlone_handle h (by simpa using hs) (he ▸ hd)
      · exact h.evict (clock 0) k
      · refine command.setAlone_handle_guarded (h.evict (clock 0) k) hi ?_
        rintro rfl
        rw [h.evict_self, ← h.keyType_self (clock 0)]
        exact hz

theorem Chain.setAlone {key : Bytes} {ks ks' : Keyspace F} {calls : List (Call F)}
    (hchain : Chain ks calls ks') (hc : ∀ c ∈ calls, c.overwrites key = false)
    (h : SetAlone key ks) : SetAlone key ks' := by
  induction hchain with
  | nil => exact h
  | evict clock k _ ih => exact ih hc (h.evict clock k)
  | call c hdata _ ih =>
    subst hdata
    exact ih (fun c' h' => hc c' (List.mem_cons_of_mem _ h'))
      (Call.setAlone_result (hc c List.mem_cons_self) h)

theorem Chain.sortedSets_of_stream {key : Bytes} {ks : Keyspace F} {calls : List (Call F)}
    (hchain : Chain {} calls ks) (hc : ∀ c ∈ calls, c.overwrites key = false)
    (hs : ks.streams.contains key = true) : ks.sortedSets.contains key = false := by
  refine (hchain.setAlone hc (setAlone_empty key)).sortedSets_of_typeOf fun ht => ?_
  unfold typeOf at ht
  simp only [hs, if_true] at ht
  repeat' split at ht
  all_goals cases ht

end TrueStore
