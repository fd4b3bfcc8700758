import TrueStore.Command.Collections
import TrueStore.Server.Runs

/-! # One key, one type

Most writes check the type of their key or remove the key from the other containers. Four of
them do neither: `RPUSH`, `LPUSH`, `INCR` and `XADD` only spare sorted sets. Away from these
clashes no key is ever held by two containers.
-/

namespace TrueStore

variable {F : Type} [Platform F]

namespace Keyspace

def holds (ks : Keyspace F) (type : KeyType) (key : Bytes) : Bool :=
  match type with
  | .none => false
  | .string => ks.storage.contains key
  | .list => ks.dynamicVector.contains key
  | .stream => ks.streams.contains key
  | .zset => ks.sortedSets.contains key

def OneType (ks : Keyspace F) : Prop :=
  ∀ key a b, ks.holds a key = true → ks.holds b key = true → a = b

/-- No key is held by two containers, and only strings have deadlines. -/
structure Typed (ks : Keyspace F) : Prop where
  one : ks.OneType
  deadline : ∀ key, ks.expirations.contains key = true → ks.storage.contains key = true

theorem typed_empty : ({} : Keyspace F).Typed where
  one key a b h _ := by cases a <;> simp [holds] at h
  deadline key h := by simp at h

theorem holds_evict {ks : Keyspace F} {clock : Clock} {key k : Bytes} {a : KeyType}
    (h : (ks.evict clock key).holds a k = true) : ks.holds a k = true := by
  rcases evict_cases ks clock key with he | he <;> rw [he] at h
  · exact h
  · cases a <;> simp [holds] at h ⊢
    · exact h.2
    · exact h
    · exact h
    · exact h

theorem Typed.evict {ks : Keyspace F} (h : ks.Typed) (clock : Clock) (key : Bytes) :
    (ks.evict clock key).Typed where
  one k a b ha hb := h.one k a b (holds_evict ha) (holds_evict hb)
  deadline k hk := by
    rcases evict_cases ks clock key with he | he <;> rw [he] at hk ⊢
    · exact h.deadline k hk
    · simp at hk ⊢
      exact ⟨hk.1, by simpa using h.deadline k (by simpa using hk.2)⟩

theorem typeOf_eq_of_holds {ks : Keyspace F} (h : ks.OneType) {key : Bytes} {a : KeyType}
    (ha : ks.holds a key = true) : ks.typeOf key = a := by
  unfold typeOf
  repeat' split
  · rename_i hs
    exact h key .string a hs ha
  · rename_i hs
    exact h key .list a hs ha
  · rename_i hs
    exact h key .stream a hs ha
  · rename_i hs
    exact h key .zset a hs ha
  · cases a <;> simp_all [holds]

theorem keyType_eq_of_holds {ks : Keyspace F} (h : ks.Typed) {clock : Clock} {key : Bytes}
    {a : KeyType} (ha : (ks.evict clock key).holds a key = true) :
    (ks.keyType clock key).1 = a := by
  have hone := (h.evict clock key).one
  unfold keyType
  dsimp only
  split
  · -- the string has just expired, and nothing else held the key
    rename_i hexp
    exfalso
    have ⟨deadline, hd, hev⟩ : ∃ deadline, ks.expirations[key]? = some deadline ∧
        ks.evict clock key =
          { ks with expirations := ks.expirations.erase key, storage := ks.storage.erase key } := by
      unfold isExpired at hexp
      unfold Keyspace.evict isExpired
      split at hexp
      · cases hexp
      · rename_i deadline hd
        split at hexp
        · rename_i hpast
          exact ⟨deadline, hd, by simp [hpast]⟩
        · cases hexp
    have hstring : ks.holds .string key = true :=
      h.deadline key (by simp [Std.ExtTreeMap.contains_eq_isSome_getElem?, hd])
    obtain rfl := h.one key a .string (holds_evict ha) hstring
    rw [hev] at ha
    simp [holds] at ha
  · exact typeOf_eq_of_holds hone ha

theorem wrongStringType_eq_false {ks : Keyspace F} (h : ks.Typed) {clock : Clock} {key : Bytes}
    (hw : (ks.wrongStringType clock key).1 = false) {a : KeyType}
    (ha : (ks.evict clock key).holds a key = true) : a = .string := by
  have ht := keyType_eq_of_holds h ha
  unfold wrongStringType at hw
  cases a <;> simp_all [holds]

theorem wrongSortedSetType_eq_false {ks : Keyspace F} (h : ks.Typed) {clock : Clock} {key : Bytes}
    (hw : (ks.wrongSortedSetType clock key).1 = false) {a : KeyType}
    (ha : (ks.evict clock key).holds a key = true) : a = .zset := by
  have ht := keyType_eq_of_holds h ha
  unfold wrongSortedSetType at hw
  cases a <;> simp_all [holds]

theorem Typed.update {ks ks' : Keyspace F} (h : ks.Typed) (key : Bytes) (type : KeyType)
    (hother : ∀ k, k ≠ key → ∀ a, ks'.holds a k = true → ks.holds a k = true)
    (hkey : ∀ a, ks'.holds a key = true → a = type)
    (hdead : ∀ k, ks'.expirations.contains k = true → ks'.storage.contains k = true) :
    ks'.Typed where
  one k a b ha hb := by
    by_cases hk : k = key
    · subst hk
      rw [hkey a ha, hkey b hb]
    · exact h.one k a b (hother k hk a ha) (hother k hk b hb)
  deadline := hdead

section Writes

variable {ks : Keyspace F} (h : ks.Typed) (key : Bytes)
include h

theorem Typed.assignForever (value : Bytes) : (ks.assignForever key value).Typed := by
  refine h.update key .string (fun k hk a ha => ?_) (fun a ha => ?_) (fun k hk => ?_)
  · cases a <;> simp_all [holds, Keyspace.assignForever, assign, eraseOthers, hk.symm]
  · cases a <;> simp_all [holds, Keyspace.assignForever, assign, eraseOthers]
  · simp only [Keyspace.assignForever, assign, Std.ExtTreeMap.contains_erase,
      Std.ExtTreeMap.contains_insert, Bool.and_eq_true, Bool.or_eq_true] at hk ⊢
    exact .inr (h.deadline k hk.2)

theorem Typed.assignUntil (value : Bytes) (t : ℤ) : (ks.assignUntil key value t).Typed := by
  refine h.update key .string (fun k hk a ha => ?_) (fun a ha => ?_) (fun k hk => ?_)
  · cases a <;> simp_all [holds, Keyspace.assignUntil, assign, eraseOthers, hk.symm]
  · cases a <;> simp_all [holds, Keyspace.assignUntil, assign, eraseOthers]
  · simp only [Keyspace.assignUntil, assign, eraseOthers, Std.ExtTreeMap.contains_insert,
      Bool.or_eq_true] at hk ⊢
    exact hk.imp id (h.deadline k)

theorem Typed.storeBits (result : Bytes) : (ks.storeBits key result).Typed := by
  refine h.update key .string (fun k hk a ha => ?_) (fun a ha => ?_) (fun k hk => ?_)
  · by_cases hr : result = [] <;> cases a <;>
      simp_all [holds, Keyspace.storeBits, eraseOthers, hk.symm]
  · by_cases hr : result = [] <;> cases a <;> simp_all [holds, Keyspace.storeBits, eraseOthers]
  · simp only [Keyspace.storeBits, eraseOthers, Std.ExtTreeMap.contains_erase,
      Bool.and_eq_true] at hk ⊢
    have hs := h.deadline k hk.2
    split
    · simp [hs] at hk ⊢
      exact hk.1
    · simp [hs]

theorem Typed.insertString (hk : ∀ a, ks.holds a key = true → a = .string) (value : Bytes) :
    Typed { ks with storage := ks.storage.insert key value } := by
  refine h.update key .string (fun k hne a ha => ?_) (fun a ha => ?_) (fun k hd => ?_)
  · cases a <;> simp_all [holds, hne.symm]
  · cases a <;> simp_all [holds]
  · simp [h.deadline k hd]

theorem Typed.insertList (hk : ∀ a, ks.holds a key = true → a = .list) (list : List Bytes) :
    Typed { ks with dynamicVector := ks.dynamicVector.insert key list } := by
  refine h.update key .list (fun k hne a ha => ?_) (fun a ha => ?_) h.deadline
  · cases a <;> simp_all [holds, hne.symm]
  · cases a <;> simp_all [holds]

theorem Typed.insertStream (hk : ∀ a, ks.holds a key = true → a = .stream) (stream : Stream) :
    Typed { ks with streams := ks.streams.insert key stream } := by
  refine h.update key .stream (fun k hne a ha => ?_) (fun a ha => ?_) h.deadline
  · cases a <;> simp_all [holds, hne.symm]
  · cases a <;> simp_all [holds]

theorem Typed.insertSet (hk : ∀ a, ks.holds a key = true → a = .zset) (set : SortedSet F) :
    Typed { ks with sortedSets := ks.sortedSets.insert key set } := by
  refine h.update key .zset (fun k hne a ha => ?_) (fun a ha => ?_) h.deadline
  · cases a <;> simp_all [holds, hne.symm]
  · cases a <;> simp_all [holds]

theorem Typed.storeList (hk : ∀ a, ks.holds a key = true → a = .list) (list : List Bytes) :
    (ks.storeList key list).Typed := by
  unfold Keyspace.storeList
  split
  · refine h.update key .list (fun k hne a ha => ?_) (fun a ha => hk a ?_) h.deadline
    · cases a <;> simp_all [holds, hne.symm]
    · cases a <;> simp_all [holds]
  · exact h.insertList key hk list

theorem Typed.storeSet (hk : ∀ a, ks.holds a key = true → a = .zset) (set : SortedSet F) :
    (ks.storeSet key set).Typed := by
  unfold Keyspace.storeSet
  split
  · refine h.update key .zset (fun k hne a ha => ?_) (fun a ha => hk a ?_) h.deadline
    · cases a <;> simp_all [holds, hne.symm]
    · cases a <;> simp_all [holds]
  · exact h.insertSet key hk set

end Writes

theorem holds_list_of_listAt {ks : Keyspace F} {key : Bytes} (h : ks.listAt key ≠ []) :
    ks.holds .list key = true := by
  simp only [holds, Std.ExtTreeMap.contains_eq_isSome_getElem?]
  unfold listAt at h
  rw [Std.ExtTreeMap.getD_eq_getD_getElem?] at h
  cases hd : ks.dynamicVector[key]? with
  | none => simp [hd] at h
  | some list => rfl

theorem typed_handleLpop {ks : Keyspace F} (h : ks.Typed) (args : List Bytes) :
    (ks.handleLpop args).2.Typed := by
  rcases handleLpop_cases args ks with he | ⟨_, k, _, n, -, hne, -, he⟩ <;> rw [he]
  · exact h
  · exact h.storeList k (fun a ha => h.one k a .list ha (holds_list_of_listAt hne)) _

end Keyspace

/-- The writes that put a key into a second container: a push to a string or a stream, an `INCR`
of a list or a stream, and an `XADD` of an ID that the stream accepts to a string or a list. -/
def clashes (clock : Readings) (ks : Keyspace F) (args : List Bytes) : Bool :=
  match dataCommand args, args with
  | some .rpush, _ :: key :: _ :: _ | some .lpush, _ :: key :: _ :: _ =>
    (ks.keyType (clock 0) key).1 = .string || (ks.keyType (clock 0) key).1 = .stream
  | some .incr, [_, key] =>
    (ks.keyType (clock 0) key).1 = .list || (ks.keyType (clock 0) key).1 = .stream
  | some .xadd, _ :: key :: id :: fields =>
    ((ks.keyType (clock 0) key).1 = .string || (ks.keyType (clock 0) key).1 = .list) &&
      decide (2 ≤ fields.length ∧ fields.length % 2 = 0) &&
      ((ks.streamAt key).resolveId (clock 1).unixMs id).isOk
  | _, _ => false

namespace DataCommand

open Keyspace

variable {clock : Readings} {args : List Bytes} {ks : Keyspace F}

theorem typed_of_evicts {ks' : Keyspace F} (h : ks.Typed) (he : Evicts clock ks ks') : ks'.Typed :=
  he.preserves (fun _ i key h => h.evict (clock i) key) h

/-- The writes that check the type of their key, or replace it, keep the invariant on their own. -/
theorem typed_handle (command : DataCommand) (h : ks.Typed)
    (hi : command.incompatibleWithSortedSet = false) : (command.handle clock args ks).2.Typed := by
  by_cases hw : command.isWrite = true
  swap
  · exact typed_of_evicts h
      ((outcome_handle command clock args ks).evicts_of_not_isWrite (by simpa using hw))
  cases command with
  | zadd =>
    rcases handleZadd_cases clock args ks with ⟨-, he⟩ | ⟨_, key, _, entries, -, -, -, hz, he⟩
    · exact typed_of_evicts h he
    · rw [handle, he]
      exact (h.evict _ key).insertSet key (fun a => wrongSortedSetType_eq_false h hz) _
  | zrem =>
    rcases handleZrem_cases clock args ks with ⟨-, he⟩ | ⟨_, key, _, _, -, -, -, he⟩ |
      ⟨_, key, m, ms, set, -, hz, -, he⟩
    · exact typed_of_evicts h he
    · rw [handle, he]
      exact h.evict _ key
    · rw [handle, he]
      exact (h.evict _ key).storeSet key (fun a => wrongSortedSetType_eq_false h hz) _
  | geoadd =>
    rcases handleGeoadd_cases clock args ks with ⟨-, he⟩ | ⟨_, key, _, entries, -, -, -, -, hz, he⟩
    · exact typed_of_evicts h he
    · rw [handle, he, addGeo]
      split
      · exact h.evict _ key
      · exact (h.evict _ key).insertSet key (fun a => wrongSortedSetType_eq_false h hz) _
  | set =>
    rcases handleSet_cases clock args ks with ⟨-, he⟩ | ⟨_, key, value, -, he⟩ |
      ⟨_, key, value, _, _, -, t, he⟩ <;> rw [handle, he]
    · exact h
    · exact h.assignForever key value
    · exact h.assignUntil key value t
  | setbit =>
    rcases handleSetbit_cases clock args ks with ⟨-, he⟩ | ⟨_, key, _, _, offset, -, -, -, hs, he⟩
    · exact typed_of_evicts h he
    · rw [handle, he]
      exact (h.evict _ key).insertString key (fun a => wrongStringType_eq_false h hs) _
  | bitop =>
    rcases handleBitop_cases clock args ks with ⟨-, he⟩ |
      ⟨_, _, dest, src, srcs, op, vs, -, -, -, -, he⟩
    · exact typed_of_evicts h he
    · rw [handle, he]
      exact (typed_of_evicts h (evicts_bitopSources (src :: srcs) clock ks)).storeBits dest _
  | _ => first | exact absurd hi (by decide) | exact absurd hw (by decide)

theorem handle_of_short (command : DataCommand) (hi : command.incompatibleWithSortedSet = true)
    (hl : args.length < 2) : (command.handle clock args ks).2 = ks := by
  match args, hl with
  | [], _ | [_], _ =>
    cases command with
    | get | incr | rpush | lpush | llen | lrange | lpop | xadd | xrange => rfl
    | _ => exact absurd hi (by decide)

/-- The writes that only spare sorted sets keep the invariant unless they clash. -/
theorem typed_handle_guarded (command : DataCommand) (h : ks.Typed)
    (hi : command.incompatibleWithSortedSet = true) {c key : Bytes} {more : List Bytes}
    (hd : dataCommand (c :: key :: more) = some command)
    (hz : (ks.keyType (clock 0) key).1 ≠ .zset)
    (hc : clashes clock ks (c :: key :: more) = false) :
    (command.handle clock.later (c :: key :: more) (ks.evict (clock 0) key)).2.Typed := by
  have h₁ := h.evict (clock 0) key
  have htype : ∀ a, (ks.evict (clock 0) key).holds a key = true →
      (ks.keyType (clock 0) key).1 = a := fun a ha => keyType_eq_of_holds h ha
  by_cases hw : command.isWrite = true
  swap
  · exact typed_of_evicts h₁
      ((outcome_handle command clock.later _ _).evicts_of_not_isWrite (by simpa using hw))
  cases command with
  | incr =>
    rcases handleIncr_cases (c :: key :: more) (ks.evict (clock 0) key) with ⟨-, he⟩ |
      ⟨_, k, n, hargs, -, he⟩ <;> rw [handle, he]
    · exact h₁
    · obtain ⟨rfl, rfl, rfl⟩ : _ = c ∧ k = key ∧ more = [] := by simpa [eq_comm] using hargs
      simp [clashes, hd] at hc
      refine h₁.insertString k (fun a ha => ?_) _
      have := htype a ha
      cases a <;> simp_all [holds]
  | rpush =>
    rcases handleRpush_cases (c :: key :: more) (ks.evict (clock 0) key) with ⟨-, he⟩ |
      ⟨_, k, v, vs, hargs, he⟩ <;> rw [handle, he]
    · exact h₁
    · obtain ⟨rfl, rfl, rfl⟩ : _ = c ∧ k = key ∧ more = v :: vs := by simpa [eq_comm] using hargs
      simp [clashes, hd] at hc
      refine h₁.insertList k (fun a ha => ?_) _
      have := htype a ha
      cases a <;> simp_all [holds]
  | lpush =>
    rcases handleLpush_cases (c :: key :: more) (ks.evict (clock 0) key) with ⟨-, he⟩ |
      ⟨_, k, v, vs, hargs, he⟩ <;> rw [handle, he]
    · exact h₁
    · obtain ⟨rfl, rfl, rfl⟩ : _ = c ∧ k = key ∧ more = v :: vs := by simpa [eq_comm] using hargs
      simp [clashes, hd] at hc
      refine h₁.insertList k (fun a ha => ?_) _
      have := htype a ha
      cases a <;> simp_all [holds]
  | lpop => exact typed_handleLpop h₁ _
  | xadd =>
    rcases handleXadd_cases clock.later (c :: key :: more) (ks.evict (clock 0) key) with
      ⟨-, he⟩ | ⟨_, k, id, fields, assigned, stream, hargs, hf, hins, he⟩ <;> rw [handle, he]
    · exact h₁
    · obtain ⟨rfl, rfl, rfl⟩ : _ = c ∧ k = key ∧ more = id :: fields := by
        simpa [eq_comm] using hargs
      rw [streamAt_evict] at hins
      have hok : ((ks.streamAt k).resolveId (clock 1).unixMs id).isOk = true :=
        Stream.resolveId_isOk_of_insert hins
      have hpairs : 2 ≤ fields.length ∧ fields.length % 2 = 0 := by omega
      simp only [clashes, hd, hok, hpairs, and_self, decide_true, Bool.and_true,
        Bool.or_eq_false_iff, decide_eq_false_iff_not] at hc
      refine h₁.insertStream k (fun a ha => ?_) _
      have := htype a ha
      cases a <;> simp_all [holds]
  | _ => first | exact absurd hi (by decide) | exact absurd hw (by decide)

end DataCommand

namespace Call

def clashes : Call F → Bool
  | run clock data args => TrueStore.clashes clock data args
  | pop _ _ => false

open Keyspace

theorem typed_result {c : Call F} (h : c.data.Typed) (hc : c.clashes = false) :
    c.result.2.Typed := by
  cases c with
  | pop ks key =>
    simp only [Call.data, Call.result] at h ⊢
    exact typed_handleLpop h _
  | run clock ks args =>
    simp only [Call.data, Call.result, execute, Call.clashes] at h hc ⊢
    split
    · rename_i command hcmd
      rcases command.dispatch_cases clock args ks with
        ⟨hi, hd⟩ | ⟨c, key, more, rfl, hi, ⟨-, hd⟩ | ⟨hz, hd⟩⟩ <;> rw [hd]
      · by_cases hs : command.incompatibleWithSortedSet = true
        · rw [command.handle_of_short hs (hi.resolve_left (by simp [hs]))]
          exact h
        · exact command.typed_handle h (by simpa using hs)
      · exact h.evict _ key
      · exact command.typed_handle_guarded h hi hcmd hz hc
    · exact h

end Call

theorem Keyspace.Typed.of_chain {ks ks' : Keyspace F} {calls : List (Call F)} (h : ks.Typed)
    (hchain : Chain ks calls ks') (hc : ∀ c ∈ calls, c.clashes = false) : ks'.Typed := by
  induction hchain with
  | nil => exact h
  | evict clock key _ ih => exact ih (h.evict clock key) hc
  | call c hdata _ ih =>
    subst hdata
    exact ih (Call.typed_result h (hc c List.mem_cons_self))
      fun c' h' => hc c' (List.mem_cons_of_mem _ h')

/-- No key has two types in any state that a server reaches without a clash. -/
theorem oneType_run (config : Config) (replid : ReplId) (link : Option (ℤ × ℤ))
    (events : List (Env × Server.Event))
    (h : ∀ c ∈ (Server.run events (Server.boot config replid link : Server F)).calls,
      c.clashes = false) :
    (Server.run events (Server.boot config replid link : Server F)).store.OneType :=
  (Keyspace.typed_empty.of_chain (Server.chain_run config replid link events) h).one

/-- A connection that sets the string `k`. -/
def settingString : List (Env × Server.Event) :=
  [(.still, .accept 5),
    (.still, .request 5 ⟨[ascii "SET", ascii "k", ascii "v"], by decide, by decide⟩)]

theorem oneType_run_push_elsewhere :
    (Server.run (settingString ++
      [(.still, .request 5 ⟨[ascii "RPUSH", ascii "l", ascii "a"], by decide, by decide⟩)])
      (Server.boot {} .zeros none : Server Whole)).store.OneType :=
  oneType_run _ _ _ _ (by decide)

theorem push_on_string_two_types :
    ¬(Server.run (settingString ++
      [(.still, .request 5 ⟨[ascii "RPUSH", ascii "k", ascii "a"], by decide, by decide⟩)])
      (Server.boot {} .zeros none : Server Whole)).store.OneType := by
  intro h
  cases h (ascii "k") .string .list (by decide) (by decide)

end TrueStore
