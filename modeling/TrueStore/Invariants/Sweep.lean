import TrueStore.Invariants.KeyTypes

/-! # Sweeping expired strings

A sweep removes all strings whose deadline has passed. Two keyspaces that a sweep makes equal are
alike for every data command: it answers alike and leaves them alike.
-/

namespace TrueStore

open RespType

variable {F : Type} [Platform F]

namespace Keyspace

def expired (ks : Keyspace F) (c : Clock) (key : Bytes) : Bool :=
  ks.expirations[key]?.any fun deadline => decide (deadline ≤ c.steady)

/-- The keyspace without the strings whose deadline has passed. -/
def sweep (ks : Keyspace F) (c : Clock) : Keyspace F :=
  { ks with
    storage := ks.storage.filter fun key _ => !ks.expired c key
    expirations := ks.expirations.filter fun _ deadline => !decide (deadline ≤ c.steady) }

section sweep

variable (ks : Keyspace F) (c : Clock) (key k : Bytes)

theorem sweep_storage : (ks.sweep c).storage[k]? = if ks.expired c k then none else ks.storage[k]? := by
  rw [sweep, Std.ExtTreeMap.getElem?_filter']
  cases ks.expired c k <;> cases ks.storage[k]? <;> rfl

theorem sweep_expirations :
    (ks.sweep c).expirations[k]? = if ks.expired c k then none else ks.expirations[k]? := by
  rw [sweep, Std.ExtTreeMap.getElem?_filter', expired]
  cases ks.expirations[k]? with
  | none => rfl
  | some deadline => by_cases h : deadline ≤ c.steady <;> simp [h]

@[simp] theorem expired_sweep : (ks.sweep c).expired c k = false := by
  rw [expired, sweep_expirations]
  cases h : ks.expired c k
  · rw [expired] at h
    simpa using h
  · rfl

theorem isExpired_eq : ks.isExpired c key = (ks.expired c key, ks.evict c key) := by
  unfold evict isExpired expired
  cases ks.expirations[key]? with
  | none => rfl
  | some deadline => by_cases h : deadline ≤ c.steady <;> simp [h]

theorem evict_eq : ks.evict c key = if ks.expired c key then
    { ks with expirations := ks.expirations.erase key, storage := ks.storage.erase key }
    else ks := by
  unfold evict isExpired expired
  cases ks.expirations[key]? with
  | none => rfl
  | some deadline => by_cases h : deadline ≤ c.steady <;> simp [h]

theorem expired_evict :
    (ks.evict c key).expired c k = (ks.expired c k && !decide (k = key)) := by
  rw [evict_eq]
  split
  · rw [expired, expired, Std.ExtTreeMap.getElem?_erase]
    by_cases hk : key = k
    · simp [hk]
    · simp [hk, Ne.symm hk]
  · rename_i h
    by_cases hk : k = key
    · subst hk
      simpa using h
    · simp [hk]

@[simp] theorem sweep_evict : (ks.evict c key).sweep c = ks.sweep c := by
  refine Keyspace.ext ?_ ?_ (by simp [sweep]) (by simp [sweep]) (by simp [sweep])
  · refine Std.ExtTreeMap.ext_getElem? fun k => ?_
    rw [sweep_storage, sweep_storage, expired_evict, evict_eq]
    by_cases hk : k = key
    · subst hk
      cases ks.expired c k <;> simp
    · cases ks.expired c k <;> cases ks.expired c key <;>
        simp [hk, Std.ExtTreeMap.getElem?_erase, Ne.symm hk]
  · refine Std.ExtTreeMap.ext_getElem? fun k => ?_
    rw [sweep_expirations, sweep_expirations, expired_evict, evict_eq]
    by_cases hk : k = key
    · subst hk
      cases ks.expired c k <;> simp
    · cases ks.expired c k <;> cases ks.expired c key <;>
        simp [hk, Std.ExtTreeMap.getElem?_erase, Ne.symm hk]

theorem sweep_evicts {a b : Keyspace F} (h : Evicts (fun _ => c) a b) : b.sweep c = a.sweep c := by
  induction h with
  | refl => rfl
  | step i key _ ih => rw [ih, sweep_evict]

theorem sweep_sweep : (ks.sweep c).sweep c = ks.sweep c := by
  refine Keyspace.ext ?_ ?_ rfl rfl rfl
  · refine Std.ExtTreeMap.ext_getElem? fun k => ?_
    rw [sweep_storage, expired_sweep]
    rfl
  · refine Std.ExtTreeMap.ext_getElem? fun k => ?_
    rw [sweep_expirations, expired_sweep]
    rfl

end sweep

def Alike {α : Type} (c : Clock) (r r' : α × Keyspace F) : Prop :=
  r.1 = r'.1 ∧ r.2.sweep c = r'.2.sweep c

section alike

variable {c : Clock} {a b : Keyspace F} {key : Bytes}

theorem dynamicVector_of_sweep (h : a.sweep c = b.sweep c) : a.dynamicVector = b.dynamicVector :=
  (congrArg Keyspace.dynamicVector h :)

theorem streams_of_sweep (h : a.sweep c = b.sweep c) : a.streams = b.streams :=
  (congrArg Keyspace.streams h :)

theorem sortedSets_of_sweep (h : a.sweep c = b.sweep c) : a.sortedSets = b.sortedSets :=
  (congrArg Keyspace.sortedSets h :)

theorem keyType_eq_sweep (ha : a.Typed) : (a.keyType c key).1 = (a.sweep c).typeOf key := by
  have hstorage : (a.sweep c).storage.contains key =
      (!a.expired c key && a.storage.contains key) := by
    rw [Std.ExtTreeMap.contains_eq_isSome_getElem?, Std.ExtTreeMap.contains_eq_isSome_getElem?,
      sweep_storage]
    cases a.expired c key <;> rfl
  simp only [keyType, isExpired_eq]
  cases he : a.expired c key with
  | false =>
    rw [if_neg (by simp), evict_eq, he]
    simp only [typeOf, hstorage, he, Bool.not_false, Bool.true_and]
    rfl
  | true =>
    have hdeadline : a.expirations.contains key = true := by
      rw [Std.ExtTreeMap.contains_eq_isSome_getElem?]
      cases hd : a.expirations[key]? with
      | none => simp [expired, hd] at he
      | some deadline => rfl
    have hstring : a.holds .string key = true := ha.deadline key hdeadline
    have hnone : ∀ type, type ≠ .string → a.holds type key = false := by
      intro type ht
      by_contra hc
      exact ht (ha.one key type .string (by simpa using hc) hstring)
    have hlist : (a.sweep c).dynamicVector.contains key = false := hnone .list (by decide)
    have hstream : (a.sweep c).streams.contains key = false := hnone .stream (by decide)
    have hzset : (a.sweep c).sortedSets.contains key = false := hnone .zset (by decide)
    simp only [typeOf, hstorage, he, hlist, hstream, hzset, if_true]
    rfl

theorem keyType_eq_of_sweep (h : a.sweep c = b.sweep c) (ha : a.Typed) (hb : b.Typed) :
    (a.keyType c key).1 = (b.keyType c key).1 := by
  rw [keyType_eq_sweep ha, keyType_eq_sweep hb, h]

/-- Alike keyspaces in which the key has just been looked at. -/
structure Fresh (c : Clock) (key : Bytes) (a b : Keyspace F) : Prop where
  sweep : a.sweep c = b.sweep c
  left : a.expired c key = false
  right : b.expired c key = false

theorem fresh_evict (h : a.sweep c = b.sweep c) : Fresh c key (a.evict c key) (b.evict c key) where
  sweep := by rw [sweep_evict, sweep_evict, h]
  left := by simp [expired_evict]
  right := by simp [expired_evict]

theorem Fresh.storage (h : Fresh c key a b) : a.storage[key]? = b.storage[key]? := by
  have hs := congrArg (fun ks : Keyspace F => ks.storage[key]?) h.sweep
  simpa [sweep_storage, h.left, h.right] using hs

theorem Fresh.expirations (h : Fresh c key a b) : a.expirations[key]? = b.expirations[key]? := by
  have hs := congrArg (fun ks : Keyspace F => ks.expirations[key]?) h.sweep
  simpa [sweep_expirations, h.left, h.right] using hs

theorem Fresh.getD (h : Fresh c key a b) (v : Bytes) : a.storage.getD key v = b.storage.getD key v := by
  rw [Std.ExtTreeMap.getD_eq_getD_getElem?, Std.ExtTreeMap.getD_eq_getD_getElem?, h.storage]

theorem Fresh.sortedSets (h : Fresh c key a b) : a.sortedSets = b.sortedSets :=
  sortedSets_of_sweep h.sweep

/-- The same change of one string to alike keyspaces. -/
theorem sweep_eq_of_update (key : Bytes) {a' b' : Keyspace F} (h : a.sweep c = b.sweep c)
    (ha : ∀ k : Bytes, k ≠ key →
      a'.storage[k]? = a.storage[k]? ∧ a'.expirations[k]? = a.expirations[k]?)
    (hb : ∀ k : Bytes, k ≠ key →
      b'.storage[k]? = b.storage[k]? ∧ b'.expirations[k]? = b.expirations[k]?)
    (hkey : a'.storage[key]? = b'.storage[key]? ∧ a'.expirations[key]? = b'.expirations[key]?)
    (hlists : a'.dynamicVector = b'.dynamicVector) (hstreams : a'.streams = b'.streams)
    (hsets : a'.sortedSets = b'.sortedSets) : a'.sweep c = b'.sweep c := by
  have hexpired : ∀ k : Bytes, k ≠ key → a'.expired c k = a.expired c k ∧
      b'.expired c k = b.expired c k := by
    intro k hk
    simp only [expired, (ha k hk).2, (hb k hk).2, and_self]
  have hexpiredKey : a'.expired c key = b'.expired c key := by simp only [expired, hkey.2]
  refine Keyspace.ext ?_ ?_ hlists hstreams hsets
  · refine Std.ExtTreeMap.ext_getElem? fun k => ?_
    rw [sweep_storage, sweep_storage]
    by_cases hk : k = key
    · rw [hk, hexpiredKey, hkey.1]
    · rw [(hexpired k hk).1, (hexpired k hk).2, (ha k hk).1, (hb k hk).1, ← sweep_storage,
        ← sweep_storage, h]
  · refine Std.ExtTreeMap.ext_getElem? fun k => ?_
    rw [sweep_expirations, sweep_expirations]
    by_cases hk : k = key
    · rw [hk, hexpiredKey, hkey.2]
    · rw [(hexpired k hk).1, (hexpired k hk).2, (ha k hk).2, (hb k hk).2, ← sweep_expirations,
        ← sweep_expirations, h]

theorem Fresh.insert (h : Fresh c key a b) (value : Bytes) :
    Keyspace.sweep { a with storage := a.storage.insert key value } c =
      Keyspace.sweep { b with storage := b.storage.insert key value } c := by
  have hlists := dynamicVector_of_sweep h.sweep
  have hstreams := streams_of_sweep h.sweep
  refine sweep_eq_of_update key (a := a) (b := b) h.sweep (fun k hk => ⟨?_, rfl⟩)
    (fun k hk => ⟨?_, rfl⟩) ⟨by simp, h.expirations⟩ hlists hstreams h.sortedSets
  · simp [Std.ExtTreeMap.getElem?_insert, Ne.symm hk]
  · simp [Std.ExtTreeMap.getElem?_insert, Ne.symm hk]

theorem sweep_sortedSets (h : a.sweep c = b.sweep c) (sets : Map (SortedSet F)) :
    Keyspace.sweep { a with sortedSets := sets } c =
      Keyspace.sweep { b with sortedSets := sets } c :=
  congrArg (fun ks : Keyspace F => { ks with sortedSets := sets }) h

theorem alike_checked (wrong : KeyType → Bool) {body : Keyspace F → Bytes × Keyspace F}
    (h : a.sweep c = b.sweep c) (ha : a.Typed) (hb : b.Typed)
    (hbody : ∀ a b, Fresh c key a b → Alike c (body a) (body b)) :
    Alike c (checked (wrong (a.keyType c key).1, (a.keyType c key).2) body)
      (checked (wrong (b.keyType c key).1, (b.keyType c key).2) body) := by
  rw [keyType_eq_of_sweep h ha hb, keyType_snd, keyType_snd]
  unfold checked
  split
  · exact ⟨rfl, (fresh_evict h).sweep⟩
  · exact hbody _ _ (fresh_evict h)

/-- One reading of the clocks serves the whole command. -/
def once (c : Clock) : Readings := fun _ => c

variable (args : List Bytes) (h : a.sweep c = b.sweep c) (ha : a.Typed) (hb : b.Typed)
include h ha hb

theorem alike_wrongSortedSetType {body : Keyspace F → Bytes × Keyspace F}
    (hbody : ∀ a b, Fresh c key a b → Alike c (body a) (body b)) :
    Alike c (checked (a.wrongSortedSetType (once c 0) key) body)
      (checked (b.wrongSortedSetType (once c 0) key) body) :=
  alike_checked (fun type => type ≠ .none && type ≠ .zset) h ha hb hbody

theorem alike_wrongStringType {body : Keyspace F → Bytes × Keyspace F}
    (hbody : ∀ a b, Fresh c key a b → Alike c (body a) (body b)) :
    Alike c (checked (a.wrongStringType (once c 0) key) body)
      (checked (b.wrongStringType (once c 0) key) body) :=
  alike_checked (fun type => type ≠ .none && type ≠ .string) h ha hb hbody

theorem alike_reads_set {reply : Keyspace F → Bytes}
    (hreply : ∀ a b : Keyspace F, a.sortedSets = b.sortedSets → reply a = reply b) :
    Alike c (checked (a.wrongSortedSetType (once c 0) key) fun ks => (reply ks, ks))
      (checked (b.wrongSortedSetType (once c 0) key) fun ks => (reply ks, ks)) :=
  alike_wrongSortedSetType h ha hb fun a b hf => ⟨hreply a b hf.sortedSets, hf.sweep⟩

theorem alike_handleZrank : Alike c (a.handleZrank (once c) args) (b.handleZrank (once c) args) := by
  unfold handleZrank
  split
  · exact alike_reads_set h ha hb fun a b hs => by simp only [zrankReply, hs]
  · exact ⟨rfl, h⟩

theorem alike_handleZrange :
    Alike c (a.handleZrange (once c) args) (b.handleZrange (once c) args) := by
  have hzrange : ∀ key first last withScores,
      Alike c (a.zrange (once c) key first last withScores)
        (b.zrange (once c) key first last withScores) := by
    intro key first last withScores
    unfold zrange
    split
    · exact alike_reads_set h ha hb fun a b hs => by simp only [zrangeReply, hs]
    · exact ⟨rfl, h⟩
  unfold handleZrange
  split
  · exact hzrange ..
  · split
    · exact ⟨rfl, h⟩
    · exact hzrange ..
  · exact ⟨rfl, h⟩

theorem alike_handleZcard : Alike c (a.handleZcard (once c) args) (b.handleZcard (once c) args) := by
  unfold handleZcard
  split
  · exact alike_reads_set h ha hb fun a b hs => by simp only [zcardReply, setAt, hs]
  · exact ⟨rfl, h⟩

theorem alike_handleZscore :
    Alike c (a.handleZscore (once c) args) (b.handleZscore (once c) args) := by
  unfold handleZscore
  split
  · exact alike_reads_set h ha hb fun a b hs => by simp only [zscoreReply, hs]
  · exact ⟨rfl, h⟩

theorem alike_handleGeopos :
    Alike c (a.handleGeopos (once c) args) (b.handleGeopos (once c) args) := by
  unfold handleGeopos
  split
  · exact alike_reads_set h ha hb fun a b hs => by simp only [position, hs]
  · exact ⟨rfl, h⟩

theorem alike_handleGeodist :
    Alike c (a.handleGeodist (once c) args) (b.handleGeodist (once c) args) := by
  have hgeodist : ∀ key first second unit,
      Alike c (a.geodist (once c) key first second unit)
        (b.geodist (once c) key first second unit) := by
    intro key first second unit
    unfold geodist
    split
    · exact ⟨rfl, h⟩
    · exact alike_reads_set h ha hb fun a b hs => by simp only [position, hs]
  unfold handleGeodist
  split
  · exact hgeodist ..
  · exact hgeodist ..
  · exact ⟨rfl, h⟩

theorem alike_handleGeosearch :
    Alike c (a.handleGeosearch (once c) args) (b.handleGeosearch (once c) args) := by
  unfold handleGeosearch
  split
  · split
    · exact ⟨rfl, h⟩
    · exact alike_reads_set h ha hb fun a b hs => by simp only [hs]
  · exact ⟨rfl, h⟩

theorem alike_handleZadd : Alike c (a.handleZadd (once c) args) (b.handleZadd (once c) args) := by
  unfold handleZadd
  split
  · split
    · exact ⟨rfl, h⟩
    · split
      · exact ⟨rfl, h⟩
      · refine alike_wrongSortedSetType h ha hb fun a b hf => ?_
        simp only [setAt, hf.sortedSets]
        exact ⟨rfl, sweep_sortedSets hf.sweep _⟩
  · exact ⟨rfl, h⟩

theorem alike_handleZrem : Alike c (a.handleZrem (once c) args) (b.handleZrem (once c) args) := by
  unfold handleZrem
  split
  · refine alike_wrongSortedSetType h ha hb fun a b hf => ?_
    rw [hf.sortedSets]
    split
    · exact ⟨rfl, hf.sweep⟩
    · refine ⟨rfl, ?_⟩
      simp only [storeSet, hf.sortedSets]
      exact sweep_sortedSets hf.sweep _
  · exact ⟨rfl, h⟩

theorem alike_handleGeoadd :
    Alike c (a.handleGeoadd (once c) args) (b.handleGeoadd (once c) args) := by
  unfold handleGeoadd
  split
  · split
    · exact ⟨rfl, h⟩
    · dsimp only
      split
      · exact ⟨rfl, h⟩
      · split
        · exact ⟨rfl, h⟩
        · refine alike_wrongSortedSetType h ha hb fun a b hf => ?_
          unfold addGeo
          rw [hf.sortedSets]
          split
          · exact ⟨rfl, hf.sweep⟩
          · simp only [setAt, hf.sortedSets]
            exact ⟨rfl, sweep_sortedSets hf.sweep _⟩
  · exact ⟨rfl, h⟩

theorem alike_handleStrlen :
    Alike c (a.handleStrlen (once c) args) (b.handleStrlen (once c) args) := by
  unfold handleStrlen
  split
  · refine alike_wrongStringType h ha hb fun a b hf => ⟨?_, hf.sweep⟩
    simp only [hf.getD]
  · exact ⟨rfl, h⟩

theorem alike_handleGetbit :
    Alike c (a.handleGetbit (once c) args) (b.handleGetbit (once c) args) := by
  unfold handleGetbit
  split
  · split
    · exact ⟨rfl, h⟩
    · refine alike_wrongStringType h ha hb fun a b hf => ⟨?_, hf.sweep⟩
      simp only [hf.getD]
  · exact ⟨rfl, h⟩

theorem alike_handleBitcount :
    Alike c (a.handleBitcount (once c) args) (b.handleBitcount (once c) args) := by
  have hrange : ∀ key start stop bitRange,
      Alike c (a.bitcountRange (once c) key start stop bitRange)
        (b.bitcountRange (once c) key start stop bitRange) := by
    intro key start stop bitRange
    refine alike_wrongStringType h ha hb fun a b hf => ⟨?_, hf.sweep⟩
    simp only [hf.storage]
  unfold handleBitcount
  split
  · exact hrange ..
  · split
    · exact hrange ..
    · exact ⟨rfl, h⟩
  · split
    · split
      · exact ⟨rfl, h⟩
      · exact hrange ..
    · exact ⟨rfl, h⟩
  · exact ⟨rfl, h⟩

theorem alike_handleSetbit :
    Alike c (a.handleSetbit (once c) args) (b.handleSetbit (once c) args) := by
  unfold handleSetbit
  split
  · split
    · exact ⟨rfl, h⟩
    · split
      · exact ⟨rfl, h⟩
      · refine alike_wrongStringType h ha hb fun a b hf => ?_
        simp only [hf.getD]
        exact ⟨rfl, hf.insert _⟩
  · exact ⟨rfl, h⟩

theorem alike_handleType : Alike c (a.handleType (once c) args) (b.handleType (once c) args) := by
  unfold handleType
  split
  · refine ⟨?_, ?_⟩
    · simp only [once, keyType_eq_of_sweep h ha hb]
    · simpa only [once, keyType_snd, sweep_evict] using h
  · exact ⟨rfl, h⟩

/-- The dispatcher looks at the key before `GET` and `INCR`, and only then are they run. -/
theorem alike_dispatch_guarded {command : DataCommand}
    (hcommand : command.incompatibleWithSortedSet = true)
    (hshort : args.length < 2 → Alike c (command.handle (once c) args a)
      (command.handle (once c) args b))
    (hhandle : ∀ c' key more, args = c' :: key :: more → ∀ a b : Keyspace F, Fresh c key a b →
      Alike c (command.handle (once c) args a) (command.handle (once c) args b)) :
    Alike c (command.dispatch (once c) args a) (command.dispatch (once c) args b) := by
  rcases args with - | ⟨name, - | ⟨key, more⟩⟩
  · have hd : ∀ ks : Keyspace F, command.dispatch (once c) [] ks = command.handle (once c) [] ks := by
      intro ks
      simp [DataCommand.dispatch]
    rw [hd, hd]
    exact hshort (by simp)
  · have hd : ∀ ks : Keyspace F,
        command.dispatch (once c) [name] ks = command.handle (once c) [name] ks := by
      intro ks
      simp [DataCommand.dispatch]
    rw [hd, hd]
    exact hshort (by simp)
  · simp only [DataCommand.dispatch, hcommand]
    rw [show once c 0 = c from rfl, show (once c).later = once c from rfl,
      keyType_eq_of_sweep h ha hb, keyType_snd, keyType_snd]
    split
    · exact ⟨rfl, (fresh_evict h).sweep⟩
    · exact hhandle name key more rfl _ _ (fresh_evict h)

theorem alike_dispatch_get : Alike c (DataCommand.get.dispatch (once c) args a)
    (DataCommand.get.dispatch (once c) args b) := by
  refine alike_dispatch_guarded args h ha hb rfl (fun hlen => ?_) fun name key more hargs a b hf => ?_
  · rcases args with - | ⟨name, - | ⟨key, more⟩⟩
    · exact ⟨rfl, h⟩
    · exact ⟨rfl, h⟩
    · simp at hlen
  · subst hargs
    simp only [DataCommand.handle]
    unfold handleGet
    split
    · rename_i key' he
      cases he
      have hleft : a.isExpired c key = (false, a) := by simp [isExpired_eq, evict_eq, hf.left]
      have hright : b.isExpired c key = (false, b) := by simp [isExpired_eq, evict_eq, hf.right]
      simp only [once, hleft, hright, Bool.false_eq_true, if_false, hf.storage]
      split
      · exact ⟨rfl, hf.sweep⟩
      · exact ⟨rfl, hf.sweep⟩
    · exact ⟨rfl, hf.sweep⟩

theorem alike_dispatch_incr : Alike c (DataCommand.incr.dispatch (once c) args a)
    (DataCommand.incr.dispatch (once c) args b) := by
  refine alike_dispatch_guarded args h ha hb rfl (fun hlen => ?_) fun name key more hargs a b hf => ?_
  · rcases args with - | ⟨name, - | ⟨key, more⟩⟩
    · exact ⟨rfl, h⟩
    · exact ⟨rfl, h⟩
    · simp at hlen
  · subst hargs
    simp only [DataCommand.handle]
    unfold handleIncr
    split
    · rename_i key' he
      cases he
      rw [hf.storage]
      split
      · exact ⟨rfl, hf.insert _⟩
      · split
        · exact ⟨rfl, hf.sweep⟩
        · exact ⟨rfl, hf.insert _⟩
    · exact ⟨rfl, hf.sweep⟩

omit ha hb in
theorem sweep_assign {a' b' : Keyspace F} (key value : Bytes) (deadline : Option ℤ)
    (ha' : a'.storage = a.storage.insert key value ∧
      (∀ k : Bytes, a'.expirations[k]? = if key = k then deadline else a.expirations[k]?) ∧
      a'.dynamicVector = a.dynamicVector.erase key ∧ a'.streams = a.streams.erase key ∧
      a'.sortedSets = a.sortedSets.erase key)
    (hb' : b'.storage = b.storage.insert key value ∧
      (∀ k : Bytes, b'.expirations[k]? = if key = k then deadline else b.expirations[k]?) ∧
      b'.dynamicVector = b.dynamicVector.erase key ∧ b'.streams = b.streams.erase key ∧
      b'.sortedSets = b.sortedSets.erase key) :
    a'.sweep c = b'.sweep c := by
  obtain ⟨hs, he, hl, hx, hz⟩ := ha'
  obtain ⟨hs', he', hl', hx', hz'⟩ := hb'
  refine sweep_eq_of_update key h (fun k hk => ⟨?_, ?_⟩) (fun k hk => ⟨?_, ?_⟩)
    ⟨by simp [hs, hs'], by rw [he, he', if_pos rfl, if_pos rfl]⟩ ?_ ?_ ?_
  · simp [hs, Std.ExtTreeMap.getElem?_insert, Ne.symm hk]
  · rw [he, if_neg (Ne.symm hk)]
  · simp [hs', Std.ExtTreeMap.getElem?_insert, Ne.symm hk]
  · rw [he', if_neg (Ne.symm hk)]
  · rw [hl, hl', dynamicVector_of_sweep h]
  · rw [hx, hx', streams_of_sweep h]
  · rw [hz, hz', sortedSets_of_sweep h]

omit ha hb in
theorem alike_handleSet : Alike c (a.handleSet (once c) args) (b.handleSet (once c) args) := by
  have hforever : ∀ key value, (a.assignForever key value).sweep c =
      (b.assignForever key value).sweep c := fun key value =>
    sweep_assign h key value none
      ⟨rfl, fun k => by simp [assignForever, Std.ExtTreeMap.getElem?_erase], rfl, rfl, rfl⟩
      ⟨rfl, fun k => by simp [assignForever, Std.ExtTreeMap.getElem?_erase], rfl, rfl, rfl⟩
  have huntil : ∀ key value t, (a.assignUntil key value t).sweep c =
      (b.assignUntil key value t).sweep c := fun key value t =>
    sweep_assign h key value (some t)
      ⟨rfl, fun k => by simp [assignUntil, assign, eraseOthers, Std.ExtTreeMap.getElem?_insert],
        rfl, rfl, rfl⟩
      ⟨rfl, fun k => by simp [assignUntil, assign, eraseOthers, Std.ExtTreeMap.getElem?_insert],
        rfl, rfl, rfl⟩
  unfold handleSet
  split
  · exact ⟨rfl, hforever ..⟩
  · split
    · exact ⟨rfl, h⟩
    · split
      · exact ⟨rfl, h⟩
      · split
        · exact ⟨rfl, huntil ..⟩
        · split
          · exact ⟨rfl, huntil ..⟩
          · exact ⟨rfl, h⟩
  · exact ⟨rfl, h⟩

theorem alike_bitopSources (keys : List Bytes) :
    Alike c (bitopSources (once c) keys a) (bitopSources (once c) keys b) := by
  induction keys generalizing a b with
  | nil => exact ⟨rfl, h⟩
  | cons key keys ih =>
    have hf : Fresh c key (a.evict c key) (b.evict c key) := fresh_evict h
    have hwrong : (a.wrongStringType c key).1 = (b.wrongStringType c key).1 := by
      simp only [wrongStringType, keyType_eq_of_sweep h ha hb]
    simp only [bitopSources, once, wrongStringType_snd, hwrong, hf.getD]
    split
    · exact ⟨rfl, hf.sweep⟩
    · obtain ⟨hvalues, hsweep⟩ := ih hf.sweep (ha.evict c key) (hb.evict c key)
      exact ⟨congrArg (Option.map _) hvalues, hsweep⟩

omit ha hb in
theorem sweep_storeBits (key result : Bytes) :
    (a.storeBits key result).sweep c = (b.storeBits key result).sweep c := by
  have hother : ∀ (ks : Keyspace F) (k : Bytes), k ≠ key →
      (ks.storeBits key result).storage[k]? = ks.storage[k]? ∧
        (ks.storeBits key result).expirations[k]? = ks.expirations[k]? := by
    intro ks k hk
    refine ⟨?_, by simp [storeBits, Std.ExtTreeMap.getElem?_erase, Ne.symm hk]⟩
    simp only [storeBits]
    split
    · simp [Std.ExtTreeMap.getElem?_erase, Ne.symm hk]
    · simp [Std.ExtTreeMap.getElem?_insert, Ne.symm hk]
  refine sweep_eq_of_update key h (hother a) (hother b) ⟨?_, by simp [storeBits]⟩ ?_ ?_ ?_
  · simp only [storeBits]
    split <;> simp
  · simp only [storeBits, eraseOthers, dynamicVector_of_sweep h]
  · simp only [storeBits, eraseOthers, streams_of_sweep h]
  · simp only [storeBits, eraseOthers, sortedSets_of_sweep h]

theorem alike_handleBitop : Alike c (a.handleBitop (once c) args) (b.handleBitop (once c) args) := by
  unfold handleBitop
  split
  · split
    · exact ⟨rfl, h⟩
    · split
      · exact ⟨rfl, h⟩
      · rename_i source sources _ _ _ _
        obtain ⟨hvalues, hsweep⟩ := alike_bitopSources h ha hb (source :: sources)
        dsimp only
        rw [hvalues]
        split
        · exact ⟨rfl, hsweep⟩
        · exact ⟨rfl, sweep_storeBits hsweep _ _⟩
  · exact ⟨rfl, h⟩

omit [Platform F] h ha hb in
theorem mem_keys_iff {V : Type} (m : Map V) (k : Bytes) : k ∈ m.keys ↔ m.contains k = true := by
  rw [Std.ExtTreeMap.mem_keys, Std.ExtTreeMap.mem_iff_contains]

omit h hb in
theorem nodup_candidates : a.candidates.Nodup := by
  have hdisjoint : ∀ (type type' : KeyType) {k : Bytes}, type ≠ type' → a.holds type k = true →
      a.holds type' k = true → False := fun _ _ _ hne ht ht' => hne (ha.one _ _ _ ht ht')
  unfold candidates
  refine List.nodup_append.mpr ⟨List.nodup_append.mpr ⟨List.nodup_append.mpr
    ⟨Std.ExtTreeMap.nodup_keys, Std.ExtTreeMap.nodup_keys, ?_⟩, Std.ExtTreeMap.nodup_keys, ?_⟩,
    Std.ExtTreeMap.nodup_keys, ?_⟩
  · rintro k hk k' hk' rfl
    rw [mem_keys_iff] at hk hk'
    exact hdisjoint .string .list (by decide) hk hk'
  · rintro k hk k' hk' rfl
    simp only [List.mem_append, mem_keys_iff] at hk hk'
    rcases hk with hk | hk
    · exact hdisjoint .string .stream (by decide) hk hk'
    · exact hdisjoint .list .stream (by decide) hk hk'
  · rintro k hk k' hk' rfl
    simp only [List.mem_append, mem_keys_iff] at hk hk'
    rcases hk with (hk | hk) | hk
    · exact hdisjoint .string .zset (by decide) hk hk'
    · exact hdisjoint .list .zset (by decide) hk hk'
    · exact hdisjoint .stream .zset (by decide) hk hk'

omit h ha hb in
theorem matchKeys_fst (pattern : Bytes) {keys : List Bytes} (hk : keys.Nodup) (ks : Keyspace F) :
    (matchKeys pattern (once c) keys ks).1 =
      keys.filter fun k => !ks.expired c k && Platform.fnmatch F pattern k := by
  induction keys generalizing ks with
  | nil => rfl
  | cons key keys ih =>
    obtain ⟨hnot, hrest⟩ := List.nodup_cons.mp hk
    have hcongr : (keys.filter fun k => !(ks.evict c key).expired c k && Platform.fnmatch F pattern k) =
        keys.filter fun k => !ks.expired c k && Platform.fnmatch F pattern k := by
      refine List.filter_congr fun k hmem => ?_
      have hne : k ≠ key := fun he => hnot (he ▸ hmem)
      simp [expired_evict, hne]
    have hlater : (once c).later = once c := rfl
    simp only [matchKeys, hlater, once, isExpired_eq]
    change (if _ then matchKeys pattern (once c) keys (ks.evict c key) else _).1 = _
    rw [List.filter_cons]
    cases hexp : ks.expired c key with
    | true => simpa [hexp, hcongr] using ih hrest (ks.evict c key)
    | false =>
      have hih := ih hrest (ks.evict c key)
      rw [hcongr] at hih
      simp only [Bool.false_eq_true, if_false]
      split
      · rename_i hm
        simpa [hm] using hih
      · rename_i hm
        simpa [hm] using hih

omit h hb in
/-- The keys that are listed are those of the swept keyspace. -/
theorem filter_candidates (pattern : Bytes) :
    (a.candidates.filter fun k => !a.expired c k && Platform.fnmatch F pattern k) =
      (a.sweep c).candidates.filter fun k => Platform.fnmatch F pattern k := by
  have hlive : ∀ (type : KeyType) {k : Bytes}, type ≠ .string → a.holds type k = true →
      a.expired c k = false := by
    intro type k hne hk
    cases hd : a.expirations[k]? with
    | none => simp [expired, hd]
    | some deadline =>
      have hstring : a.holds .string k = true :=
        ha.deadline k (by simp [Std.ExtTreeMap.contains_eq_isSome_getElem?, hd])
      exact absurd (ha.one k type .string hk hstring) hne
  have hstorage : (a.sweep c).storage.keys = a.storage.keys.filter fun k => !a.expired c k :=
    Std.ExtTreeMap.keys_filter_key
  have hother : ∀ {keys : List Bytes}, (∀ k ∈ keys, a.expired c k = false) →
      (keys.filter fun k => !a.expired c k && Platform.fnmatch F pattern k) =
        keys.filter fun k => Platform.fnmatch F pattern k := by
    intro keys hkeys
    refine List.filter_congr fun k hk => ?_
    simp [hkeys k hk]
  simp only [candidates, List.filter_append, hstorage, List.filter_filter]
  have hlists := hother fun k hk => hlive .list (by decide) ((mem_keys_iff _ k).mp hk)
  have hstreams := hother fun k hk => hlive .stream (by decide) ((mem_keys_iff _ k).mp hk)
  have hsets := hother fun k hk => hlive .zset (by decide) ((mem_keys_iff _ k).mp hk)
  have hstrings : (a.storage.keys.filter fun k => !a.expired c k && Platform.fnmatch F pattern k) =
      a.storage.keys.filter fun k => Platform.fnmatch F pattern k && !a.expired c k :=
    List.filter_congr fun k _ => Bool.and_comm _ _
  rw [hlists, hstreams, hsets, hstrings]
  rfl

theorem alike_handleKeys : Alike c (a.handleKeys (once c) args) (b.handleKeys (once c) args) := by
  unfold handleKeys
  split
  · rename_i pattern
    refine ⟨?_, ?_⟩
    · simp only [matchKeys_fst pattern (nodup_candidates ha),
        matchKeys_fst pattern (nodup_candidates hb),
        filter_candidates ha, filter_candidates hb, h]
    · rw [sweep_evicts c (evicts_matchKeys _ _ (once c) a),
        sweep_evicts c (evicts_matchKeys _ _ (once c) b), h]
  · exact ⟨rfl, h⟩

end alike

/-- Strings and sorted sets only, each key with one of them. -/
structure Plain (ks : Keyspace F) : Prop extends ks.Typed where
  lists : ks.dynamicVector = ∅
  streams : ks.streams = ∅

theorem plain_empty : ({} : Keyspace F).Plain := ⟨typed_empty, rfl, rfl⟩

theorem Plain.evict {ks : Keyspace F} (h : ks.Plain) (c : Clock) (key : Bytes) :
    (ks.evict c key).Plain :=
  ⟨h.toTyped.evict c key, (evict_dynamicVector ..).trans h.lists, (evict_streams ..).trans h.streams⟩

theorem Plain.evicts {clock : Readings} {ks ks' : Keyspace F} (h : ks.Plain)
    (he : Evicts clock ks ks') : ks'.Plain :=
  he.preserves (fun _ _ key hks => hks.evict _ key) h

theorem Plain.sweep {ks : Keyspace F} (h : ks.Plain) (c : Clock) : (ks.sweep c).Plain where
  one key type type' ht ht' := by
    have hholds : ∀ {type : KeyType}, (ks.sweep c).holds type key = true →
        ks.holds type key = true := by
      intro type ht
      cases type with
      | string =>
        simp only [holds, Std.ExtTreeMap.contains_eq_isSome_getElem?, sweep_storage] at ht ⊢
        split at ht
        · cases ht
        · exact ht
      | _ => exact ht
    exact h.one key type type' (hholds ht) (hholds ht')
  deadline key hk := by
    rw [Std.ExtTreeMap.contains_eq_isSome_getElem?, sweep_expirations] at hk
    rw [Std.ExtTreeMap.contains_eq_isSome_getElem?, sweep_storage]
    split at hk
    · cases hk
    · rename_i hexp
      rw [if_neg hexp, ← Std.ExtTreeMap.contains_eq_isSome_getElem?]
      exact h.deadline key (by rwa [Std.ExtTreeMap.contains_eq_isSome_getElem?])
  lists := h.lists
  streams := h.streams

end Keyspace

namespace DataCommand

open Keyspace

def timed : DataCommand → Bool
  | .rpush | .lrange | .lpush | .llen | .lpop | .xadd | .xrange => false
  | _ => true

theorem alike_dispatch {command : DataCommand} (hc : command.timed = true) {c : Clock}
    (args : List Bytes) {a b : Keyspace F} (h : a.sweep c = b.sweep c) (ha : a.Typed)
    (hb : b.Typed) :
    Alike c (command.dispatch (once c) args a) (command.dispatch (once c) args b) := by
  cases command with
  | get => exact alike_dispatch_get args h ha hb
  | incr => exact alike_dispatch_incr args h ha hb
  | rpush | lrange | lpush | llen | lpop | xadd | xrange => cases hc
  | zadd => exact alike_handleZadd args h ha hb
  | zrank => exact alike_handleZrank args h ha hb
  | zrange => exact alike_handleZrange args h ha hb
  | zcard => exact alike_handleZcard args h ha hb
  | zscore => exact alike_handleZscore args h ha hb
  | zrem => exact alike_handleZrem args h ha hb
  | geoadd => exact alike_handleGeoadd args h ha hb
  | geopos => exact alike_handleGeopos args h ha hb
  | geodist => exact alike_handleGeodist args h ha hb
  | geosearch => exact alike_handleGeosearch args h ha hb
  | set => exact alike_handleSet args h
  | strlen => exact alike_handleStrlen args h ha hb
  | setbit => exact alike_handleSetbit args h ha hb
  | getbit => exact alike_handleGetbit args h ha hb
  | bitcount => exact alike_handleBitcount args h ha hb
  | bitop => exact alike_handleBitop args h ha hb
  | type => exact alike_handleType args h ha hb
  | keys => exact alike_handleKeys args h ha hb

/-- The commands on strings and sorted sets create no list and no stream. -/
theorem plain_handle {command : DataCommand} (hc : command.timed = true) (clock : Readings)
    (args : List Bytes) {ks : Keyspace F} (hl : ks.dynamicVector = ∅) (hs : ks.streams = ∅) :
    (command.handle clock args ks).2.dynamicVector = ∅ ∧
      (command.handle clock args ks).2.streams = ∅ := by
  have hevicts : ∀ {ks' : Keyspace F}, Evicts clock ks ks' →
      ks'.dynamicVector = ∅ ∧ ks'.streams = ∅ := by
    intro ks' he
    refine he.preserves (P := fun ks => ks.dynamicVector = ∅ ∧ ks.streams = ∅) ?_ ⟨hl, hs⟩
    intro ks i key h
    rwa [evict_dynamicVector, evict_streams]
  have hassign : ∀ {ks' : Keyspace F} (key : Bytes), ks'.dynamicVector = ∅ ∧ ks'.streams = ∅ →
      ks'.dynamicVector.erase key = ∅ ∧ ks'.streams.erase key = ∅ := by
    rintro ks' key ⟨hl, hs⟩
    rw [hl, hs]
    simp
  by_cases hw : command.isWrite = false
  · exact hevicts ((command.outcome_handle clock args ks).evicts_of_not_isWrite hw)
  cases command with
  | zadd =>
    rcases handleZadd_cases clock args ks with ⟨-, he⟩ | ⟨_, key, _, _, -, -, -, -, he⟩
    · exact hevicts he
    · simp only [handle, he]
      exact hevicts (.single clock ks 0 key)
  | zrem =>
    rcases handleZrem_cases clock args ks with ⟨-, he⟩ | ⟨_, key, _, _, -, -, -, he⟩ |
      ⟨_, key, _, _, _, -, -, -, he⟩
    · exact hevicts he
    · simp only [handle, he]
      exact hevicts (.single clock ks 0 key)
    · simp only [handle, he]
      have hkey := hevicts (.single clock ks 0 key)
      exact ⟨hkey.1, hkey.2⟩
  | geoadd =>
    rcases handleGeoadd_cases clock args ks with ⟨-, he⟩ | ⟨_, key, _, _, -, -, -, -, -, he⟩
    · exact hevicts he
    · simp only [handle, he, addGeo]
      have hkey := hevicts (.single clock ks 0 key)
      split
      · exact hkey
      · exact ⟨hkey.1, hkey.2⟩
  | set =>
    rcases handleSet_cases clock args ks with ⟨-, he⟩ | ⟨_, key, value, -, he⟩ |
      ⟨_, key, value, _, _, -, t, he⟩ <;> simp only [handle, he]
    · exact ⟨hl, hs⟩
    · exact hassign key ⟨hl, hs⟩
    · exact hassign key ⟨hl, hs⟩
  | incr =>
    rcases handleIncr_cases args ks with ⟨-, he⟩ | ⟨_, key, n, -, -, he⟩ <;> simp only [handle, he]
    · exact ⟨hl, hs⟩
    · exact ⟨hl, hs⟩
  | setbit =>
    rcases handleSetbit_cases clock args ks with ⟨-, he⟩ | ⟨_, key, _, _, _, -, -, -, -, he⟩
    · exact hevicts he
    · simp only [handle, he]
      exact hevicts (.single clock ks 0 key)
  | bitop =>
    rcases handleBitop_cases clock args ks with ⟨-, he⟩ | ⟨_, _, dest, src, srcs, _, _, -, -, -, -, he⟩
    · exact hevicts he
    · simp only [handle, he]
      exact hassign dest (hevicts (evicts_bitopSources (src :: srcs) clock ks))
  | rpush | lpush | lpop | xadd => cases hc
  | _ => exact absurd rfl hw

theorem plain_dispatch {command : DataCommand} (hc : command.timed = true) (clock : Readings)
    {args : List Bytes} (hname : dataCommand args = some command) {ks : Keyspace F} (h : ks.Plain) :
    (command.dispatch clock args ks).2.Plain := by
  have hcall : (Call.run clock ks args).result = command.dispatch clock args ks := by
    simp only [Call.result, execute, hname]
  have hclash : clashes clock ks args = false := by
    have htype : ∀ key, (ks.keyType (clock 0) key).1 ≠ .list ∧
        (ks.keyType (clock 0) key).1 ≠ .stream := by
      intro key
      rw [keyType_eq_sweep h.toTyped]
      have hlist : (ks.sweep (clock 0)).dynamicVector = ∅ := h.lists
      have hstream : (ks.sweep (clock 0)).streams = ∅ := h.streams
      unfold typeOf
      rw [hlist, hstream]
      repeat' split
      all_goals simp_all
    unfold clashes
    rw [hname]
    cases command with
    | rpush | lpush | xadd => cases hc
    | incr =>
      rcases args with - | ⟨name, - | ⟨key, - | ⟨more, rest⟩⟩⟩
      · rfl
      · rfl
      · simp [htype key]
      · rfl
    | _ => rfl
  have hrest : (command.dispatch clock args ks).2.dynamicVector = ∅ ∧
      (command.dispatch clock args ks).2.streams = ∅ := by
    rcases command.dispatch_cases clock args ks with
      ⟨-, he⟩ | ⟨_, key, _, -, -, ⟨-, he⟩ | ⟨-, he⟩⟩ <;> rw [he]
    · exact plain_handle hc clock args h.lists h.streams
    · exact ⟨(h.evict _ key).lists, (h.evict _ key).streams⟩
    · exact plain_handle hc clock.later args (h.evict _ key).lists (h.evict _ key).streams
  exact ⟨hcall ▸ Call.typed_result (c := .run clock ks args) h.toTyped hclash, hrest.1, hrest.2⟩

end DataCommand

end TrueStore
