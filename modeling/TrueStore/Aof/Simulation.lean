import TrueStore.Aof.Drift

/-! # A safe write succeeds again

Each write that succeeded on the live data and is safe for the drift also succeeds on data that
agree with them up to the drift, and the results agree up to the drift after the write.
-/

namespace TrueStore

open Journal RespType

variable {F : Type} [Platform F]

namespace Sim

open Keyspace

variable {d : Drift} {live again : Keyspace F}

theorem later (h : Sim d live again) : Sim { d with writes := d.writes + 1 } live again :=
  { h with
    auto := fun key hk => by
      obtain ⟨s, s', m, m', hs, hs', hm, hm', ha⟩ := h.auto key hk
      exact ⟨s, s', m, m', hs, hs', hm, hm', ha.mono (Nat.le_succ _)⟩ }

theorem setLists (h : Sim d live again) (lists : Map (List Bytes)) :
    Sim d { live with dynamicVector := lists } { again with dynamicVector := lists } :=
  { h with lists := rfl }

theorem listAt_eq (h : Sim d live again) (key : Bytes) : again.listAt key = live.listAt key := by
  rw [listAt, listAt, h.lists]

theorem pushList (h : Sim d live again) (key : Bytes) (list : List Bytes) :
    Sim d (live.pushList key list).2 (again.pushList key list).2 := by
  simp only [Keyspace.pushList, h.lists]
  exact h.setLists _

theorem storeList (h : Sim d live again) (key : Bytes) (list : List Bytes) :
    Sim d (live.storeList key list) (again.storeList key list) := by
  simp only [Keyspace.storeList, h.lists]
  exact h.setLists _

theorem rpush (h : Sim d live again) {args : List Bytes}
    (hok : isError (live.handleRpush args).1 = false) :
    isError (again.handleRpush args).1 = false ∧
      Sim d (live.handleRpush args).2 (again.handleRpush args).2 := by
  rcases handleRpush_cases args live with ⟨he, -⟩ | ⟨c, key, v, vs, rfl, -⟩
  · simp [hok] at he
  · refine ⟨by simp [handleRpush, Keyspace.pushList], ?_⟩
    simp only [handleRpush, h.listAt_eq]
    exact h.pushList key _

theorem lpush (h : Sim d live again) {args : List Bytes}
    (hok : isError (live.handleLpush args).1 = false) :
    isError (again.handleLpush args).1 = false ∧
      Sim d (live.handleLpush args).2 (again.handleLpush args).2 := by
  rcases handleLpush_cases args live with ⟨he, -⟩ | ⟨c, key, v, vs, rfl, -⟩
  · simp [hok] at he
  · refine ⟨by simp [handleLpush, Keyspace.pushList], ?_⟩
    simp only [handleLpush, h.listAt_eq]
    exact h.pushList key _

theorem lpop (h : Sim d live again) (args : List Bytes) :
    (again.handleLpop args).1 = (live.handleLpop args).1 ∧
      Sim d (live.handleLpop args).2 (again.handleLpop args).2 := by
  unfold handleLpop
  simp only [h.listAt_eq]
  repeat' split
  all_goals exact ⟨rfl, by first | exact h | exact h.storeList _ _⟩

theorem setSets (h : Sim d live again) {sets : Map (SortedSet F)}
    (hu : ∀ key, d.strings.contains key = true → sets[key]? = none) :
    Sim d { live with sortedSets := sets } { again with sortedSets := sets } :=
  { h with sets := rfl, unset := hu }

theorem insertSet (h : Sim d live again) {key : Bytes} (hk : d.strings.contains key = false)
    (set : SortedSet F) :
    Sim d { live with sortedSets := live.sortedSets.insert key set }
      { again with sortedSets := again.sortedSets.insert key set } := by
  rw [h.sets]
  refine h.setSets fun k hc => ?_
  have hne : key ≠ k := by
    rintro rfl
    rw [hk] at hc
    cases hc
  simp [Std.ExtTreeMap.getElem?_insert, hne, h.unset k hc]

theorem setAt_eq (h : Sim d live again) (key : Bytes) : again.setAt key = live.setAt key := by
  rw [setAt, setAt, h.sets]

theorem storeSet (h : Sim d live again) {key : Bytes} (hk : d.strings.contains key = false)
    (set : SortedSet F) : Sim d (live.storeSet key set) (again.storeSet key set) := by
  unfold Keyspace.storeSet
  split
  · rw [h.sets]
    refine h.setSets fun k hc => ?_
    simp only [Std.ExtTreeMap.getElem?_erase]
    split
    · rfl
    · exact h.unset k hc
  · exact h.insertSet hk set

theorem zadd (h : Sim d live again) {clock clock' : Readings} {args : List Bytes}
    (hs : ∀ c key rest, args = c :: key :: rest → d.strings.contains key = false)
    (hok : isError (live.handleZadd clock args).1 = false) :
    isError (again.handleZadd clock' args).1 = false ∧
      Sim d (live.handleZadd clock args).2 (again.handleZadd clock' args).2 := by
  rcases handleZadd_cases clock args live with ⟨he, -⟩ |
    ⟨c, key, rest, entries, rfl, hentries, hlen, hz, hlive⟩
  · simp [hok] at he
  · have hk := hs _ _ _ rfl
    have h₁ := (h.evict_live (clock 0) key).evict_again (clock' 0) key
    rw [hlive]
    simp only [handleZadd, if_neg hlen, hentries, checked,
      h.again_wrongSortedSetType hk hz (clock' 0), Bool.false_eq_true, if_false,
      wrongSortedSetType_snd, h₁.setAt_eq]
    exact ⟨by simp, h₁.insertSet hk _⟩

theorem zrem (h : Sim d live again) {clock clock' : Readings} {args : List Bytes}
    (hs : ∀ c key rest, args = c :: key :: rest → d.strings.contains key = false)
    (hok : isError (live.handleZrem clock args).1 = false) :
    isError (again.handleZrem clock' args).1 = false ∧
      Sim d (live.handleZrem clock args).2 (again.handleZrem clock' args).2 := by
  rcases handleZrem_cases clock args live with ⟨he, -⟩ | ⟨c, key, m, ms, rfl, hz, hnone, hlive⟩ |
    ⟨c, key, m, ms, set, rfl, hz, hsome, hlive⟩
  · simp [hok] at he
  · have hk := hs _ _ _ rfl
    have h₁ := (h.evict_live (clock 0) key).evict_again (clock' 0) key
    rw [hlive]
    simp only [handleZrem, checked, h.again_wrongSortedSetType hk hz (clock' 0),
      Bool.false_eq_true, if_false, wrongSortedSetType_snd, evict_sortedSets, h.sets, hnone]
    exact ⟨by simp, h₁⟩
  · have hk := hs _ _ _ rfl
    have h₁ := (h.evict_live (clock 0) key).evict_again (clock' 0) key
    rw [hlive]
    simp only [handleZrem, checked, h.again_wrongSortedSetType hk hz (clock' 0),
      Bool.false_eq_true, if_false, wrongSortedSetType_snd, evict_sortedSets, h.sets, hsome]
    exact ⟨by simp, h₁.storeSet hk _⟩

theorem addGeo (h : Sim d live again) {key : Bytes} (hk : d.strings.contains key = false)
    (o : Geo.AddOptions) (entries : List (F × Bytes)) :
    isError (again.addGeo o key entries).1 = false ∧
      Sim d (live.addGeo o key entries).2 (again.addGeo o key entries).2 := by
  unfold Keyspace.addGeo
  rw [h.setAt_eq]
  have hc : again.sortedSets.contains key = live.sortedSets.contains key := by rw [h.sets]
  rw [hc]
  split
  · exact ⟨by simp, h⟩
  · exact ⟨by simp, h.insertSet hk _⟩

theorem geoadd (h : Sim d live again) {clock clock' : Readings} {args : List Bytes}
    (hs : ∀ c key rest, args = c :: key :: rest → d.strings.contains key = false)
    (hok : isError (live.handleGeoadd clock args).1 = false) :
    isError (again.handleGeoadd clock' args).1 = false ∧
      Sim d (live.handleGeoadd clock args).2 (again.handleGeoadd clock' args).2 := by
  rcases handleGeoadd_cases clock args live with ⟨he, -⟩ |
    ⟨c, key, rest, entries, rfl, hlen, hopt, hentries, hz, hlive⟩
  · simp [hok] at he
  · have hk := hs _ _ _ rfl
    have h₁ := (h.evict_live (clock 0) key).evict_again (clock' 0) key
    rw [hlive]
    simp only [handleGeoadd, if_neg hlen, if_neg hopt, hentries, checked,
      h.again_wrongSortedSetType hk hz (clock' 0), Bool.false_eq_true, if_false,
      wrongSortedSetType_snd]
    exact h₁.addGeo hk _ _

structure StringOnly (key : Bytes) (ks ks' : Keyspace F) : Prop where
  lists : ks'.dynamicVector = ks.dynamicVector
  sets : ks'.sortedSets = ks.sortedSets
  streams : ks'.streams = ks.streams
  storage : ∀ k : Bytes, k ≠ key → ks'.storage[k]? = ks.storage[k]?
  expirations : ∀ k : Bytes, k ≠ key → ks'.expirations[k]? = ks.expirations[k]?

theorem string (h : Sim d live again) {key : Bytes} {d' : Drift} {live' again' : Keyspace F}
    (hd : d'.streams = d.streams ∧ d'.writes = d.writes)
    (hkeys : ∀ k : Bytes, k ≠ key → d'.strings[k]? = d.strings[k]?)
    (hl : StringOnly key live live') (ha : StringOnly key again again')
    (hkey : (d'.strings[key]? = none ∧ again'.storage[key]? = live'.storage[key]? ∧
        live'.expirations[key]? = none ∧ again'.expirations[key]? = none) ∨
      (d'.strings[key]?.isSome = true ∧ live.sortedSets[key]? = none ∧
        (d'.strings[key]? = some true → ∀ value, again'.storage[key]? = some value →
          (stoi value).isSome = true))) :
    Sim d' live' again' where
  lists := by rw [ha.lists, hl.lists, h.lists]
  sets := by rw [ha.sets, hl.sets, h.sets]
  strings k hk := by
    rw [Std.ExtTreeMap.contains_eq_isSome_getElem?] at hk
    by_cases he : k = key
    · subst he
      rcases hkey with ⟨-, hkey⟩ | ⟨hsome, -⟩
      · exact hkey
      · rw [hk] at hsome
        cases hsome
    · rw [hkeys k he, ← Std.ExtTreeMap.contains_eq_isSome_getElem?] at hk
      rw [ha.storage k he, hl.storage k he, hl.expirations k he, ha.expirations k he]
      exact h.strings k hk
  numbers k hk value hv := by
    by_cases he : k = key
    · subst he
      rcases hkey with ⟨hnone, -⟩ | ⟨-, -, hnum⟩
      · rw [hk] at hnone
        cases hnone
      · exact hnum hk value hv
    · rw [hkeys k he] at hk
      rw [ha.storage k he] at hv
      exact h.numbers k hk value hv
  unset k hk := by
    rw [hl.sets]
    rw [Std.ExtTreeMap.contains_eq_isSome_getElem?] at hk
    by_cases he : k = key
    · subst he
      rcases hkey with ⟨hnone, -⟩ | ⟨-, hunset, -⟩
      · simp [hnone] at hk
      · exact hunset
    · rw [hkeys k he, ← Std.ExtTreeMap.contains_eq_isSome_getElem?] at hk
      exact h.unset k hk
  streams k hk := by
    rw [hl.streams, ha.streams]
    exact h.streams k (hd.1 ▸ hk)
  auto k hk := by
    rw [hl.streams, ha.streams, hd.2]
    exact h.auto k (hd.1 ▸ hk)
  ordered k s hs := h.ordered k s (by rwa [ha.streams] at hs)

theorem eraseOthers (h : Sim d live again) (key : Bytes) :
    Sim { d with streams := d.streams.erase key } (live.eraseOthers key)
      (again.eraseOthers key) where
  lists := by simp only [Keyspace.eraseOthers, h.lists]
  sets := by simp only [Keyspace.eraseOthers, h.sets]
  strings := h.strings
  numbers := h.numbers
  unset k hk := by
    simp only [Keyspace.eraseOthers, Std.ExtTreeMap.getElem?_erase]
    split
    · rfl
    · exact h.unset k hk
  streams k hk := by
    simp only [Keyspace.eraseOthers, Std.ExtTreeMap.getElem?_erase]
    split
    · rfl
    · rename_i hne
      simp only [Std.ExtTreeSet.contains_erase, Bool.and_eq_false_iff] at hk
      exact h.streams k (hk.resolve_left (by simpa using hne))
  auto k hk := by
    simp only [Std.ExtTreeSet.contains_erase, Bool.and_eq_true] at hk
    have hne : ¬key = k := by simpa using hk.1
    simp only [Keyspace.eraseOthers, Std.ExtTreeMap.getElem?_erase,
      Std.LawfulEqCmp.compare_eq_iff_eq, hne, if_false]
    exact h.auto k hk.2
  ordered k s hs := by
    simp only [Keyspace.eraseOthers, Std.ExtTreeMap.getElem?_erase] at hs
    split at hs
    · cases hs
    · exact h.ordered k s hs

theorem stringOnly_insert (ks : Keyspace F) (key value : Bytes) :
    StringOnly key ks { ks with storage := ks.storage.insert key value } where
  lists := rfl
  sets := rfl
  streams := rfl
  storage k hk := by simp [Std.ExtTreeMap.getElem?_insert, Ne.symm hk]
  expirations _ _ := rfl

theorem assignForever (h : Sim d live again) (key value : Bytes) :
    Sim { d with strings := d.strings.erase key, streams := d.streams.erase key }
      (live.assignForever key value) (again.assignForever key value) := by
  have hs : ∀ ks : Keyspace F, StringOnly key (ks.eraseOthers key) (ks.assignForever key value) :=
    fun ks => ⟨rfl, rfl, rfl, fun k hk => by
      simp [Keyspace.assignForever, assign, Keyspace.eraseOthers, Std.ExtTreeMap.getElem?_insert,
        Ne.symm hk], fun k hk => by
      simp [Keyspace.assignForever, Keyspace.eraseOthers, Std.ExtTreeMap.getElem?_erase,
        Ne.symm hk]⟩
  refine (h.eraseOthers key).string ⟨rfl, rfl⟩ (fun k hk => ?_) (hs live) (hs again) (.inl ?_)
  · simp [Std.ExtTreeMap.getElem?_erase, Ne.symm hk]
  · simp [Keyspace.assignForever, assign]

theorem assignUntil (h : Sim d live again) (key value : Bytes) (t t' : ℤ) :
    Sim { d with
        strings := d.strings.insert key (stoi value).isSome
        streams := d.streams.erase key }
      (live.assignUntil key value t) (again.assignUntil key value t') := by
  have hs : ∀ (ks : Keyspace F) (t : ℤ),
      StringOnly key (ks.eraseOthers key) (ks.assignUntil key value t) :=
    fun ks t => ⟨rfl, rfl, rfl, fun k hk => by
      simp [Keyspace.assignUntil, assign, Keyspace.eraseOthers, Std.ExtTreeMap.getElem?_insert,
        Ne.symm hk], fun k hk => by
      simp [Keyspace.assignUntil, assign, Keyspace.eraseOthers, Std.ExtTreeMap.getElem?_insert,
        Ne.symm hk]⟩
  refine (h.eraseOthers key).string ⟨rfl, rfl⟩ (fun k hk => ?_) (hs live t) (hs again t')
    (.inr ⟨by simp, by simp [Keyspace.eraseOthers], fun hn v hv => ?_⟩)
  · simp [Std.ExtTreeMap.getElem?_insert, Ne.symm hk]
  · simp only [Keyspace.assignUntil, assign, Std.ExtTreeMap.getElem?_insert_self,
      Option.some.injEq] at hn hv
    exact hv ▸ hn

theorem handleSet_reply (clock clock' : Readings) (args : List Bytes) (ks ks' : Keyspace F) :
    (ks.handleSet clock args).1 = (ks'.handleSet clock' args).1 := by
  unfold handleSet
  split
  · rfl
  · split
    · rfl
    · split
      · rfl
      · split
        · rfl
        · split <;> rfl
  · rfl

theorem set (h : Sim d live again) {clock clock' : Readings} {args : List Bytes}
    (hn : dataCommand args = some .set) (hok : isError (live.handleSet clock args).1 = false) :
    isError (again.handleSet clock' args).1 = false ∧
      Sim (d.after args) (live.handleSet clock args).2 (again.handleSet clock' args).2 := by
  have hok' := hok
  rw [handleSet_reply clock clock' args live again] at hok'
  refine ⟨hok', ?_⟩
  rcases handleSet_cases clock args live with ⟨he, -⟩ | ⟨c, key, value, rfl, hlive⟩ |
    ⟨c, key, value, option, text, rfl, t, hlive⟩
  · simp [hok] at he
  · rw [hlive]
    simp only [Drift.after, hn]
    exact h.later.assignForever key value
  · rcases handleSet_cases clock' [c, key, value, option, text] again with ⟨he, -⟩ |
      ⟨_, _, _, he, -⟩ | ⟨_, _, _, _, _, he, t', hagain⟩
    · simp [hok'] at he
    · cases he
    · cases he
      rw [hlive, hagain]
      simp only [Drift.after, hn]
      exact h.later.assignUntil key value t t'

theorem handleIncr_of_incremented {ks : Keyspace F} {key : Bytes} {n : ℤ}
    (h : ks.incremented key = some n) (c : Bytes) :
    ks.handleIncr [c, key] =
      ((integer n).toBytes, { ks with storage := ks.storage.insert key (decimalInt n) }) := by
  unfold incremented at h
  unfold handleIncr
  dsimp only
  split at h
  · cases h
    rfl
  · obtain ⟨m, hm, rfl⟩ := Option.map_eq_some_iff.mp h
    simp only [hm]

theorem incr (h : Sim d live again) {args : List Bytes}
    (hs : ∀ c key, args = [c, key] → d.strings[key]? ≠ some false)
    (hok : isError (live.handleIncr args).1 = false) :
    isError (again.handleIncr args).1 = false ∧
      Sim d (live.handleIncr args).2 (again.handleIncr args).2 := by
  rcases handleIncr_cases args live with ⟨he, -⟩ | ⟨c, key, n, rfl, hn, hlive⟩
  · simp [hok] at he
  rw [hlive]
  rcases hd : d.strings[key]? with _ | _ | _
  · -- the same number in both
    obtain ⟨hstr, hl, ha⟩ := h.strings key
      (by simp [Std.ExtTreeMap.contains_eq_isSome_getElem?, hd])
    rw [incremented, ← hstr] at hn
    rw [handleIncr_of_incremented hn]
    exact ⟨by simp, h.string ⟨rfl, rfl⟩ (fun _ _ => rfl) (stringOnly_insert ..)
      (stringOnly_insert ..) (.inl (by simp [hd, hl, ha]))⟩
  · exact absurd hd (hs c key rfl)
  · -- both are numbers or absent
    have hc : d.strings.contains key = true := by
      simp [Std.ExtTreeMap.contains_eq_isSome_getElem?, hd]
    obtain ⟨m, hm, hnum⟩ : ∃ m, again.incremented key = some m ∧
        (stoi (decimalInt m)).isSome = true := by
      unfold incremented
      split
      · exact ⟨1, rfl, by decide⟩
      · rename_i value hv
        obtain ⟨z, hz⟩ := Option.isSome_iff_exists.mp (h.numbers key hd value hv)
        exact ⟨_, by rw [hz]; rfl, by simp [stoi_decimalInt_wrap32]⟩
    rw [handleIncr_of_incremented hm]
    refine ⟨by simp, h.string ⟨rfl, rfl⟩ (fun _ _ => rfl) (stringOnly_insert ..)
      (stringOnly_insert ..) (.inr ⟨by simp [hd], h.unset key hc, fun _ v hv => ?_⟩)⟩
    simp only [Std.ExtTreeMap.getElem?_insert_self, Option.some.injEq] at hv
    exact hv ▸ hnum

theorem getD_eq (h : Sim d live again) {key : Bytes} (hk : d.strings.contains key = false) :
    again.storage.getD key [] = live.storage.getD key [] := by
  simp only [Std.ExtTreeMap.getD_eq_getD_getElem?, (h.strings key hk).1]

theorem setbit (h : Sim d live again) {clock clock' : Readings} {args : List Bytes}
    (hn : dataCommand args = some .setbit)
    (hs : ∀ c key rest, args = c :: key :: rest → d.decides live key = true)
    (hok : isError (live.handleSetbit clock args).1 = false) :
    isError (again.handleSetbit clock' args).1 = false ∧
      Sim (d.after args) (live.handleSetbit clock args).2 (again.handleSetbit clock' args).2 := by
  rcases handleSetbit_cases clock args live with ⟨he, -⟩ |
    ⟨c, key, text, bit, offset, rfl, ho, hb, hw, hlive⟩
  · simp [hok] at he
  have h₁ := ((h.evict_live (clock 0) key).evict_again (clock' 0) key).later
  rw [hlive]
  simp only [handleSetbit, ho, if_neg hb, checked,
    h.again_wrongStringType (hs _ _ _ rfl) hw (clock' 0), Bool.false_eq_true, if_false,
    wrongStringType_snd, Drift.after, hn]
  refine ⟨by simp, ?_⟩
  cases hk : d.strings.contains key with
  | false =>
    have hd : d.strings[key]? = none := Std.ExtTreeMap.getElem?_eq_none_of_contains_eq_false hk
    obtain ⟨-, hl, ha⟩ := h₁.strings key hk
    rw [if_neg Bool.false_ne_true, h₁.getD_eq hk]
    exact h₁.string ⟨rfl, rfl⟩ (fun _ _ => rfl) (stringOnly_insert ..) (stringOnly_insert ..)
      (.inl (by simp [hd, hl, ha]))
  | true =>
    rw [if_pos rfl]
    refine h₁.string ⟨rfl, rfl⟩ (fun k hne => ?_) (stringOnly_insert ..) (stringOnly_insert ..)
      (.inr ⟨by simp, h₁.unset key hk, fun he => by simp at he⟩)
    simp [Std.ExtTreeMap.getElem?_insert, Ne.symm hne]

theorem decides_evict (d : Drift) (ks : Keyspace F) (clock : Clock) (key : Bytes) :
    d.decides (ks.evict clock key) = d.decides ks := by
  funext k
  simp only [Drift.decides, evict_dynamicVector, evict_streams]

theorem bitopSources (sources : List Bytes) {d : Drift} {live again : Keyspace F}
    (h : Sim d live again) {clock : Readings} (clock' : Readings)
    (hs : sources.all (d.decides live) = true) {values : List Bytes}
    (hv : (Keyspace.bitopSources clock sources live).1 = some values) :
    ∃ values', (Keyspace.bitopSources clock' sources again).1 = some values' ∧
      Sim d (Keyspace.bitopSources clock sources live).2
        (Keyspace.bitopSources clock' sources again).2 ∧
      (sources.any (d.strings.contains ·) = false → values' = values) := by
  induction sources generalizing live again clock clock' values with
  | nil => exact ⟨values, hv, h, fun _ => rfl⟩
  | cons key sources ih =>
    simp only [List.all_cons, Bool.and_eq_true] at hs
    simp only [Keyspace.bitopSources, wrongStringType_snd] at hv ⊢
    split at hv
    · cases hv
    rename_i hw
    have hw : (live.wrongStringType (clock 0) key).1 = false := by simpa using hw
    obtain ⟨rest, hrest, rfl⟩ := Option.map_eq_some_iff.mp hv
    have h₁ := (h.evict_live (clock 0) key).evict_again (clock' 0) key
    obtain ⟨rest', hrest', h₂, heq⟩ := ih h₁ clock'.later
      (by rw [decides_evict]; exact hs.2) hrest
    simp only [hw, h.again_wrongStringType hs.1 hw (clock' 0), Bool.false_eq_true, if_false,
      hrest', Option.map_some, Option.some.injEq]
    refine ⟨_, rfl, h₂, fun hany => ?_⟩
    simp only [List.any_cons, Bool.or_eq_false_iff] at hany
    rw [heq hany.2, h₁.getD_eq hany.1]

theorem storeBits (h : Sim d live again) (key : Bytes) {result result' : Bytes} {drift : Bool}
    (hr : drift = false → result' = result) :
    Sim { d with
        strings := if drift then d.strings.insert key false else d.strings.erase key
        streams := d.streams.erase key }
      (live.storeBits key result) (again.storeBits key result') := by
  have hs : ∀ (ks : Keyspace F) (result : Bytes),
      StringOnly key (ks.eraseOthers key) (ks.storeBits key result) :=
    fun ks result => ⟨rfl, rfl, rfl, fun k hk => by
      simp only [Keyspace.storeBits, Keyspace.eraseOthers]
      split
      · simp [Std.ExtTreeMap.getElem?_erase, Ne.symm hk]
      · simp [Std.ExtTreeMap.getElem?_insert, Ne.symm hk], fun k hk => by
      simp [Keyspace.storeBits, Keyspace.eraseOthers, Std.ExtTreeMap.getElem?_erase, Ne.symm hk]⟩
  refine (h.eraseOthers key).string ⟨rfl, rfl⟩ (fun k hk => ?_) (hs live _) (hs again _) ?_
  · cases drift
    · simp [Std.ExtTreeMap.getElem?_erase, Ne.symm hk]
    · simp [Std.ExtTreeMap.getElem?_insert, Ne.symm hk]
  · cases drift with
    | true => exact .inr ⟨by simp, by simp [Keyspace.eraseOthers], fun he => by simp at he⟩
    | false =>
      rw [hr rfl]
      refine .inl ⟨by simp, ?_, by simp [Keyspace.storeBits], by simp [Keyspace.storeBits]⟩
      simp only [Keyspace.storeBits]
      split <;> simp

theorem bitop (h : Sim d live again) {clock clock' : Readings} {args : List Bytes}
    (hn : dataCommand args = some .bitop)
    (hs : ∀ c name dest sources, args = c :: name :: dest :: sources →
      sources.all (d.decides live) = true)
    (hok : isError (live.handleBitop clock args).1 = false) :
    isError (again.handleBitop clock' args).1 = false ∧
      Sim (d.after args) (live.handleBitop clock args).2 (again.handleBitop clock' args).2 := by
  rcases handleBitop_cases clock args live with ⟨he, -⟩ |
    ⟨c, name, dest, source, sources, operation, values, rfl, hop, hnot, hv, hlive⟩
  · simp [hok] at he
  obtain ⟨values', hv', h₁, heq⟩ := h.bitopSources (source :: sources) clock'
    (hs _ _ _ _ rfl) hv
  rw [hlive]
  simp only [handleBitop, hop, if_neg hnot, hv', Drift.after, hn]
  exact ⟨by simp, h₁.later.storeBits dest fun hany => by rw [heq hany]⟩

theorem streamAt_eq (h : Sim d live again) {key : Bytes} (hk : d.streams.contains key = false) :
    again.streamAt key = live.streamAt key := by
  simp only [streamAt, Std.ExtTreeMap.getD_eq_getD_getElem?, h.streams key hk]

theorem ordered_streamAt (h : Sim d live again) (key : Bytes) : (again.streamAt key).Ordered := by
  rw [streamAt, Std.ExtTreeMap.getD_eq_getD_getElem?]
  cases hs : again.streams[key]? with
  | none => exact Stream.ordered_empty
  | some s => exact h.ordered key s hs

theorem stream (h : Sim d live again) {key : Bytes} {d' : Drift}
    (hd : d'.strings = d.strings ∧ d'.writes = d.writes)
    (hkeys : ∀ k : Bytes, k ≠ key → d'.streams.contains k = d.streams.contains k) {s s' : Stream}
    (ho : s'.Ordered)
    (hkey : (d'.streams.contains key = false ∧ s' = s) ∨ (d'.streams.contains key = true ∧
      ∃ m m', s.maxId = some m ∧ s'.maxId = some m' ∧ Stream.Ahead d.writes m m')) :
    Sim d' { live with streams := live.streams.insert key s }
      { again with streams := again.streams.insert key s' } where
  lists := h.lists
  sets := h.sets
  strings k hk := h.strings k (hd.1 ▸ hk)
  numbers k hk := h.numbers k (hd.1 ▸ hk)
  unset k hk := h.unset k (hd.1 ▸ hk)
  streams k hk := by
    by_cases he : k = key
    · subst he
      rcases hkey with ⟨-, rfl⟩ | ⟨hc, -⟩
      · simp
      · simp [hk] at hc
    · simp only [Std.ExtTreeMap.getElem?_insert, Std.LawfulEqCmp.compare_eq_iff_eq, Ne.symm he,
        if_false]
      exact h.streams k (hkeys k he ▸ hk)
  auto k hk := by
    rw [hd.2]
    by_cases he : k = key
    · subst he
      rcases hkey with ⟨hc, -⟩ | ⟨-, m, m', hm, hm', ha⟩
      · simp [hk] at hc
      · exact ⟨s, s', m, m', by simp, by simp, hm, hm', ha⟩
    · simp only [Std.ExtTreeMap.getElem?_insert, Std.LawfulEqCmp.compare_eq_iff_eq, Ne.symm he,
        if_false]
      exact h.auto k (hkeys k he ▸ hk)
  ordered k t ht := by
    simp only [Std.ExtTreeMap.getElem?_insert] at ht
    split at ht
    · cases ht
      exact ho
    · exact h.ordered k t ht

theorem resolveId_of_ne_auto {id : Bytes} (hid : id ≠ Stream.autoId) (s : Stream)
    (now now' : UInt64) : s.resolveId now id = s.resolveId now' id := by
  unfold Stream.resolveId
  rw [if_neg hid, if_neg hid]

/-- An automatic ID is found again later, at or after the first one. -/
theorem nextSequence (h : Sim d live again) (hbound : d.writes + 1 < 2 ^ 64) (key : Bytes)
    {now now' : UInt64} (hnow : now ≤ now') {id : StreamID}
    (hid : (live.streamAt key).nextSequence now = .ok id) :
    ∃ id', (again.streamAt key).nextSequence now' = .ok id' ∧
      Stream.Ahead (d.writes + 1) id id' := by
  cases hk : d.streams.contains key with
  | false =>
    rw [h.streamAt_eq hk]
    cases hm : (live.streamAt key).maxId with
    | none =>
      obtain ⟨id', hid', ha⟩ := Stream.nextSequence_empty hm hm hnow hid
      exact ⟨id', hid', ha.mono (Nat.zero_le _)⟩
    | some m => exact Stream.Ahead.nextSequence hbound hm hm (.inl rfl) hnow hid
  | true =>
    obtain ⟨s, s', m, m', hs, hs', hm, hm', ha⟩ := h.auto key hk
    have hlive : live.streamAt key = s := by
      simp [streamAt, Std.ExtTreeMap.getD_eq_getD_getElem?, hs]
    have hagain : again.streamAt key = s' := by
      simp [streamAt, Std.ExtTreeMap.getD_eq_getD_getElem?, hs']
    rw [hlive] at hid
    rw [hagain]
    exact ha.nextSequence hbound hm hm' hnow hid

theorem xadd (h : Sim d live again) {clock clock' : Readings} {args : List Bytes}
    (hn : dataCommand args = some .xadd)
    (hs : ∀ c key id rest, args = c :: key :: id :: rest → id ≠ Stream.autoId →
      d.streams.contains key = false)
    (hauto : asksAuto args → (clock 0).unixMs ≤ (clock' 0).unixMs ∧ d.writes + 1 < 2 ^ 64)
    (hok : isError (live.handleXadd clock args).1 = false) :
    isError (again.handleXadd clock' args).1 = false ∧
      Sim (d.after args) (live.handleXadd clock args).2 (again.handleXadd clock' args).2 := by
  rcases handleXadd_cases clock args live with ⟨he, -⟩ |
    ⟨c, key, id, fields, assigned, stream, rfl, hf, hi, hlive⟩
  · simp [hok] at he
  obtain ⟨hr, rfl⟩ := Stream.insert_eq_ok hi
  have ho := h.ordered_streamAt key
  rw [hlive, handleXadd_eq clock' c key id hf]
  simp only [Drift.after, hn]
  by_cases hid : id = Stream.autoId
  · obtain ⟨hnow, hbound⟩ := hauto ⟨hn, c, key, fields, by rw [hid]⟩
    subst hid
    obtain ⟨assigned', hr', ha⟩ := h.nextSequence hbound key hnow hr
    have hr'' : (again.streamAt key).resolveId (clock' 0).unixMs Stream.autoId =
        .ok assigned' := hr'
    have hi' := ho.insert_eq hr'' (fieldPairs fields)
    rw [hi', if_pos rfl]
    refine ⟨by simp, ?_⟩
    refine h.later.stream ?_ (fun k hne => ?_) (ho.insert hi') (.inr ⟨?_, _, _, ?_, rfl, ha⟩)
    · exact ⟨rfl, rfl⟩
    · simp [Std.ExtTreeSet.contains_insert, Ne.symm hne]
    · simp
    · rfl
  · have hk := hs _ _ _ _ rfl hid
    rw [resolveId_of_ne_auto hid _ _ (clock' 0).unixMs, ← h.streamAt_eq hk] at hr
    have hi' := ho.insert_eq hr (fieldPairs fields)
    rw [hi', if_neg hid, ← h.streamAt_eq hk]
    exact ⟨by simp, h.later.stream ⟨rfl, rfl⟩ (fun _ _ => rfl) (ho.insert hi') (.inl ⟨hk, rfl⟩)⟩

theorem safe_evict (d : Drift) (ks : Keyspace F) (clock : Clock) (key : Bytes)
    (args : List Bytes) : d.safe (ks.evict clock key) args = d.safe ks args := by
  unfold Drift.safe
  rw [decides_evict]

theorem handle (h : Sim d live again) {command : DataCommand} {args : List Bytes}
    (hn : dataCommand args = some command) (hw : command.isWrite = true)
    (hs : d.safe live args = true) {clock clock' : Readings}
    (hauto : asksAuto args → (clock 0).unixMs ≤ (clock' 0).unixMs ∧ d.writes + 1 < 2 ^ 64)
    (hok : isError (command.handle clock args live).1 = false) :
    isError (command.handle clock' args again).1 = false ∧
      Sim (d.after args) (command.handle clock args live).2
        (command.handle clock' args again).2 := by
  -- a write that leaves the drift alone
  have hkeep : d.after args = { d with writes := d.writes + 1 } →
      (isError (command.handle clock' args again).1 = false ∧
        Sim d (command.handle clock args live).2 (command.handle clock' args again).2) →
      isError (command.handle clock' args again).1 = false ∧
        Sim (d.after args) (command.handle clock args live).2
          (command.handle clock' args again).2 := by
    rintro he ⟨hr, h'⟩
    rw [he]
    exact ⟨hr, h'.later⟩
  have hafter : ∀ {c}, dataCommand args = some c → c ≠ .set → c ≠ .setbit → c ≠ .bitop → c ≠ .xadd →
      d.after args = { d with writes := d.writes + 1 } := by
    intro c hc h₁ h₂ h₃ h₄
    simp only [Drift.after, hc]
    split <;> simp_all
  cases command with
  | rpush => exact hkeep (hafter hn nofun nofun nofun nofun) (h.rpush hok)
  | lpush => exact hkeep (hafter hn nofun nofun nofun nofun) (h.lpush hok)
  | lpop =>
    obtain ⟨hr, h'⟩ := h.lpop args
    exact hkeep (hafter hn nofun nofun nofun nofun) ⟨hr ▸ hok, h'⟩
  | zadd =>
    refine hkeep (hafter hn nofun nofun nofun nofun) (h.zadd (fun c key rest he => ?_) hok)
    subst he
    simpa [Drift.safe, hn] using hs
  | zrem =>
    refine hkeep (hafter hn nofun nofun nofun nofun) (h.zrem (fun c key rest he => ?_) hok)
    subst he
    simpa [Drift.safe, hn] using hs
  | geoadd =>
    refine hkeep (hafter hn nofun nofun nofun nofun) (h.geoadd (fun c key rest he => ?_) hok)
    subst he
    simpa [Drift.safe, hn] using hs
  | incr =>
    refine hkeep (hafter hn nofun nofun nofun nofun) (h.incr (fun c key he => ?_) hok)
    subst he
    simpa [Drift.safe, hn] using hs
  | set => exact h.set hn hok
  | setbit =>
    refine h.setbit hn (fun c key rest he => ?_) hok
    subst he
    simpa [Drift.safe, hn] using hs
  | bitop =>
    refine h.bitop hn (fun c name dest sources he => ?_) hok
    subst he
    simpa [Drift.safe, hn] using hs
  | xadd =>
    refine h.xadd hn (fun c key id rest he hid => ?_) hauto hok
    subst he
    simpa [Drift.safe, hn, hid] using hs
  | _ => cases hw

/-- A write that succeeds now and is safe for the drift succeeds again. -/
theorem write (h : Sim d live again) {args : List Bytes}
    (hw : isWriteCommand (upperName args) = true) (hs : d.safe live args = true)
    {clock clock' : Readings}
    (hauto : asksAuto args → (clock 1).unixMs ≤ (clock' 1).unixMs ∧ d.writes + 1 < 2 ^ 64)
    (hok : isError (execute clock args live).1 = false) :
    ∃ again', TrueStore.write clock' args again = some again' ∧
      Sim (d.after args) (execute clock args live).2 again' := by
  suffices hgoal : isError (execute clock' args again).1 = false ∧
      Sim (d.after args) (execute clock args live).2 (execute clock' args again).2 by
    refine ⟨_, ?_, hgoal.2⟩
    simp [TrueStore.write, hgoal.1]
  unfold execute at hok ⊢
  split at hok
  · rename_i command hn
    have hwrite : command.isWrite = true := by
      unfold dataCommand at hn
      split at hn
      · rename_i name hname
        cases hn
        rw [← hw, isWriteCommand_of_commandName hname, CommandName.isWrite]
      · cases hn
    rcases command.dispatch_cases clock args live with ⟨hc, hd⟩ |
      ⟨c, key, more, rfl, hi, ⟨-, hd⟩ | ⟨hz, hd⟩⟩
    · rw [hd] at hok ⊢
      rcases command.dispatch_cases clock' args again with ⟨-, hd'⟩ |
        ⟨c, key, more, rfl, hi, -⟩
      · rw [hd']
        refine h.handle hn hwrite hs (fun ha => ?_) hok
        -- an automatic ID is only asked for behind the check
        obtain ⟨hx, c, key, fields, rfl⟩ := ha
        rw [hn] at hx
        cases hx
        simp [DataCommand.incompatibleWithSortedSet] at hc
      · simp [hi] at hc
    · rw [hd] at hok
      simp at hok
    · rw [hd] at hok ⊢
      have hz' := h.again_ne_zset hz (clock' 0)
      rcases command.dispatch_cases clock' (c :: key :: more) again with ⟨hc, -⟩ |
        ⟨c', key', more', he, -, ⟨hz'', -⟩ | ⟨-, hd'⟩⟩
      · simp [hi] at hc
      · cases he
        exact absurd hz'' hz'
      · cases he
        rw [hd']
        exact ((h.evict_live (clock 0) key).evict_again (clock' 0) key).handle hn hwrite
          (by rwa [safe_evict]) hauto hok
  · simp [unknownCommand] at hok

theorem dataCommand_lpop (key : Bytes) : dataCommand [ascii "LPOP", key] = some .lpop := by
  have hname : commandName (upperName [ascii "LPOP", key]) = some (.data .lpop) :=
    (by decide : commandName (toUpper (ascii "LPOP")) = some (.data .lpop))
  rw [dataCommand, hname]

/-- The pop of the blocking path, which is not dispatched, is replayed by the dispatcher. -/
theorem pop (h : Sim d live again) {key : Bytes} (hlist : live.listAt key ≠ [])
    (clock' : Readings) :
    ∃ again', TrueStore.write clock' [ascii "LPOP", key] again = some again' ∧
      Sim (d.after [ascii "LPOP", key]) (live.handleLpop [ascii "LPOP", key]).2 again' := by
  have hn := dataCommand_lpop key
  have hne : again.dynamicVector.contains key = true := by
    rw [h.lists]
    by_contra hc
    apply hlist
    rw [listAt, Std.ExtTreeMap.getD_eq_getD_getElem?,
      Std.ExtTreeMap.getElem?_eq_none_of_contains_eq_false (Bool.eq_false_iff.mpr hc)]
    rfl
  have hz : (again.keyType (clock' 0) key).1 ≠ .zset := by
    unfold keyType
    dsimp only
    split
    · simp
    · simp only [isExpired_snd, typeOf, evict_dynamicVector, hne, if_true]
      split <;> simp
  obtain ⟨hr, h'⟩ := (h.evict_again (clock' 0) key).lpop [ascii "LPOP", key]
  have hok : isError (live.handleLpop [ascii "LPOP", key]).1 = false := by
    rcases hl : live.listAt key with _ | ⟨value, rest⟩
    · exact absurd hl hlist
    · rw [handleLpop_of_listAt hl]
      simp
  have hd : execute clock' [ascii "LPOP", key] again =
      (again.evict (clock' 0) key).handleLpop [ascii "LPOP", key] := by
    simp only [execute, hn]
    rcases DataCommand.dispatch_cases .lpop clock' [ascii "LPOP", key] again with ⟨hc, -⟩ |
      ⟨c', key', more', he, -, ⟨hz', -⟩ | ⟨-, hd'⟩⟩
    · simp [DataCommand.incompatibleWithSortedSet] at hc
    · cases he
      exact absurd hz' hz
    · cases he
      exact hd'
  refine ⟨(execute clock' [ascii "LPOP", key] again).2, ?_, ?_⟩
  · simp [TrueStore.write, hd, hr, hok]
  · rw [hd]
    simp only [Drift.after, hn]
    exact h'.later

end Sim

end TrueStore
