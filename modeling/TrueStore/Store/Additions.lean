import TrueStore.Store.Geospatial

/-! # Adding to sorted sets

`ZADD` and `GEOADD` go through their entries one by one and look each member up in the set as it is
by then. What they report and what becomes of the scores is nevertheless a matter of the entries as
a whole.
-/

namespace TrueStore

open RespType

variable {F : Type} [Platform F]

namespace SortedSet

def lastScore (entries : List (F × Bytes)) (member : Bytes) : Option F :=
  (entries.reverse.find? fun e => e.2 = member).map (·.1)

omit [Platform F] in
theorem lastScore_cons (score : F) (member m : Bytes) (entries : List (F × Bytes)) :
    lastScore ((score, member) :: entries) m =
      (lastScore entries m).or (if member = m then some score else none) := by
  rw [lastScore, List.reverse_cons, List.find?_append, lastScore]
  cases entries.reverse.find? fun e => e.2 = m with
  | some e => rfl
  | none =>
    by_cases h : member = m <;> simp [h]

theorem add_scores (set : SortedSet F) (score : F) (member : Bytes) :
    (set.add score member).2.scores = set.scores.insert member score := by
  unfold add
  split <;> rfl

theorem size_add (set : SortedSet F) (score : F) (member : Bytes) :
    (set.add score member).1.toNat + set.scores.size =
      (set.add score member).2.scores.size := by
  rw [add_scores, Std.ExtTreeMap.size_insert]
  unfold add
  split
  · rename_i h
    rw [if_neg (by simp [Std.ExtTreeMap.mem_iff_isSome_getElem?, h]), Nat.add_comm]
    rfl
  · rename_i old h
    rw [if_pos (by simp [Std.ExtTreeMap.mem_iff_isSome_getElem?, h]), Nat.add_comm]
    rfl

theorem size_addAll (entries : List (F × Bytes)) (set : SortedSet F) :
    (addAll entries set).1 + set.scores.size = (addAll entries set).2.scores.size := by
  induction entries generalizing set with
  | nil => simp [addAll]
  | cons e entries ih =>
    have hsize := size_add set e.1 e.2
    have hrest := ih (set.add e.1 e.2).2
    simp only [addAll]
    omega

theorem scores_addAll (entries : List (F × Bytes)) (set : SortedSet F) (m : Bytes) :
    (addAll entries set).2.scores[m]? = (lastScore entries m).or set.scores[m]? := by
  induction entries generalizing set with
  | nil => simp [addAll, lastScore]
  | cons e entries ih =>
    have hadd : (set.add e.1 e.2).2.scores[m]? =
        (if e.2 = m then some e.1 else none).or set.scores[m]? := by
      rw [add_scores, Std.ExtTreeMap.getElem?_insert]
      by_cases h : e.2 = m <;> simp [h]
    simp only [addAll]
    rw [ih, hadd, lastScore_cons, Option.or_assoc]

end SortedSet

namespace Geo

variable (o : AddOptions)

theorem addPoints_cons (e : F × Bytes) (entries : List (F × Bytes)) (set : SortedSet F) :
    addPoints o (e :: entries) set =
      let first := addPoints o [e] set
      let rest := addPoints o entries first.2.2
      (first.1 + rest.1, first.2.1 + rest.2.1, rest.2.2) := by
  simp only [addPoints]
  split
  · simp
  · simp only [Prod.mk.injEq, and_true]
    omega

/-- One entry of `GEOADD` is skipped, or sets a score that was allowed and is another one. -/
theorem addPoints_single (e : F × Bytes) (set : SortedSet F) :
    addPoints o [e] set = (0, 0, set) ∨
      (addPoints o [e] set = ((set.add e.1 e.2).1.toNat, 1, (set.add e.1 e.2).2) ∧
        (o.nx = true → set.scores[e.2]? = none) ∧
        (o.xx = true → set.scores[e.2]? ≠ none) ∧ set.scores[e.2]? ≠ some e.1) := by
  simp only [addPoints]
  split
  · exact .inl rfl
  · rename_i h
    refine .inr ⟨rfl, fun ho => ?_, fun ho hnone => ?_, fun he => h (.inr (.inr he))⟩
    · by_contra hsome
      refine h (.inl ⟨ho, ?_⟩)
      rw [Std.ExtTreeMap.contains_eq_isSome_getElem?]
      exact Option.isSome_iff_ne_none.mpr hsome
    · refine h (.inr (.inl ⟨ho, ?_⟩))
      rw [Std.ExtTreeMap.contains_eq_isSome_getElem?, hnone]
      rfl

theorem size_addPoints (entries : List (F × Bytes)) (set : SortedSet F) :
    (addPoints o entries set).1 + set.scores.size =
      (addPoints o entries set).2.2.scores.size := by
  induction entries generalizing set with
  | nil => simp [addPoints]
  | cons e entries ih =>
    have hfirst : (addPoints o [e] set).1 + set.scores.size =
        (addPoints o [e] set).2.2.scores.size := by
      rcases addPoints_single o e set with h | ⟨h, -⟩
      · simp [h]
      · rw [h]
        exact set.size_add e.1 e.2
    have hrest := ih (addPoints o [e] set).2.2
    rw [addPoints_cons]
    dsimp only
    omega

theorem addPoints_keeps {P : SortedSet F → Prop} {entries : List (F × Bytes)}
    (hP : ∀ e ∈ entries, ∀ set, P set → (o.nx = true → set.scores[e.2]? = none) →
      (o.xx = true → set.scores[e.2]? ≠ none) → P (set.add e.1 e.2).2)
    {set : SortedSet F} (h : P set) : P (addPoints o entries set).2.2 := by
  induction entries generalizing set with
  | nil => exact h
  | cons e entries ih =>
    rw [addPoints_cons]
    refine ih (fun e' he' => hP e' (List.mem_cons_of_mem _ he')) ?_
    rcases addPoints_single o e set with hs | ⟨hs, hnx, hxx, -⟩
    · rw [hs]
      exact h
    · rw [hs]
      exact hP e List.mem_cons_self set h hnx hxx

variable {o} {entries : List (F × Bytes)} {set : SortedSet F} {m : Bytes}

theorem addPoints_unlisted (h : m ∉ entries.map (·.2)) :
    (addPoints o entries set).2.2.scores[m]? = set.scores[m]? := by
  refine addPoints_keeps o (P := fun s => s.scores[m]? = set.scores[m]?)
    (fun e he s hs _ _ => ?_) rfl
  have hne : e.2 ≠ m := fun heq => h (heq ▸ List.mem_map_of_mem he)
  rw [SortedSet.add_scores, Std.ExtTreeMap.getElem?_insert]
  simpa [hne] using hs

theorem addPoints_nx (ho : o.nx = true) {score : F} (h : set.scores[m]? = some score) :
    (addPoints o entries set).2.2.scores[m]? = some score := by
  refine addPoints_keeps o (P := fun s => s.scores[m]? = some score)
    (fun e _ s hs hnx _ => ?_) h
  have hne : e.2 ≠ m := by
    rintro rfl
    rw [hnx ho] at hs
    cases hs
  rw [SortedSet.add_scores, Std.ExtTreeMap.getElem?_insert]
  simpa [hne] using hs

theorem addPoints_xx (ho : o.xx = true) (h : set.scores[m]? = none) :
    (addPoints o entries set).2.2.scores[m]? = none := by
  refine addPoints_keeps o (P := fun s => s.scores[m]? = none)
    (fun e _ s hs _ hxx => ?_) h
  have hne : e.2 ≠ m := by
    rintro rfl
    exact hxx ho hs
  rw [SortedSet.add_scores, Std.ExtTreeMap.getElem?_insert]
  simpa [hne] using hs

theorem addPoints_xx_empty (ho : o.xx = true) (h : ∀ m : Bytes, set.scores[m]? = none) :
    addPoints o entries set = (0, 0, set) := by
  induction entries with
  | nil => rfl
  | cons e entries ih =>
    rcases addPoints_single o e set with hs | ⟨-, -, hxx, -⟩
    · rw [addPoints_cons, hs]
      dsimp only
      rw [ih]
      rfl
    · exact absurd (h e.2) (hxx ho)

/-- What an entry may do to the scores: with `NX` it only adds, with `XX` it only updates. -/
def applyEntry (o : AddOptions) (scores : Map F) (e : F × Bytes) : Map F :=
  if (o.nx ∧ e.2 ∈ scores) ∨ (o.xx ∧ e.2 ∉ scores) then scores else scores.insert e.2 e.1

def changes (o : AddOptions) (entries : List (F × Bytes)) (scores : Map F) : ℕ :=
  ((Finset.range entries.length).filter fun i =>
    (entries.take (i + 1)).foldl (applyEntry o) scores ≠
      (entries.take i).foldl (applyEntry o) scores).card

omit [Platform F] in
theorem insert_of_getElem? {scores : Map F} {m : Bytes} {score : F}
    (h : scores[m]? = some score) : scores.insert m score = scores := by
  apply Std.ExtTreeMap.ext_getElem?
  intro k
  rw [Std.ExtTreeMap.getElem?_insert]
  split
  · rename_i hk
    rw [← Std.compare_eq_iff_eq.mp hk, h]
  · rfl

/-- An entry does what it may do, and it counts when that changes the scores. -/
theorem addPoints_entry (o : AddOptions) (e : F × Bytes) (set : SortedSet F) :
    (addPoints o [e] set).2.2.scores = applyEntry o set.scores e ∧
      (addPoints o [e] set).2.1 = if applyEntry o set.scores e ≠ set.scores then 1 else 0 := by
  have hmem : set.scores.contains e.2 = true ↔ e.2 ∈ set.scores := Std.ExtTreeMap.contains_iff_mem
  have hpoints : addPoints o [e] set =
      if ((o.nx ∧ e.2 ∈ set.scores) ∨ (o.xx ∧ e.2 ∉ set.scores)) ∨ set.scores[e.2]? = some e.1 then
        (0, 0, set)
      else ((set.add e.1 e.2).1.toNat, 1, (set.add e.1 e.2).2) := by
    simp only [addPoints, Bool.not_eq_true', ← Bool.not_eq_true, hmem, or_assoc]
    rfl
  by_cases hskip : (o.nx ∧ e.2 ∈ set.scores) ∨ (o.xx ∧ e.2 ∉ set.scores)
  · have happly : applyEntry o set.scores e = set.scores := if_pos hskip
    rw [hpoints, if_pos (.inl hskip)]
    simp [happly]
  · have happly : applyEntry o set.scores e = set.scores.insert e.2 e.1 := if_neg hskip
    by_cases hsame : set.scores[e.2]? = some e.1
    · rw [hpoints, if_pos (.inr hsame)]
      simp [happly, insert_of_getElem? hsame]
    · have hne : set.scores.insert e.2 e.1 ≠ set.scores := by
        intro heq
        apply hsame
        rw [← heq]
        simp
      rw [hpoints, if_neg (not_or.mpr ⟨hskip, hsame⟩)]
      simp [happly, hne, SortedSet.add_scores]

theorem scores_addPoints (o : AddOptions) (entries : List (F × Bytes)) (set : SortedSet F) :
    (addPoints o entries set).2.2.scores = entries.foldl (applyEntry o) set.scores := by
  induction entries generalizing set with
  | nil => rfl
  | cons e entries ih =>
    rw [addPoints_cons, List.foldl_cons, ← (addPoints_entry o e set).1]
    exact ih _

theorem changed_addPoints (o : AddOptions) (entries : List (F × Bytes)) (set : SortedSet F) :
    (addPoints o entries set).2.1 = changes o entries set.scores := by
  induction entries generalizing set with
  | nil => simp [addPoints, changes]
  | cons e entries ih =>
    obtain ⟨hscores, hcount⟩ := addPoints_entry o e set
    rw [addPoints_cons]
    dsimp only
    rw [ih, hscores, hcount, changes, changes, Finset.card_filter, Finset.card_filter,
      List.length_cons, Finset.sum_range_succ', Nat.add_comm]
    simp only [List.take_succ_cons, List.foldl_cons, List.take_zero, List.foldl_nil]
    rfl

end Geo

namespace Keyspace

open Geo

theorem setAt_evict (ks : Keyspace F) (clock : Clock) (key : Bytes) :
    (ks.evict clock key).setAt key = ks.setAt key := by simp [setAt]

/-- `GEOADD` adds its points to the set at its key, which it leaves absent with `XX`. -/
theorem addGeo_eq (o : AddOptions) (key : Bytes) (entries : List (F × Bytes)) (ks : Keyspace F) :
    let points := addPoints o entries (ks.setAt key)
    (addGeo o key entries ks).1 = (integer (if o.ch then points.2.1 else points.1)).toBytes ∧
      (addGeo o key entries ks).2.setAt key = points.2.2 ∧
      (o.xx = true → ks.sortedSets[key]? = none →
        (addGeo o key entries ks).2.sortedSets[key]? = none) := by
  intro points
  unfold addGeo
  split
  · rename_i h
    have hnone : ks.sortedSets[key]? = none :=
      Std.ExtTreeMap.getElem?_eq_none_of_contains_eq_false (by simpa using h.2)
    have hempty : ks.setAt key = {} := by
      rw [setAt, Std.ExtTreeMap.getD_eq_getD_getElem?, hnone, Option.getD_none]
    have hpoints : points = (0, 0, ks.setAt key) :=
      addPoints_xx_empty h.1 fun m => by simp [hempty]
    refine ⟨by simp [hpoints], by rw [hpoints], fun _ _ => hnone⟩
  · rename_i h
    refine ⟨rfl, by simp [setAt, points], fun ho hnone => ?_⟩
    refine absurd ⟨ho, ?_⟩ h
    simp [Std.ExtTreeMap.contains_eq_isSome_getElem?, hnone]

/-- `ZADD` gives each listed member its last score and replies with the growth of the set. `GEOADD`
applies its entries one by one and replies with the growth, or with `CH` with the number of entries
that changed a score; with `NX` it keeps the scores that it finds, with `XX` it adds neither members
nor a key. Neither changes the score of a member that is not listed. -/
theorem additions_exact (clock : Readings) (args : List Bytes) (ks : Keyspace F) :
    (isError (handleZadd clock args ks).1 = false →
      ∃ c key rest entries, args = c :: key :: rest ∧ parseEntries (F := F) rest = some entries ∧
        let r := handleZadd clock args ks
        let before := (ks.setAt key).scores
        let after := (r.2.setAt key).scores
        r.1 = (integer (after.size - before.size)).toBytes ∧
        ∀ m : Bytes, after[m]? = (SortedSet.lastScore entries m).or before[m]?) ∧
    (isError (handleGeoadd clock args ks).1 = false →
      ∃ c key rest entries, args = c :: key :: rest ∧
        parsePoints (F := F) (addOptions {} rest).2 = .ok entries ∧
        let o := (addOptions {} rest).1
        let r := handleGeoadd clock args ks
        let before := (ks.setAt key).scores
        let after := (r.2.setAt key).scores
        (o.ch = false → r.1 = (integer (after.size - before.size)).toBytes) ∧
        (o.ch = true → r.1 = (integer (changes o entries before)).toBytes) ∧
        after = entries.foldl (applyEntry o) before ∧
        (o.nx = true → ∀ (m : Bytes) (score : F), before[m]? = some score →
          after[m]? = some score) ∧
        (o.xx = true → (∀ m : Bytes, before[m]? = none → after[m]? = none) ∧
          (ks.sortedSets[key]? = none → r.2.sortedSets[key]? = none)) ∧
        ∀ m : Bytes, m ∉ entries.map (·.2) → after[m]? = before[m]?) := by
  refine ⟨fun hok => ?_, fun hok => ?_⟩
  · rcases handleZadd_cases clock args ks with ⟨herror, -⟩ | ⟨c, key, rest, entries, rfl, hentries, -,
      -, hr⟩
    · rw [herror] at hok
      cases hok
    · refine ⟨c, key, rest, entries, rfl, hentries, ?_⟩
      have hafter : ((handleZadd clock (c :: key :: rest) ks).2.setAt key) =
          (SortedSet.addAll entries (ks.setAt key)).2 := by
        rw [hr, ← setAt_evict ks (clock 0)]
        simp [setAt]
      have hsize := SortedSet.size_addAll entries (ks.setAt key)
      dsimp only
      rw [hafter, hr]
      refine ⟨?_, SortedSet.scores_addAll entries _⟩
      dsimp only
      rw [setAt_evict, ← hsize]
      congr 2
      push_cast
      omega
  · rcases handleGeoadd_cases clock args ks with ⟨herror, -⟩ | ⟨c, key, rest, entries, rfl, -, -,
      hentries, -, hr⟩
    · rw [herror] at hok
      cases hok
    · refine ⟨c, key, rest, entries, rfl, hentries, ?_⟩
      obtain ⟨hreply, hafter, habsent⟩ :=
        addGeo_eq (addOptions {} rest).1 key entries (ks.evict (clock 0) key)
      rw [setAt_evict] at hreply hafter
      rw [evict_sortedSets] at habsent
      have hsize := size_addPoints (addOptions {} rest).1 entries (ks.setAt key)
      dsimp only
      rw [hr, hafter, hreply, ← changed_addPoints]
      refine ⟨fun ho => ?_, fun ho => by rw [if_pos ho], scores_addPoints _ entries _,
        fun ho m score => addPoints_nx ho, fun ho => ⟨fun m => addPoints_xx ho, habsent ho⟩,
        fun m => addPoints_unlisted⟩
      rw [if_neg (by simp [ho]), ← hsize]
      congr 2
      push_cast
      omega

def places : Keyspace Whole :=
  (handleZadd (fun _ => ⟨0, 0⟩) [ascii "ZADD", ascii "g", ascii "7", ascii "a"] {}).2

/-- Members that are listed twice: `ZADD` keeps the last score, and `GEOADD` with `CH` counts the
entries that change one. -/
theorem additions_exact_repeated :
    let zadd := [ascii "ZADD", ascii "z", ascii "1", ascii "a", ascii "3", ascii "a"]
    let geoadd := [ascii "GEOADD", ascii "g", ascii "CH", ascii "13", ascii "38", ascii "a",
      ascii "15", ascii "37", ascii "b", ascii "15", ascii "37", ascii "b"]
    let r := handleZadd (fun _ => ⟨0, 0⟩) zadd ({} : Keyspace Whole)
    let q := handleGeoadd (fun _ => ⟨0, 0⟩) geoadd places
    (isError r.1 = false ∧
      (r.2.setAt (ascii "z")).scores[ascii "a"]? = some (Platform.ofI64 3 : Whole)) ∧
    isError q.1 = false ∧ q.1 = (integer 2).toBytes ∧
      (q.2.setAt (ascii "g")).scores[ascii "a"]? = some (Platform.ofI64 0 : Whole) ∧
      (q.2.setAt (ascii "g")).scores[ascii "b"]? = some (Platform.ofI64 0 : Whole) := by
  intro zadd geoadd r q
  constructor
  · have hok : isError r.1 = false := by decide
    obtain ⟨c, key, rest, entries, hargs, hentries, -, hscores⟩ :=
      (additions_exact (fun _ => ⟨0, 0⟩) zadd ({} : Keyspace Whole)).1 hok
    obtain ⟨rfl, rfl, rfl⟩ : ascii "ZADD" = c ∧ ascii "z" = key ∧
        [ascii "1", ascii "a", ascii "3", ascii "a"] = rest := by simpa [zadd] using hargs
    have hparsed : parseEntries (F := Whole) [ascii "1", ascii "a", ascii "3", ascii "a"] =
        some [(Platform.ofI64 1, ascii "a"), (Platform.ofI64 3, ascii "a")] := by decide
    rw [hparsed, Option.some.injEq] at hentries
    refine ⟨hok, (hscores (ascii "a")).trans ?_⟩
    rw [← hentries]
    rfl
  · have hok : isError q.1 = false := by decide +kernel
    obtain ⟨c, key, rest, entries, hargs, hentries, -, hcount, hafter, -⟩ :=
      (additions_exact (fun _ => ⟨0, 0⟩) geoadd places).2 hok
    obtain ⟨rfl, rfl, rfl⟩ : ascii "GEOADD" = c ∧ ascii "g" = key ∧
        geoadd.drop 2 = rest := by simpa [geoadd] using hargs
    have hparsed : (parsePoints (F := Whole) (addOptions {} (geoadd.drop 2)).2).toOption =
        some [(Platform.ofI64 0, ascii "a"), (Platform.ofI64 0, ascii "b"),
          (Platform.ofI64 0, ascii "b")] := by decide +kernel
    obtain rfl : entries = [(Platform.ofI64 0, ascii "a"), (Platform.ofI64 0, ascii "b"),
        (Platform.ofI64 0, ascii "b")] := by
      rw [hentries] at hparsed
      exact Option.some.inj hparsed
    refine ⟨hok, (hcount rfl).trans ?_, ?_, ?_⟩
    · have hchanges : changes (addOptions {} (geoadd.drop 2)).1 [(Platform.ofI64 0, ascii "a"),
          (Platform.ofI64 0, ascii "b"), (Platform.ofI64 0, ascii "b")]
          (places.setAt (ascii "g")).scores = 2 := by decide +kernel
      rw [hchanges]
      rfl
    · rw [hafter]
      decide +kernel
    · rw [hafter]
      decide +kernel

end Keyspace

end TrueStore
