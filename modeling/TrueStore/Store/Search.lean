import TrueStore.Invariants.SortedIndex
import TrueStore.Order.Stable

/-! # Searching by radius

`GEOSEARCH` scans a sorted set in its order, may stop early, sorts what it has found and cuts it
off. Whatever the options, the reply is a sound selection of the members within the radius, and a
complete one up to the count.
-/

namespace TrueStore

open RespType

variable {F : Type} [Platform F]

namespace Geo

def Within (o : SearchOptions F) (center : Coordinates F) (radius : F) (set : SortedSet F)
    (m : Match F) : Prop :=
  set.scores[m.member]? = some m.score ∧ decodeCoordinates m.score = some m.point ∧
    m.distance = Platform.div (distanceInMeters center m.point) o.unit ∧ m.distance ≤ radius

def Before (a b : Match F) : Prop :=
  a.score < b.score ∨ a.score = b.score ∧ compare a.member b.member = .lt

def Nearer (a b : Match F) : Prop :=
  a.distance < b.distance ∨ a.distance = b.distance ∧ Before a b

def Farther (a b : Match F) : Prop :=
  b.distance < a.distance ∨ a.distance = b.distance ∧ Before a b

/-- The search is sorted by increasing distance, which a count without `ANY` implies. -/
def SearchOptions.ascending (o : SearchOptions F) : Prop :=
  0 < o.sort ∨ (o.sort = 0 ∧ o.count ≠ 0 ∧ o.any = false)

/-- What the members of a reply are to be among all that are within the radius. -/
structure Selection (o : SearchOptions F) (all chosen : List (Match F)) : Prop where
  mem : ∀ m ∈ chosen, m ∈ all
  distinct : (chosen.map (·.member)).Nodup
  length : (chosen.length : ℤ) = if o.count = 0 then (all.length : ℤ) else min o.count all.length
  nearest : o.ascending → chosen.Pairwise Nearer
  farthest : o.sort < 0 → chosen.Pairwise Farther
  omitted_nearest : o.ascending → o.any = false → ∀ a ∈ chosen, ∀ b ∈ all, b ∉ chosen → Nearer a b
  omitted_farthest : o.sort < 0 → o.any = false → ∀ a ∈ chosen, ∀ b ∈ all, b ∉ chosen → Farther a b

section found

variable {o : SearchOptions F} {center : Coordinates F} {radius : F} {set : SortedSet F}

theorem matchEntry_eq_some {e : F × Bytes} {m : Match F} :
    matchEntry o center radius e = some m ↔
      e = (m.score, m.member) ∧ decodeCoordinates m.score = some m.point ∧
        m.distance = Platform.div (distanceInMeters center m.point) o.unit ∧
        m.distance ≤ radius := by
  obtain ⟨score, member⟩ := e
  obtain ⟨member', score', point', distance'⟩ := m
  unfold matchEntry
  dsimp only
  split
  · rename_i hd
    simp only [reduceCtorEq, Prod.mk.injEq, false_iff]
    rintro ⟨⟨rfl, rfl⟩, hd', -⟩
    rw [hd] at hd'
    cases hd'
  · rename_i point hd
    split
    · rename_i hfar
      simp only [reduceCtorEq, Prod.mk.injEq, false_iff]
      rintro ⟨⟨rfl, rfl⟩, hd', rfl, hle⟩
      rw [hd] at hd'
      cases hd'
      exact absurd hle (not_le.mpr hfar)
    · rename_i hnear
      simp only [Option.some.injEq, Match.mk.injEq, Prod.mk.injEq]
      constructor
      · rintro ⟨rfl, rfl, rfl, rfl⟩
        exact ⟨⟨rfl, rfl⟩, hd, rfl, not_lt.mp hnear⟩
      · rintro ⟨⟨rfl, rfl⟩, hd', rfl, -⟩
        rw [hd] at hd'
        cases hd'
        exact ⟨rfl, rfl, rfl, rfl⟩

def found (o : SearchOptions F) (center : Coordinates F) (radius : F) (set : SortedSet F) :
    List (Match F) := set.ordered.toList.filterMap (matchEntry o center radius)

theorem mem_found (h : set.Agrees) {m : Match F} :
    m ∈ found o center radius set ↔ Within o center radius set m := by
  rw [found, List.mem_filterMap]
  constructor
  · rintro ⟨e, he, hm⟩
    obtain ⟨rfl, hrest⟩ := matchEntry_eq_some.mp hm
    exact ⟨((listing_ordered h).mem _ _).mp he, hrest⟩
  · rintro ⟨hs, hrest⟩
    exact ⟨_, ((listing_ordered h).mem _ _).mpr hs, matchEntry_eq_some.mpr ⟨rfl, hrest⟩⟩

theorem found_pairwise (h : set.Agrees) : (found o center radius set).Pairwise Before := by
  refine List.Pairwise.filterMap _ ?_ (listing_ordered h).sorted
  intro a b hab m hm m' hm'
  obtain ⟨rfl, -⟩ := matchEntry_eq_some.mp hm
  obtain ⟨rfl, -⟩ := matchEntry_eq_some.mp hm'
  exact hab

theorem found_nodup (h : set.Agrees) : ((found o center radius set).map (·.member)).Nodup := by
  rw [List.Nodup, List.pairwise_map]
  have hnodup := (listing_ordered h).nodup
  rw [List.Nodup, List.pairwise_map] at hnodup
  refine List.Pairwise.filterMap _ ?_ hnodup
  intro a b hab m hm m' hm'
  obtain ⟨rfl, -⟩ := matchEntry_eq_some.mp hm
  obtain ⟨rfl, -⟩ := matchEntry_eq_some.mp hm'
  exact hab

end found

theorem nearest_mergeSort {l : List (Match F)} (h : l.Pairwise Before) :
    (l.mergeSort fun a b => a.distance ≤ b.distance).Pairwise Nearer := by
  refine (Stable.pairwise_mergeSort ?_ ?_ h).imp ?_
  · simp only [decide_eq_true_eq]
    exact fun a b c => le_trans
  · simp only [Bool.or_eq_true, decide_eq_true_eq]
    exact fun a b => le_total _ _
  · simp only [decide_eq_true_eq]
    rintro a b ⟨hle, htie⟩
    rcases lt_or_eq_of_le hle with hlt | heq
    · exact .inl hlt
    · exact .inr ⟨heq, htie heq.ge⟩

theorem farthest_mergeSort {l : List (Match F)} (h : l.Pairwise Before) :
    (l.mergeSort fun a b => b.distance ≤ a.distance).Pairwise Farther := by
  refine (Stable.pairwise_mergeSort ?_ ?_ h).imp ?_
  · simp only [decide_eq_true_eq]
    exact fun a b c hab hbc => le_trans hbc hab
  · simp only [Bool.or_eq_true, decide_eq_true_eq]
    exact fun a b => le_total _ _
  · simp only [decide_eq_true_eq]
    rintro a b ⟨hle, htie⟩
    rcases lt_or_eq_of_le hle with hlt | heq
    · exact .inl hlt
    · exact .inr ⟨heq.symm, htie heq.ge⟩

theorem rel_of_mem_take {α : Type} {R : α → α → Prop} {l : List α} (h : l.Pairwise R) {n : ℕ}
    {a b : α} (ha : a ∈ l.take n) (hb : b ∈ l) (hnot : b ∉ l.take n) : R a b := by
  rw [← List.take_append_drop n l, List.pairwise_append] at h
  rw [← List.take_append_drop n l, List.mem_append] at hb
  exact h.2.2 a ha b (hb.resolve_left hnot)

/-- The matches that the scan stops at, and their order in the reply. -/
def scanned (o : SearchOptions F) (all : List (Match F)) : List (Match F) :=
  if o.any then all.take o.count.toNat else all

def arranged (o : SearchOptions F) (l : List (Match F)) : List (Match F) :=
  let sort := if o.count ≠ 0 ∧ !o.any ∧ o.sort = 0 then 1 else o.sort
  if 0 < sort then l.mergeSort fun a b => a.distance ≤ b.distance
  else if sort < 0 then l.mergeSort fun a b => b.distance ≤ a.distance
  else l

theorem searchMatches_eq (o : SearchOptions F) (center : Coordinates F) (radius : F)
    (set : SortedSet F) :
    searchMatches o center radius set =
      let sorted := arranged o (scanned o (found o center radius set))
      if o.count ≠ 0 then sorted.take o.count.toNat else sorted := rfl

variable {o : SearchOptions F}

theorem arranged_perm (l : List (Match F)) : (arranged o l).Perm l := by
  unfold arranged
  dsimp only
  split
  · split
    · exact List.mergeSort_perm ..
    · split
      · exact List.mergeSort_perm ..
      · exact .refl _
  · split
    · exact List.mergeSort_perm ..
    · split
      · exact List.mergeSort_perm ..
      · exact .refl _

theorem arranged_nearest (h : o.ascending) {l : List (Match F)} (hl : l.Pairwise Before) :
    (arranged o l).Pairwise Nearer := by
  have hsort : 0 < if o.count ≠ 0 ∧ !o.any ∧ o.sort = 0 then 1 else o.sort := by
    rcases h with hpos | ⟨hzero, hcount, hany⟩
    · split
      · decide
      · exact hpos
    · rw [if_pos ⟨hcount, by simpa using hany, hzero⟩]
      decide
  unfold arranged
  rw [if_pos hsort]
  exact nearest_mergeSort hl

theorem arranged_farthest (h : o.sort < 0) {l : List (Match F)} (hl : l.Pairwise Before) :
    (arranged o l).Pairwise Farther := by
  have hsort : (if o.count ≠ 0 ∧ !o.any ∧ o.sort = 0 then 1 else o.sort) = o.sort :=
    if_neg fun hc => h.ne hc.2.2
  unfold arranged
  dsimp only
  rw [hsort, if_neg (not_lt.mpr h.le), if_pos h]
  exact farthest_mergeSort hl

/-- The reply selects among the matches as the options say. -/
theorem selection_searchMatches {center : Coordinates F} {radius : F} {set : SortedSet F}
    (h : set.Agrees) (hcount : 0 ≤ o.count) (hany : o.any = true → o.count ≠ 0) :
    Selection o (found o center radius set) (searchMatches o center radius set) := by
  rw [searchMatches_eq]
  set all := found o center radius set with hall
  have hscanned : (scanned o all).Sublist all := by
    unfold scanned
    split
    · exact List.take_sublist ..
    · exact .refl _
  have hbefore : (scanned o all).Pairwise Before := (found_pairwise h).sublist hscanned
  have hperm := arranged_perm (o := o) (scanned o all)
  have hmem : ∀ m, m ∈ arranged o (scanned o all) ↔ m ∈ scanned o all := fun m => hperm.mem_iff
  set sorted := arranged o (scanned o all) with hsorted
  -- with or without a count, the reply is a part of the sorted matches
  have hcut : ∃ n, (if o.count ≠ 0 then sorted.take o.count.toNat else sorted) = sorted.take n := by
    split
    · exact ⟨_, rfl⟩
    · exact ⟨sorted.length, (List.take_length).symm⟩
  have hlength : ((if o.count ≠ 0 then sorted.take o.count.toNat else sorted).length : ℤ) =
      if o.count = 0 then (all.length : ℤ) else min o.count all.length := by
    have hlen : sorted.length = (scanned o all).length := hperm.length_eq
    unfold scanned at hlen
    by_cases hc : o.count = 0
    · have ha : o.any ≠ true := fun ha => hany ha hc
      rw [if_neg ha] at hlen
      simp [hc, hlen]
    · rw [if_pos hc, if_neg hc, List.length_take, hlen]
      split
      · rw [List.length_take]
        omega
      · omega
  obtain ⟨n, hn⟩ := hcut
  dsimp only
  rw [hn] at hlength ⊢
  have hfull : o.any = false → ∀ b ∈ all, b ∈ sorted := by
    intro ha b hb
    rw [hmem, scanned, if_neg (by simp [ha])]
    exact hb
  refine ⟨fun m hm => ?_, ?_, hlength, fun ho => ?_, fun ho => ?_, fun ho ha a hma b hb hnot => ?_,
    fun ho ha a hma b hb hnot => ?_⟩
  · exact hscanned.subset ((hmem m).mp (List.mem_of_mem_take hm))
  · have hnodup : (sorted.map (·.member)).Nodup :=
      ((hperm.map _).nodup_iff).mpr ((found_nodup h).sublist (hscanned.map _))
    exact hnodup.sublist ((List.take_sublist ..).map _)
  · exact (arranged_nearest ho hbefore).sublist (List.take_sublist ..)
  · exact (arranged_farthest ho hbefore).sublist (List.take_sublist ..)
  · exact rel_of_mem_take (arranged_nearest ho hbefore) hma (hfull ha b hb) hnot
  · exact rel_of_mem_take (arranged_farthest ho hbefore) hma (hfull ha b hb) hnot

theorem searchOptions_cases {o : SearchOptions F} (hcount : 0 ≤ o.count) (skip : ℕ)
    (args : List Bytes) :
    (∃ failure, searchOptions o skip args = .error failure ∧ isError failure = true) ∨
      ∃ o', searchOptions o skip args = .ok o' ∧ 0 ≤ o'.count := by
  induction args generalizing o skip with
  | nil => exact .inr ⟨o, by simp [searchOptions], hcount⟩
  | cons arg rest ih =>
    cases skip with
    | succ skip => exact ih hcount skip
    | zero =>
      unfold searchOptions
      rcases searchOption_cases o (toUpper arg) rest with
        ⟨o', skip, ho, hc⟩ | ⟨failure, hf, hp⟩ | ⟨text, -, hf⟩
      · rw [ho]
        exact ih (by omega) skip
      · rw [hf]
        exact .inl ⟨failure, rfl, Keyspace.isError_of_parseCoordinates hp⟩
      · rw [hf]
        exact .inl ⟨_, rfl, rfl⟩

end Geo

namespace Keyspace

open Geo

theorem handleGeosearch_of_not_error {clock : Readings} {c key : Bytes} {rest : List Bytes}
    {ks : Keyspace F} (hok : isError (handleGeosearch clock (c :: key :: rest) ks).1 = false) :
    ∃ o : SearchOptions F, searchOptions { unit := Platform.ofRat 1 } 0 rest = .ok o ∧
      0 ≤ o.count ∧
      (handleGeosearch clock (c :: key :: rest) ks).1 = searchReply o ks.sortedSets[key]? := by
  unfold handleGeosearch at hok ⊢
  dsimp only at hok ⊢
  split at hok
  · cases hok
  · rename_i hlen
    rw [if_neg hlen]
    rcases checked_cases (ks.wrongSortedSetType (clock 0) key) _ with ⟨-, h⟩ | ⟨-, h⟩
    · rw [h] at hok
      cases hok
    · rw [h] at hok ⊢
      rw [wrongSortedSetType_snd, evict_sortedSets] at hok ⊢
      rcases searchOptions_cases (o := ({ unit := Platform.ofRat 1 } : SearchOptions F)) le_rfl 0
        rest with
        ⟨failure, hs, he⟩ | ⟨o, hs, hc⟩
      · rw [hs] at hok
        rw [he] at hok
        cases hok
      · rw [hs]
        exact ⟨o, rfl, hc, rfl⟩

theorem searchReply_of_not_error {o : SearchOptions F} {set : Option (SortedSet F)}
    (hok : isError (searchReply o set) = false) :
    (o.any = true → o.count ≠ 0) ∧
      ((set = none ∧ searchReply o set = (array []).toBytes) ∨
        ∃ s center radius, set = some s ∧ o.radius = some radius ∧ searchCenter o s = some center ∧
          searchReply o set =
            (nestedArray ((searchMatches o center radius s).map (matchReply o))).toBytes) := by
  unfold searchReply at hok ⊢
  by_cases hcenter : o.center.isNone ∧ o.fromMember.isNone
  · rw [if_pos hcenter] at hok
    cases hok
  · rw [if_neg hcenter] at hok ⊢
    cases hradius : o.radius with
    | none =>
      rw [hradius] at hok
      cases hok
    | some radius =>
      rw [hradius] at hok
      dsimp only at hok ⊢
      by_cases hany : o.any ∧ o.count = 0
      · rw [if_pos hany] at hok
        cases hok
      · rw [if_neg hany] at hok ⊢
        refine ⟨fun ha h0 => hany ⟨ha, h0⟩, ?_⟩
        cases set with
        | none => exact .inl ⟨rfl, rfl⟩
        | some s =>
          dsimp only at hok ⊢
          cases hc : searchCenter o s with
          | none =>
            rw [hc] at hok
            cases hok
          | some center => exact .inr ⟨s, center, radius, rfl, rfl, hc, rfl⟩

/-- `GEOSEARCH` replies with distinct members within the radius, as many as there are up to the
count, in the order asked for, and with a count but without `ANY` with the nearest or farthest of
them. Ties are broken by score and member. -/
theorem geosearch_selects (clock : Readings) (c key : Bytes) (rest : List Bytes)
    {ks : Keyspace F} (hks : ks.IndexesAgree)
    (hok : isError (handleGeosearch clock (c :: key :: rest) ks).1 = false) :
    ∃ o : SearchOptions F, searchOptions { unit := Platform.ofRat 1 } 0 rest = .ok o ∧
      0 ≤ o.count ∧
      ((ks.sortedSets[key]? = none ∧
          (handleGeosearch clock (c :: key :: rest) ks).1 = (array []).toBytes) ∨
        ∃ set center radius, ks.sortedSets[key]? = some set ∧ o.radius = some radius ∧
          searchCenter o set = some center ∧
          ∃ all chosen : List (Match F), (∀ m, m ∈ all ↔ Within o center radius set m) ∧
            (all.map (·.member)).Nodup ∧ Selection o all chosen ∧
            (handleGeosearch clock (c :: key :: rest) ks).1 =
              (nestedArray (chosen.map (matchReply o))).toBytes) := by
  obtain ⟨o, ho, hcount, hreply⟩ := handleGeosearch_of_not_error hok
  refine ⟨o, ho, hcount, ?_⟩
  rw [hreply] at hok ⊢
  obtain ⟨hany, ⟨hset, harray⟩ | ⟨set, center, radius, hset, hradius, hc, hmatches⟩⟩ :=
    searchReply_of_not_error hok
  · exact .inl ⟨hset, harray⟩
  · have hagrees : set.Agrees := hks key set hset
    exact .inr ⟨set, center, radius, hset, hradius, hc, found o center radius set,
      searchMatches o center radius set, fun m => mem_found hagrees, found_nodup hagrees,
      selection_searchMatches hagrees hcount hany, hmatches⟩

/-- Any of two members, which is the first one. -/
theorem geosearch_selects_any :
    let set : SortedSet Whole := (SortedSet.add {} (Platform.ofI64 0) (ascii "b")).2
    let both : SortedSet Whole := (set.add (Platform.ofI64 1) (ascii "a")).2
    let ks : Keyspace Whole := { sortedSets := (∅ : Map (SortedSet Whole)).insert (ascii "z") both }
    let options := [ascii "FROMLONLAT", ascii "0", ascii "0", ascii "BYRADIUS", ascii "10",
      ascii "m", ascii "COUNT", ascii "1", ascii "ANY"]
    let r := handleGeosearch (fun _ => ⟨0, 0⟩) (ascii "GEOSEARCH" :: ascii "z" :: options) ks
    r.1 = (nestedArray [bulkString (ascii "b")]).toBytes ∧
      ∃ o : SearchOptions Whole, searchOptions { unit := Platform.ofRat 1 } 0 options = .ok o ∧
        ∃ all chosen, Selection o all chosen ∧
          r.1 = (nestedArray (chosen.map (matchReply o))).toBytes := by
  intro set both ks options r
  have hagrees : ks.IndexesAgree := indexesAgree_insert (by simp) _
    ((SortedSet.agrees_empty.add _ _).add _ _)
  have hreply : r.1 = (nestedArray [bulkString (ascii "b")]).toBytes := by decide +kernel
  have hok : isError r.1 = false := by
    rw [hreply]
    rfl
  refine ⟨hreply, ?_⟩
  obtain ⟨o, ho, -, hcases⟩ := geosearch_selects (fun _ => ⟨0, 0⟩) (ascii "GEOSEARCH") (ascii "z")
    options hagrees hok
  rcases hcases with ⟨hnone, -⟩ | ⟨-, -, -, -, -, -, all, chosen, -, -, hselection, hchosen⟩
  · simp [ks] at hnone
  · exact ⟨o, ho, all, chosen, hselection, hchosen⟩

end Keyspace

end TrueStore
