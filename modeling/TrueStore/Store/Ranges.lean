import TrueStore.Store.BitArrays

/-! # Ranges of lists and of sorted sets

`LRANGE` and `ZRANGE` each bring their indexes into bounds by code of their own. Both select the
elements between two indexes that may count from the end, except that a stop before the first
element is the first element to `LRANGE`.
-/

namespace TrueStore

section between

variable {α : Type}

def between (l : List α) (first last : ℤ) : List α :=
  (l.zipIdx.filter fun p => decide (first ≤ p.2 ∧ (p.2 : ℤ) ≤ last)).map (·.1)

theorem between_eq_nil {l : List α} {first last : ℤ}
    (h : last < first ∨ last < 0 ∨ l.length ≤ first) : between l first last = [] := by
  rw [between, List.map_eq_nil_iff, List.filter_eq_nil_iff]
  rintro ⟨x, i⟩ hmem
  have hi := (List.mem_zipIdx hmem).2.1
  simp only [decide_eq_true_eq]
  omega

theorem between_append (x y z : List α) :
    between (x ++ (y ++ z)) x.length (x.length + y.length - 1) = y := by
  have hx : x.zipIdx.filter (fun p => decide ((x.length : ℤ) ≤ p.2 ∧
      (p.2 : ℤ) ≤ x.length + y.length - 1)) = [] := by
    rw [List.filter_eq_nil_iff]
    rintro ⟨a, i⟩ hmem
    have hi := (List.mem_zipIdx hmem).2.1
    simp only [decide_eq_true_eq]
    omega
  have hy : (y.zipIdx x.length).filter (fun p => decide ((x.length : ℤ) ≤ p.2 ∧
      (p.2 : ℤ) ≤ x.length + y.length - 1)) = y.zipIdx x.length := by
    rw [List.filter_eq_self]
    rintro ⟨a, i⟩ hmem
    have hi := (List.mem_zipIdx hmem).1
    have hi' := (List.mem_zipIdx hmem).2.1
    simp only [decide_eq_true_eq]
    omega
  have hz : (z.zipIdx (x.length + y.length)).filter (fun p => decide ((x.length : ℤ) ≤ p.2 ∧
      (p.2 : ℤ) ≤ x.length + y.length - 1)) = [] := by
    rw [List.filter_eq_nil_iff]
    rintro ⟨a, i⟩ hmem
    have hi := (List.mem_zipIdx hmem).1
    simp only [decide_eq_true_eq]
    omega
  rw [between, List.zipIdx_append, List.zipIdx_append, List.filter_append, List.filter_append,
    Nat.zero_add, hx, hy, hz, List.nil_append, List.append_nil, List.zipIdx_map_fst]

theorem between_eq_take {l : List α} {first last : ℤ} (h : 0 ≤ first) (horder : first ≤ last)
    (hlast : last < l.length) :
    between l first last = (l.drop first.toNat).take (last - first + 1).toNat := by
  have hsplit : l = l.take first.toNat ++ ((l.drop first.toNat).take (last - first + 1).toNat ++
      (l.drop first.toNat).drop (last - first + 1).toNat) := by
    rw [List.take_append_drop, List.take_append_drop]
  have happend := between_append (l.take first.toNat)
    ((l.drop first.toNat).take (last - first + 1).toNat)
    ((l.drop first.toNat).drop (last - first + 1).toNat)
  rw [← hsplit, List.length_take, List.length_take, List.length_drop] at happend
  convert happend using 2 <;> omega

theorem between_min (l : List α) (first last : ℤ) :
    between l first (min last (l.length - 1)) = between l first last := by
  unfold between
  congr 1
  refine List.filter_congr ?_
  rintro ⟨x, i⟩ hmem
  have hi := (List.mem_zipIdx hmem).2.1
  rw [decide_eq_decide]
  omega

theorem map_between {β : Type} (f : α → β) (l : List α) (first last : ℤ) :
    (between l first last).map f = between (l.map f) first last := by
  rw [between, between, List.zipIdx_map, List.filter_map, List.map_map, List.map_map]
  rfl

end between

namespace Keyspace

open RespType

variable {F : Type} [Platform F]

def selected {α : Type} (l : List α) (start stop : ℤ) : List α :=
  between l (max 0 (fromEnd l.length start)) (fromEnd l.length stop)

theorem map_selected {α β : Type} (f : α → β) (l : List α) (start stop : ℤ) :
    (selected l start stop).map f = selected (l.map f) start stop := by
  rw [selected, map_between, selected, List.length_map]

/-- A vector made of two iterators into another one, if these are in bounds and in order. -/
def slice (list : List Bytes) (first last : ℤ) : Option (List Bytes) :=
  if 0 ≤ first ∧ first ≤ last ∧ last ≤ list.length then
    some ((list.drop first.toNat).take (last - first).toNat)
  else none

/-- `listRange` in 64-bit arithmetic: nothing if it overflows or an iterator leaves the list. -/
def listRangeChecked (list : List Bytes) (start stop : ℤ) : Option (List Bytes) := do
  let size ← int64 list.length
  let start ← shiftIndex size start
  let start := max start 0
  let stop ← shiftIndex size stop
  let stop := max stop 0
  if size ≤ start ∨ stop < start then some []
  else do
    let stop ← if size ≤ stop then int64 (size - 1) else some stop
    let past ← int64 (stop + 1)
    slice list start past

/-- The loop of `ZRANGE`, with its iterator and its counter. -/
def collect {α : Type} (stop : ℤ) : List α → ℤ → Option (List α)
  | [], index => if stop < index then some [] else none
  | entry :: position, index =>
    if stop < index then some []
    else do
      let index ← int64 (index + 1)
      let rest ← collect stop position index
      some (entry :: rest)

/-- `SortedSet.range` in 64-bit arithmetic: nothing if it overflows or the iterator leaves the
set. -/
def rangeChecked (set : SortedSet F) (start stop : ℤ) : Option (List (F × Bytes)) := do
  let size ← int64 set.ordered.size
  let start ← shiftIndex size start
  let stop ← shiftIndex size stop
  let last ← int64 (size - 1)
  let start := max start 0
  let stop := min stop last
  if stop < start ∨ size ≤ start then some []
  else collect stop (set.ordered.toList.drop start.toNat) start

theorem shiftIndex_eq {length index : ℤ} (hlength : 0 ≤ length ∧ length < 2 ^ 63)
    (hindex : -2 ^ 63 ≤ index ∧ index < 2 ^ 63) :
    shiftIndex length index = some (fromEnd length index) := by
  unfold shiftIndex fromEnd
  split
  · exact int64_eq (by omega) (by omega)
  · rfl

/-- The indexes of `listRange`: a negative one counts from the end, or is zero. -/
theorem listRange_eq (list : List Bytes) (start stop : ℤ) :
    listRange list start stop =
      let first := max (fromEnd list.length start) 0
      let last := max (fromEnd list.length stop) 0
      if list.length ≤ first ∨ last < first then []
      else (list.drop first.toNat).take
        ((if list.length ≤ last then (list.length : ℤ) - 1 else last) - first + 1).toNat := rfl

theorem listRangeChecked_eq {list : List Bytes} (hsize : list.length < 2 ^ 63) {start stop : ℤ}
    (hstart : -2 ^ 63 ≤ start ∧ start < 2 ^ 63) (hstop : -2 ^ 63 ≤ stop ∧ stop < 2 ^ 63) :
    listRangeChecked list start stop = some (listRange list start stop) := by
  have hlength : (0 : ℤ) ≤ list.length ∧ (list.length : ℤ) < 2 ^ 63 := ⟨by omega, by omega⟩
  unfold listRangeChecked
  rw [listRange_eq, int64_eq (by omega) hlength.2]
  simp only [Option.bind_eq_bind, Option.bind_some, shiftIndex_eq hlength hstart,
    shiftIndex_eq hlength hstop]
  set first := max (fromEnd list.length start) 0
  set last := max (fromEnd list.length stop) 0
  have hfirst : 0 ≤ first := le_max_right ..
  split
  · rfl
  · rename_i hbounds
    split
    · rw [int64_eq (by omega) (by omega), Option.bind_some, int64_eq (by omega) (by omega),
        Option.bind_some, slice, if_pos ⟨hfirst, by omega, by omega⟩]
      congr 2
      omega
    · rw [int64_eq (by omega) (by omega), Option.bind_some, slice,
        if_pos ⟨hfirst, by omega, by omega⟩]
      congr 2
      omega

theorem collect_eq {α : Type} {stop : ℤ} (hstop : stop < 2 ^ 63 - 1) :
    ∀ {position : List α} {index : ℤ}, 0 ≤ index → stop < index + position.length →
      collect stop position index = some (position.take (stop - index + 1).toNat)
  | [], index, _, hbound => by
    rw [collect, if_pos (by simpa using hbound), List.take_nil]
  | entry :: position, index, hindex, hbound => by
    rw [List.length_cons] at hbound
    push_cast at hbound
    unfold collect
    split
    · rename_i hdone
      have hzero : (stop - index + 1).toNat = 0 := by omega
      rw [hzero, List.take_zero]
    · rename_i hmore
      have hnext : (stop - index + 1).toNat = (stop - (index + 1) + 1).toNat + 1 := by omega
      rw [int64_eq (by omega) (by omega), hnext, List.take_succ_cons]
      simp only [Option.bind_eq_bind, Option.bind_some]
      rw [collect_eq hstop (by omega) (by omega), Option.bind_some]

theorem range_eq (set : SortedSet F) (start stop : ℤ) :
    set.range start stop =
      let first := max (fromEnd set.ordered.size start) 0
      let last := min (fromEnd set.ordered.size stop) (set.ordered.size - 1)
      if last < first ∨ set.ordered.size ≤ first then []
      else (set.ordered.toList.drop first.toNat).take (last - first + 1).toNat := rfl

theorem rangeChecked_eq {set : SortedSet F} (hsize : set.ordered.size < 2 ^ 63) {start stop : ℤ}
    (hstart : -2 ^ 63 ≤ start ∧ start < 2 ^ 63) (hstop : -2 ^ 63 ≤ stop ∧ stop < 2 ^ 63) :
    rangeChecked set start stop = some (set.range start stop) := by
  have hlength : (0 : ℤ) ≤ set.ordered.size ∧ (set.ordered.size : ℤ) < 2 ^ 63 :=
    ⟨by omega, by omega⟩
  unfold rangeChecked
  rw [range_eq, int64_eq (by omega) hlength.2]
  simp only [Option.bind_eq_bind, Option.bind_some, shiftIndex_eq hlength hstart,
    shiftIndex_eq hlength hstop, int64_eq (z := (set.ordered.size : ℤ) - 1) (by omega) (by omega)]
  set first := max (fromEnd set.ordered.size start) 0
  set last := min (fromEnd set.ordered.size stop) ((set.ordered.size : ℤ) - 1)
  have hfirst : 0 ≤ first := le_max_right ..
  have hlast : last ≤ (set.ordered.size : ℤ) - 1 := min_le_right ..
  split
  · rfl
  · rename_i hbounds
    refine collect_eq (by omega) hfirst ?_
    rw [List.length_drop, Std.ExtTreeSet.length_toList]
    omega

/-- The stop is before the first element of a sequence, and the start is not after it. -/
def StopsBefore (size start stop : ℤ) : Prop :=
  0 < size ∧ stop < -size ∧ fromEnd size start ≤ 0

theorem listRange_eq_selected {list : List Bytes} {start stop : ℤ}
    (h : ¬StopsBefore list.length start stop) :
    listRange list start stop = selected list start stop := by
  have hstop : 0 ≤ fromEnd list.length stop ∨ stop < -list.length := by
    unfold fromEnd
    split <;> omega
  unfold StopsBefore at h
  rw [listRange_eq, selected, max_comm 0]
  set first := max (fromEnd list.length start) 0 with hf
  set last := max (fromEnd list.length stop) 0 with hl
  dsimp only
  split
  · refine (between_eq_nil ?_).symm
    omega
  · have hlast : last = fromEnd list.length stop := by omega
    have hmin : (if (list.length : ℤ) ≤ last then (list.length : ℤ) - 1 else last) =
        min (fromEnd list.length stop) (list.length - 1) := by
      split <;> omega
    rw [hmin, ← between_min, between_eq_take (by omega) (by omega) (by omega)]

theorem listRange_of_stopsBefore {list : List Bytes} {start stop : ℤ}
    (h : StopsBefore list.length start stop) :
    listRange list start stop = list.take 1 ∧ selected list start stop = [] := by
  obtain ⟨hsize, hstop, hstart⟩ := h
  have hback : fromEnd list.length stop < 0 := by
    unfold fromEnd
    split <;> omega
  rw [listRange_eq, selected]
  set first := max (fromEnd list.length start) 0 with hf
  set last := max (fromEnd list.length stop) 0 with hl
  have hfirst : first = 0 := by omega
  have hlast : last = 0 := by omega
  refine ⟨?_, between_eq_nil (by omega)⟩
  dsimp only
  rw [hfirst, hlast, if_neg (by omega), if_neg (by omega)]
  rfl

theorem range_eq_selected (set : SortedSet F) (start stop : ℤ) :
    set.range start stop = selected set.ordered.toList start stop := by
  rw [range_eq, selected, Std.ExtTreeSet.length_toList, max_comm 0]
  set first := max (fromEnd set.ordered.size start) 0 with hf
  have hlength : (set.ordered.toList.length : ℤ) = set.ordered.size := by simp
  rw [← between_min, hlength]
  set last := min (fromEnd set.ordered.size stop) ((set.ordered.size : ℤ) - 1) with hl
  dsimp only
  split
  · refine (between_eq_nil ?_).symm
    omega
  · rw [between_eq_take (by omega) (by omega) (by omega)]

theorem handleLrange_eq {start stop : ℤ} (hstart : -2 ^ 63 ≤ start ∧ start < 2 ^ 63)
    (hstop : -2 ^ 63 ≤ stop ∧ stop < 2 ^ 63) (c key : Bytes) (ks : Keyspace F) :
    (handleLrange [c, key, decimalInt start, decimalInt stop] ks).1 =
      (array (listRange (ks.listAt key) start stop)).toBytes := by
  have hfirst : stoll (decimalInt start) = some start :=
    scanSigned_decimalInt (by simpa using hstart)
  have hlast : stoll (decimalInt stop) = some stop := scanSigned_decimalInt (by simpa using hstop)
  simp only [handleLrange, hfirst, hlast]

theorem handleZrange_eq {start stop : ℤ} (hstart : -2 ^ 63 ≤ start ∧ start < 2 ^ 63)
    (hstop : -2 ^ 63 ≤ stop ∧ stop < 2 ^ 63) {clock : Readings} {key : Bytes} {ks : Keyspace F}
    (htype : (ks.wrongSortedSetType (clock 0) key).1 = false) (c : Bytes) :
    (handleZrange clock [c, key, decimalInt start, decimalInt stop] ks).1 =
      (array (selected ((ks.setAt key).ordered.toList.map (·.2)) start stop)).toBytes := by
  have hrange : ∀ set : SortedSet F, ((set.range start stop).flatMap fun e => [e.2]) =
      selected (set.ordered.toList.map (·.2)) start stop := by
    intro set
    rw [range_eq_selected, ← map_selected, List.map_eq_flatMap]
  simp only [handleZrange, zrange, fromCharsI64_decimalInt hstart, fromCharsI64_decimalInt hstop,
    checked, htype, Bool.false_eq_true, if_false, wrongSortedSetType_snd, zrangeReply,
    evict_sortedSets, hrange]
  unfold setAt
  rw [Std.ExtTreeMap.getD_eq_getD_getElem?]
  cases ks.sortedSets[key]? with
  | some set => rfl
  | none =>
    have hempty : (({} : SortedSet F).ordered.toList.map (·.2)) = [] := by simp
    simp only [Option.getD_none, hempty]
    rfl

/-- `LRANGE` and `ZRANGE` select the same elements of the same sequence, those between the two
indexes, within 64-bit arithmetic and the bounds of the containers, unless the stop is before the
first element and the start is not after it. -/
theorem ranges_agree_iff (clock : Readings) (l z list set : Bytes) (ks : Keyspace F)
    (elements : List Bytes) (hlist : ks.listAt list = elements)
    (hset : (ks.setAt set).ordered.toList.map (·.2) = elements)
    (htype : (ks.wrongSortedSetType (clock 0) set).1 = false) (hsize : elements.length < 2 ^ 63)
    (start stop : ℤ) (hstart : -2 ^ 63 ≤ start ∧ start < 2 ^ 63)
    (hstop : -2 ^ 63 ≤ stop ∧ stop < 2 ^ 63) :
    (listRangeChecked (ks.listAt list) start stop = some (selected elements start stop) ∧
      (rangeChecked (ks.setAt set) start stop).map (·.map (·.2)) =
        some (selected elements start stop) ∧
      (handleLrange [l, list, decimalInt start, decimalInt stop] ks).1 =
        (array (selected elements start stop)).toBytes ∧
      (handleZrange clock [z, set, decimalInt start, decimalInt stop] ks).1 =
        (array (selected elements start stop)).toBytes) ↔
      (elements = [] ∨ -elements.length ≤ stop ∨ 0 < start ∨
        (-elements.length < start ∧ start < 0)) := by
  have hcond : ¬StopsBefore elements.length start stop ↔ (elements = [] ∨
      -elements.length ≤ stop ∨ 0 < start ∨ (-elements.length < start ∧ start < 0)) := by
    rw [← List.length_eq_zero_iff]
    unfold StopsBefore fromEnd
    split <;> omega
  have hordered : (ks.setAt set).ordered.size < 2 ^ 63 := by
    rw [← Std.ExtTreeSet.length_toList, ← List.length_map (f := (·.2)), hset]
    exact hsize
  rw [← hcond, handleLrange_eq hstart hstop, handleZrange_eq hstart hstop htype, hlist, hset,
    listRangeChecked_eq hsize hstart hstop, rangeChecked_eq hordered hstart hstop,
    range_eq_selected, Option.map_some, map_selected, hset]
  constructor
  · rintro ⟨he, -⟩ hstops
    obtain ⟨hfirst, hnone⟩ := listRange_of_stopsBefore hstops
    rw [hfirst, hnone, Option.some.injEq, List.take_eq_nil_iff, ← List.length_eq_zero_iff] at he
    have := hstops.1
    omega
  · intro h
    rw [listRange_eq_selected h]
    exact ⟨rfl, rfl, rfl, rfl⟩

/-- The last two of three elements. -/
theorem ranges_agree_iff_tail :
    let ks : Keyspace Whole :=
      { dynamicVector := (∅ : Map (List Bytes)).insert (ascii "l") [ascii "a", ascii "b", ascii "c"]
        sortedSets := (∅ : Map (SortedSet Whole)).insert (ascii "z")
          (SortedSet.addAll (F := Whole) [(Platform.ofI64 1, ascii "a"),
            (Platform.ofI64 2, ascii "b"), (Platform.ofI64 3, ascii "c")] {}).2 }
    (handleLrange [ascii "LRANGE", ascii "l", decimalInt (-2), decimalInt 7] ks).1 =
      (array [ascii "b", ascii "c"]).toBytes := by
  intro ks
  have h := ranges_agree_iff (fun _ => ⟨0, 0⟩) (ascii "LRANGE") (ascii "ZRANGE") (ascii "l")
    (ascii "z") ks [ascii "a", ascii "b", ascii "c"] (by decide) (by decide) (by decide) (by decide)
    (-2) 7 (by decide) (by decide)
  exact (h.mpr (by decide)).2.2.1

/-- `LRANGE` finds an element before the first one. -/
theorem lrange_before_first :
    let ks : Keyspace Whole :=
      { dynamicVector := (∅ : Map (List Bytes)).insert (ascii "l") [ascii "a"]
        sortedSets := (∅ : Map (SortedSet Whole)).insert (ascii "z")
          (SortedSet.addAll (F := Whole) [(Platform.ofI64 1, ascii "a")] {}).2 }
    let clock : Readings := fun _ => ⟨0, 0⟩
    ks.listAt (ascii "l") = [ascii "a"] ∧
      (ks.setAt (ascii "z")).ordered.toList.map (·.2) = [ascii "a"] ∧
      selected [ascii "a"] 0 (-100) = [] ∧
      (handleLrange [ascii "LRANGE", ascii "l", ascii "0", ascii "-100"] ks).1 =
        (array [ascii "a"]).toBytes ∧
      (handleZrange clock [ascii "ZRANGE", ascii "z", ascii "0", ascii "-100"] ks).1 =
        (array []).toBytes ∧
      (array [ascii "a"]).toBytes ≠ (array []).toBytes := by
  decide

end Keyspace

end TrueStore
