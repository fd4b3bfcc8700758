import TrueStore.Order.BigEndian
import TrueStore.Order.Sorted
import TrueStore.Stream.Order

/-! # A stream as a log

The tree of a stream lists its entries in the order of their IDs, so a stream is a log to which
entries are only added at the end. A range is the part of the log between two IDs.
-/

namespace TrueStore

open BigEndian

namespace StreamID

def rank (id : StreamID) : ℕ := id.milliseconds.toNat * 2 ^ 64 + id.sequence.toNat

theorem lt_iff_rank {a b : StreamID} : a.lt b = true ↔ a.rank < b.rank := by
  have ha := a.sequence.toNat_lt
  have hb := b.sequence.toNat_lt
  rw [lt_iff]
  unfold rank
  omega

end StreamID

theorem idxOf?_append {l : Bytes} {b : UInt8} (h : b ∉ l) (l' : Bytes) :
    (l ++ b :: l').idxOf? b = some l.length := by
  induction l with
  | nil => simp [List.idxOf?_cons]
  | cons a l ih =>
    obtain ⟨hne, hnot⟩ := not_or.mp (List.mem_cons.not.mp h)
    simp [List.idxOf?_cons, ih hnot, Ne.symm hne]

theorem StreamID.parse_toString (id : StreamID) : StreamID.parse id.toString = some id := by
  have hdash : ∀ n, (45 : UInt8) ∉ decimal n := fun n => not_mem_decimal (by decide)
  have hsplit : splitDash id.toString =
      some (decimal id.milliseconds.toNat, decimal id.sequence.toNat) := by
    rw [splitDash, toString, idxOf?_append (hdash _)]
    simp
  rw [parse, hsplit]
  simp [decimal_ne_nil, hdash, fromCharsU64_decimal]

theorem parseRangeBound_toString (id : StreamID) (defaultSequence : UInt64) :
    parseRangeBound id.toString defaultSequence = some id := by
  have hmem : (45 : UInt8) ∈ id.toString := by simp [StreamID.toString]
  have hne : id.toString ≠ [] := List.ne_nil_of_mem hmem
  rw [parseRangeBound, if_neg hne, if_pos hmem, StreamID.parse_toString]

/-- A bare number of milliseconds takes the default sequence number. -/
theorem parseRangeBound_decimal (ms defaultSequence : UInt64) :
    parseRangeBound (decimal ms.toNat) defaultSequence = some ⟨ms, defaultSequence⟩ := by
  have hdash : (45 : UInt8) ∉ decimal ms.toNat := not_mem_decimal (by decide)
  rw [parseRangeBound, if_neg (decimal_ne_nil _), if_neg hdash, fromCharsU64_decimal]
  rfl

theorem length_writeU64Be (n : UInt64) : (writeU64Be n).length = 8 := by simp [writeU64Be]

theorem toNat_byte (n : UInt64) {k : ℕ} (hk : k < 8) :
    (n >>> UInt64.ofNat (8 * k)).toUInt8.toNat = n.toNat / 2 ^ (8 * k) % 256 := by
  have hshift : 8 * k % 2 ^ 64 % 64 = 8 * k := by omega
  simp only [UInt64.toNat_toUInt8, UInt64.toNat_shiftRight, UInt64.toNat_ofNat',
    Nat.shiftRight_eq_div_pow, hshift]

theorem value_leading (n : UInt64) {k : ℕ} (hk : k ≤ 8) :
    value ((List.range k).map fun i => (n >>> UInt64.ofNat (8 * (7 - i))).toUInt8) =
      n.toNat / 2 ^ (8 * (8 - k)) := by
  induction k with
  | zero => exact (Nat.div_eq_of_lt n.toNat_lt).symm
  | succ k ih =>
    have hdiv : n.toNat / 2 ^ (8 * (8 - k)) = n.toNat / 2 ^ (8 * (7 - k)) / 256 := by
      rw [Nat.div_div_eq_div_mul, show 8 * (8 - k) = 8 * (7 - k) + 8 by omega, pow_add]
      rfl
    rw [List.range_succ, List.map_append, value_append, ih (by omega), hdiv]
    simp only [List.map_cons, List.map_nil, value, List.foldl_cons, List.foldl_nil,
      List.length_singleton, pow_one, zero_mul, zero_add]
    rw [toNat_byte n (by omega), show 8 - (k + 1) = 7 - k by omega]
    exact Nat.div_add_mod' _ _

theorem value_writeU64Be (n : UInt64) : value (writeU64Be n) = n.toNat := by
  rw [writeU64Be, value_leading n le_rfl]
  exact Nat.div_one _

theorem value_encodeId (id : StreamID) : value (encodeId id) = id.rank := by
  rw [encodeId, value_append, value_writeU64Be, value_writeU64Be, length_writeU64Be]
  rfl

theorem encodeId_lt {a b : StreamID} : encodeId a < encodeId b ↔ a.lt b = true := by
  rw [BigEndian.lt_iff (by simp [encodeId, length_writeU64Be]), value_encodeId, value_encodeId,
    StreamID.lt_iff_rank]

theorem compare_encodeId (a b : StreamID) :
    compare (encodeId a) (encodeId b) = compare a.rank b.rank := by
  rw [compare_eq (by simp [encodeId, length_writeU64Be]), value_encodeId, value_encodeId]

theorem toNat_shiftLeft_or {v : UInt64} {b : UInt8} (h : v.toNat * 256 + b.toNat < 2 ^ 64) :
    ((v <<< 8) ||| b.toUInt64).toNat = v.toNat * 256 + b.toNat := by
  have hshift : (v <<< 8).toNat = v.toNat <<< 8 := by
    have hlt : v.toNat * 256 < 2 ^ 64 := (Nat.le_add_right _ _).trans_lt h
    have hmod : (8 : UInt64).toNat % 64 = 8 := by decide
    rw [UInt64.toNat_shiftLeft, hmod, Nat.shiftLeft_eq]
    exact Nat.mod_eq_of_lt hlt
  have hb : b.toNat < 2 ^ 8 := b.toNat_lt
  rw [UInt64.toNat_or, hshift, UInt8.toNat_toUInt64, ← Nat.shiftLeft_add_eq_or_of_lt hb,
    Nat.shiftLeft_eq]

theorem toNat_foldl_read (l : List UInt8) (v : UInt64)
    (h : v.toNat * 256 ^ l.length + value l < 2 ^ 64) :
    (l.foldl (fun (v : UInt64) (b : UInt8) => (v <<< 8) ||| b.toUInt64) v).toNat =
      v.toNat * 256 ^ l.length + value l := by
  induction l generalizing v with
  | nil => simp [value]
  | cons b l ih =>
    have hsplit : v.toNat * 256 ^ (b :: l).length + value (b :: l) =
        (v.toNat * 256 + b.toNat) * 256 ^ l.length + value l := by
      rw [value_cons, List.length_cons, pow_succ]
      ring
    rw [hsplit] at h ⊢
    have hpow : 1 ≤ 256 ^ l.length := Nat.one_le_pow _ _ (by omega)
    have hone : v.toNat * 256 + b.toNat < 2 ^ 64 :=
      calc v.toNat * 256 + b.toNat ≤ (v.toNat * 256 + b.toNat) * 256 ^ l.length :=
            Nat.le_mul_of_pos_right _ hpow
        _ ≤ (v.toNat * 256 + b.toNat) * 256 ^ l.length + value l := Nat.le_add_right _ _
        _ < 2 ^ 64 := h
    have hstep := toNat_shiftLeft_or hone
    rw [List.foldl_cons, ih _ (by rwa [hstep]), hstep]

theorem readU64Be_writeU64Be (n : UInt64) : readU64Be (writeU64Be n) = n := by
  apply UInt64.toNat_inj.mp
  rw [readU64Be, toNat_foldl_read _ _ (by simpa [value_writeU64Be] using n.toNat_lt),
    value_writeU64Be]
  simp

theorem decodeId_encodeId (id : StreamID) : decodeId (encodeId id) = id := by
  rw [decodeId, encodeId, List.take_left' (length_writeU64Be _), List.drop_left' (length_writeU64Be _),
    readU64Be_writeU64Be, readU64Be_writeU64Be]

def encodeEntry (e : StreamID × StreamEntryData) : Bytes × StreamEntryData := (encodeId e.1, e.2)

def showEntry (e : StreamID × StreamEntryData) : Bytes × StreamEntryData := (e.1.toString, e.2)

/-- The first entries of a list, or all of them when the number is zero. -/
def cut {α : Type*} (count : ℕ) (l : List α) : List α := if count = 0 then l else l.take count

theorem cut_eq_nil {α : Type*} {count : ℕ} {l : List α} (h : cut count l = []) : l = [] := by
  unfold cut at h
  split at h
  · exact h
  · rename_i hc
    exact (List.take_eq_nil_iff.mp h).resolve_left hc

namespace Stream

/-- The stream holds a log: a list of entries in the order of their IDs. -/
structure Holds (s : Stream) (log : List (StreamID × StreamEntryData)) : Prop where
  tree : s.tree.toList = log.map encodeEntry
  increasing : log.Pairwise fun a b => a.1.lt b.1 = true
  maxId : s.maxId = log.getLast?.map Prod.fst
  nonzero : ∀ e ∈ log, e.1 ≠ ⟨0, 0⟩

theorem holds_empty : ({} : Stream).Holds [] :=
  ⟨rfl, .nil, rfl, by simp⟩

variable {s : Stream} {log : List (StreamID × StreamEntryData)}

/-- The largest ID is that of an entry that no other one exceeds. -/
theorem Holds.le_maxId (h : s.Holds log) {e : StreamID × StreamEntryData} (he : e ∈ log) :
    ∃ m, s.maxId = some m ∧ e.1.rank ≤ m.rank := by
  rcases List.eq_nil_or_concat log with rfl | ⟨init, last, rfl⟩
  · cases he
  · refine ⟨last.1, by simp [h.maxId], ?_⟩
    rw [List.concat_eq_append] at he
    rcases List.mem_append.mp he with he | he
    · have hlt := (List.pairwise_append.mp (List.concat_eq_append ▸ h.increasing)).2.2 e he last
        (List.mem_singleton_self last)
      exact (StreamID.lt_iff_rank.mp hlt).le
    · rw [List.mem_singleton.mp he]

theorem Holds.exists_entry (h : s.Holds log) {key : Bytes} (hk : key ∈ s.tree) :
    ∃ e ∈ log, decodeId key = e.1 := by
  obtain ⟨data, hdata⟩ := Option.isSome_iff_exists.mp (Std.ExtTreeMap.mem_iff_isSome_getElem?.mp hk)
  have hmem := Std.ExtTreeMap.mem_toList_iff_getElem?_eq_some.mpr hdata
  rw [h.tree] at hmem
  obtain ⟨e, he, heq⟩ := List.mem_map.mp hmem
  refine ⟨e, he, ?_⟩
  rw [← (Prod.mk.inj heq).1, decodeId_encodeId]

theorem ne_zero_of_nextSequence {ms : UInt64} {id : StreamID} (h : s.nextSequence ms = .ok id) :
    id ≠ ⟨0, 0⟩ := by
  unfold nextSequence at h
  rintro rfl
  split at h
  · simp only [Except.ok.injEq, StreamID.mk.injEq] at h
    obtain ⟨rfl, h⟩ := h
    simp at h
  · split at h
    · rename_i hlt
      simp only [Except.ok.injEq, StreamID.mk.injEq, and_true] at h
      subst h
      rw [UInt64.lt_iff_toNat_lt] at hlt
      simp at hlt
    · split at h
      · cases h
      · rename_i hs
        simp only [Except.ok.injEq, StreamID.mk.injEq] at h
        have hnat := toNat_add_one hs
        rw [h.2] at hnat
        simp at hnat

theorem ne_zero_of_resolveId {now : UInt64} {idText : Bytes} {id : StreamID}
    (h : s.resolveId now idText = .ok id) : id ≠ ⟨0, 0⟩ := by
  unfold resolveId at h
  split at h
  · exact ne_zero_of_nextSequence h
  · split at h
    · repeat' split at h
      all_goals first
        | cases h
        | exact ne_zero_of_nextSequence h
    · split at h
      · cases h
      · rename_i parsed _
        split at h
        · cases h
        · rename_i hne
          have hid : id = parsed := by
            repeat' split at h
            all_goals cases h
            all_goals rfl
          rintro rfl
          rw [← hid] at hne
          exact hne ⟨rfl, rfl⟩

theorem Holds.compare_lt (h : s.Holds log) {id : StreamID}
    (hid : ∀ m, s.maxId = some m → m.lt id = true) :
    ∀ e ∈ s.tree.toList, compare e.1 (encodeId id) = .lt := by
  intro e he
  rw [h.tree] at he
  obtain ⟨e', he', rfl⟩ := List.mem_map.mp he
  obtain ⟨m, hm, hle⟩ := h.le_maxId he'
  have hlt := StreamID.lt_iff_rank.mp (hid m hm)
  rw [encodeEntry, compare_encodeId, Nat.compare_eq_lt]
  omega

/-- An accepted ID is not in the tree, so the insertion succeeds. -/
theorem Holds.not_contains (h : s.Holds log) {now : UInt64} {idText : Bytes} {id : StreamID}
    (hr : s.resolveId now idText = .ok id) : s.tree.contains (encodeId id) = false := by
  by_contra hc
  have hmem : encodeId id ∈ s.tree := by simpa using hc
  obtain ⟨v, hv⟩ := Std.ExtTreeMap.mem_iff_isSome_getElem?.mp hmem |> Option.isSome_iff_exists.mp
  have hlt := h.compare_lt (fun m hm => lt_of_resolveId hr hm) _
    (Std.ExtTreeMap.mem_toList_iff_getElem?_eq_some.mpr hv)
  rw [Std.ReflOrd.compare_self] at hlt
  cases hlt

theorem Holds.insert (h : s.Holds log) {now : UInt64} {idText : Bytes} {data : StreamEntryData}
    {id : StreamID} {s' : Stream} (hi : s.insert now idText data = .ok (id, s')) :
    s'.Holds (log ++ [(id, data)]) := by
  obtain ⟨hr, rfl⟩ := insert_eq_ok hi
  refine ⟨?_, ?_, by simp, ?_⟩
  · dsimp only
    rw [Sorted.toList_insert data (h.compare_lt fun m hm => lt_of_resolveId hr hm), h.tree]
    simp [encodeEntry]
  · refine List.pairwise_append.mpr ⟨h.increasing, List.pairwise_singleton _ _, fun a ha b hb => ?_⟩
    obtain rfl := List.mem_singleton.mp hb
    obtain ⟨m, hm, hle⟩ := h.le_maxId ha
    have hlt := StreamID.lt_iff_rank.mp (lt_of_resolveId hr hm)
    exact StreamID.lt_iff_rank.mpr (hle.trans_lt hlt)
  · intro e he
    rcases List.mem_append.mp he with he | he
    · exact h.nonzero e he
    · rw [List.mem_singleton.mp he]
      exact ne_zero_of_resolveId hr

theorem collectRange_eq (endId : StreamID) {count : ℕ} (log : List (StreamID × StreamEntryData))
    {taken : ℕ} (ht : count = 0 ∨ taken < count) :
    collectRange endId count (log.map encodeEntry) taken =
      ((if count = 0 then log.takeWhile fun e => !endId.lt e.1
        else (log.takeWhile fun e => !endId.lt e.1).take (count - taken))).map showEntry := by
  induction log generalizing taken with
  | nil => simp [collectRange]
  | cons e log ih =>
    simp only [List.map_cons, encodeEntry, collectRange, decodeId_encodeId]
    cases hend : endId.lt e.1 with
    | true => simp [hend]
    | false =>
      simp only [Bool.false_eq_true, if_false, hend, Bool.not_false, List.takeWhile_cons_of_pos]
      by_cases hc : count = 0
      · rw [if_neg (by simp [hc]), ih (.inl hc)]
        simp [hc, showEntry]
      · have hlt := ht.resolve_left hc
        by_cases hlast : count ≤ taken + 1
        · have hone : count - taken = 1 := by omega
          rw [if_pos ⟨hc, hlast⟩, if_neg hc, hone]
          simp [showEntry]
        · have hmore : count - taken = count - (taken + 1) + 1 := by omega
          rw [if_neg (fun h => hlast h.2), ih (.inr (by omega)), if_neg hc, if_neg hc, hmore,
            List.take_succ_cons, List.map_cons]
          rfl

theorem Holds.getRange_eq (h : s.Holds log) (start endId : StreamID) (count : ℕ) :
    s.getRange start endId count =
      (cut count (log.filter fun e => !e.1.lt start && !endId.lt e.1)).map showEntry := by
  have hrank : ∀ {a b : StreamID}, a.lt b = false ↔ b.rank ≤ a.rank := by
    intro a b
    rw [← Bool.not_eq_true, StreamID.lt_iff_rank, Nat.not_lt]
  unfold getRange
  split
  · rename_i hlt
    have hnil : (log.filter fun e => !e.1.lt start && !endId.lt e.1) = [] := by
      refine List.filter_eq_nil_iff.mpr fun e _ hb => ?_
      simp only [Bool.and_eq_true, Bool.not_eq_true', hrank] at hb
      have := StreamID.lt_iff_rank.mp hlt
      omega
    rw [hnil]
    simp [cut]
  · have hdrop : (s.tree.toList.dropWhile fun e => (compare e.1 (encodeId start)).isLT) =
        (log.filter fun e => !e.1.lt start).map encodeEntry := by
      have hp : (fun e => (compare e.1 (encodeId start)).isLT) ∘ encodeEntry =
          fun e : StreamID × StreamEntryData => e.1.lt start := by
        funext e
        rw [Function.comp_apply, encodeEntry, compare_encodeId, Bool.eq_iff_iff,
          StreamID.lt_iff_rank, Ordering.isLT_iff_eq_lt, Nat.compare_eq_lt]
      rw [h.tree, List.dropWhile_map, hp, Sorted.dropWhile_eq_filter h.increasing]
      intro a b hab hb
      rw [StreamID.lt_iff_rank] at hab hb ⊢
      omega
    have htake : ((log.filter fun e => !e.1.lt start).takeWhile fun e => !endId.lt e.1) =
        log.filter fun e => !e.1.lt start && !endId.lt e.1 := by
      rw [Sorted.takeWhile_eq_filter (h.increasing.filter _), List.filter_filter]
      · simp only [Bool.and_comm]
      · intro a b hab hb
        simp only [Bool.not_eq_true', hrank] at hb ⊢
        rw [StreamID.lt_iff_rank] at hab
        omega
    rw [hdrop, collectRange_eq endId _ (by omega), htake, Nat.sub_zero]
    rfl

def after (log : List (StreamID × StreamEntryData)) (id : StreamID) (count : ℕ) :
    List (StreamID × StreamEntryData) :=
  cut count (log.filter fun e => id.lt e.1)

theorem rank_advanceId {id next : StreamID} (h : advanceId id = some next) :
    next.rank = id.rank + 1 := by
  unfold advanceId at h
  unfold StreamID.rank
  split at h
  · rename_i hs
    cases h
    simp only [toNat_add_one hs]
    omega
  · rename_i hs
    split at h
    · cases h
    · rename_i hm
      cases h
      have hseq : id.sequence = maxU64 := by simpa using hs
      have hmax : maxU64.toNat = 18446744073709551615 := rfl
      have hzero : (0 : UInt64).toNat = 0 := rfl
      simp only [toNat_add_one hm, hseq, hmax, hzero]
      omega

theorem lt_of_advanceId_none {id : StreamID} (h : advanceId id = none) (other : StreamID) :
    id.lt other = false := by
  unfold advanceId at h
  split at h
  · cases h
  · rename_i hs
    split at h
    · rename_i hm
      have hseq : id.sequence = maxU64 := by simpa using hs
      have hm' := other.milliseconds.toNat_lt
      have hs' := other.sequence.toNat_lt
      rw [← Bool.not_eq_true, StreamID.lt_iff, hm, hseq]
      simp only [maxU64, UInt64.reduceToNat]
      omega
    · cases h

/-- The range from the next ID on holds the entries after an ID. -/
theorem Holds.getRange_advanceId (h : s.Holds log) {id next : StreamID}
    (hn : advanceId id = some next) (count : ℕ) :
    s.getRange next ⟨maxU64, maxU64⟩ count = (after log id count).map showEntry := by
  rw [h.getRange_eq, after]
  congr 2
  refine List.filter_congr fun e _ => ?_
  have hmax : (⟨maxU64, maxU64⟩ : StreamID).lt e.1 = false := lt_of_advanceId_none (by decide) e.1
  have hlt : e.1.lt next = !id.lt e.1 := by
    rw [Bool.eq_not_iff, ne_eq, Bool.eq_iff_iff, StreamID.lt_iff_rank, StreamID.lt_iff_rank,
      rank_advanceId hn]
    omega
  rw [hmax, hlt]
  simp

end Stream

end TrueStore
