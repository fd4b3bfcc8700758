import TrueStore.Server.Runs

/-! # The two indexes of a sorted set

A sorted set keeps the score of each member in a map and the pairs of score and member in an
ordered set. The two describe the same set of pairs after every command, so the read commands,
some of which use the one and some the other, agree with each other.
-/

namespace TrueStore

open RespType

variable {F : Type} [Platform F]

namespace SortedSet

/-- The ordered index holds exactly the pairs of the score map. -/
def Agrees (set : SortedSet F) : Prop :=
  ∀ score member, (score, member) ∈ set.ordered ↔ set.scores[member]? = some score

theorem agrees_empty : ({} : SortedSet F).Agrees := by
  intro score member
  simp

theorem Agrees.add {set : SortedSet F} (h : set.Agrees) (score : F) (member : Bytes) :
    (set.add score member).2.Agrees := by
  intro s m
  unfold SortedSet.add
  by_cases hm : member = m
  · subst hm
    split
    · rename_i hnone
      have hnot : (s, member) ∉ set.ordered := fun hmem => by
        rw [h, hnone] at hmem
        cases hmem
      simp [Std.ExtTreeSet.mem_insert, hnot]
    · rename_i old hold
      have hold' : (s, member) ∈ set.ordered ↔ old = s := by rw [h, hold, Option.some_inj]
      simp [Std.ExtTreeSet.mem_insert, Std.ExtTreeSet.mem_erase, hold']
  · split <;>
      simp [Std.ExtTreeSet.mem_insert, Std.ExtTreeSet.mem_erase, Std.ExtTreeMap.getElem?_insert, hm,
        h s m]

theorem Agrees.remove {set : SortedSet F} (h : set.Agrees) {score : F} {member : Bytes}
    (hs : set.scores[member]? = some score) :
    Agrees { scores := set.scores.erase member, ordered := set.ordered.erase (score, member) } := by
  intro s m
  by_cases hm : member = m
  · subst hm
    simp [Std.ExtTreeSet.mem_erase, h s member, hs]
  · simp [Std.ExtTreeSet.mem_erase, Std.ExtTreeMap.getElem?_erase, hm, h s m]

theorem Edits.agrees {set set' : SortedSet F} (h : set.Edits set') (ha : set.Agrees) :
    set'.Agrees := by
  induction h with
  | refl => exact ha
  | add score member _ ih => exact ih (ha.add score member)
  | remove score member hs _ ih => exact ih (ha.remove hs)

end SortedSet

def Keyspace.IndexesAgree (ks : Keyspace F) : Prop :=
  ∀ (key : Bytes) (set : SortedSet F), ks.sortedSets[key]? = some set → set.Agrees

namespace Keyspace

theorem IndexesAgree.setAt {ks : Keyspace F} (h : ks.IndexesAgree) (key : Bytes) :
    (ks.setAt key).Agrees := by
  unfold Keyspace.setAt
  rw [Std.ExtTreeMap.getD_eq_getD_getElem?]
  rcases hs : ks.sortedSets[key]? with _ | set
  · exact SortedSet.agrees_empty
  · exact h key set hs

theorem indexesAgree_insert {sets : Map (SortedSet F)}
    (h : ∀ (key : Bytes) (set : SortedSet F), sets[key]? = some set → set.Agrees) (key : Bytes)
    {set : SortedSet F}
    (hs : set.Agrees) :
    ∀ (k : Bytes) (s : SortedSet F), (sets.insert key set)[k]? = some s → s.Agrees := by
  intro k s hk
  rw [Std.ExtTreeMap.getElem?_insert] at hk
  split at hk
  · cases hk
    exact hs
  · exact h k s hk

theorem indexesAgree_erase {sets : Map (SortedSet F)}
    (h : ∀ (key : Bytes) (set : SortedSet F), sets[key]? = some set → set.Agrees) (key : Bytes) :
    ∀ (k : Bytes) (s : SortedSet F), (sets.erase key)[k]? = some s → s.Agrees := by
  intro k s hk
  rw [Std.ExtTreeMap.getElem?_erase] at hk
  split at hk
  · cases hk
  · exact h k s hk

theorem indexesAgree_mutation {ks ks' : Keyspace F} (h : Mutation ks ks') (ha : ks.IndexesAgree) :
    ks'.IndexesAgree := by
  cases h with
  | assignForever key value => exact indexesAgree_erase ha key
  | assignUntil key value t => exact indexesAgree_erase ha key
  | string key value => exact ha
  | bits key result => exact indexesAgree_erase ha key
  | push key list => exact ha
  | pop key list => exact ha
  | stream key stream hi => exact ha
  | zset key set he => exact indexesAgree_insert ha key (he.agrees (ha.setAt key))
  | zrem key set he =>
    unfold IndexesAgree storeSet
    dsimp only
    split
    · exact indexesAgree_erase ha key
    · exact indexesAgree_insert ha key (he.agrees (ha.setAt key))

theorem indexesAgree_evict (ks : Keyspace F) (clock : Clock) (key : Bytes) (h : ks.IndexesAgree) :
    (ks.evict clock key).IndexesAgree := by
  unfold IndexesAgree
  rw [evict_sortedSets]
  exact h

theorem indexesAgree_of_chain {calls : List (Call F)} {ks : Keyspace F}
    (h : Chain {} calls ks) : ks.IndexesAgree :=
  h.preserves indexesAgree_evict (fun _ _ => indexesAgree_mutation) fun key set hs => by simp at hs

end Keyspace

theorem lexOrd_compare_lt {a b : F × Bytes} (h : lexOrd.compare a b = .lt) :
    a.1 < b.1 ∨ a.1 = b.1 ∧ compare a.2 b.2 = .lt := by
  have h' : (compareLex (compareOn Prod.fst) (compareOn Prod.snd) a b : Ordering) = .lt := h
  simpa [compareLex, compareOn, Ordering.then_eq_lt, compare_lt_iff_lt, compare_eq_iff_eq] using h'

/-- The entries of a sorted set in strictly increasing order of score, then member. -/
structure Listing (set : SortedSet F) (entries : List (F × Bytes)) : Prop where
  sorted : entries.Pairwise fun a b => a.1 < b.1 ∨ a.1 = b.1 ∧ compare a.2 b.2 = .lt
  mem : ∀ score member, (score, member) ∈ entries ↔ set.scores[member]? = some score
  nodup : (entries.map Prod.snd).Nodup
  length : entries.length = set.scores.size

theorem listing_ordered {set : SortedSet F} (h : set.Agrees) : Listing set set.ordered.toList := by
  have hmem : ∀ score member,
      (score, member) ∈ set.ordered.toList ↔ set.scores[member]? = some score := by
    intro score member
    rw [Std.ExtTreeSet.mem_toList]
    exact h score member
  have hsorted := Std.ExtTreeSet.ordered_toList (t := set.ordered)
  have hnodup : (set.ordered.toList.map Prod.snd).Nodup := by
    rw [List.Nodup, List.pairwise_map]
    refine List.Pairwise.imp_of_mem ?_ (Std.ExtTreeSet.distinct_toList (t := set.ordered))
    rintro ⟨s, m⟩ ⟨s', m'⟩ ha hb hne rfl
    rw [hmem] at ha hb
    rw [ha] at hb
    cases hb
    exact hne (by simp)
  have hperm : (set.ordered.toList.map Prod.snd).Perm set.scores.keys := by
    rw [List.perm_ext_iff_of_nodup hnodup Std.ExtTreeMap.nodup_keys]
    intro m
    rw [Std.ExtTreeMap.mem_keys, List.mem_map, Std.ExtTreeMap.mem_iff_isSome_getElem?,
      Option.isSome_iff_exists]
    constructor
    · rintro ⟨⟨s, m'⟩, he, rfl⟩
      exact ⟨s, (hmem s m').mp he⟩
    · rintro ⟨s, hs⟩
      exact ⟨(s, m), (hmem s m).mpr hs, rfl⟩
  refine ⟨hsorted.imp lexOrd_compare_lt, hmem, hnodup, ?_⟩
  rw [← Std.ExtTreeMap.length_keys, ← hperm.length_eq, List.length_map]

theorem integer_toBytes_inj {m n : ℕ} (h : (integer m).toBytes = (integer n).toBytes) : m = n := by
  have h' : decimal m ++ crlf = decimal n ++ crlf := by
    have : (58 : UInt8) :: (decimal m ++ crlf) = 58 :: (decimal n ++ crlf) := h
    simpa using this
  exact decimal_injective (List.append_cancel_right h')

theorem array_toBytes_eq_singleton {l : List Bytes} (hl : l.length ≤ 1) {m : Bytes} :
    (array l).toBytes = (array [m]).toBytes ↔ l = [m] := by
  refine ⟨fun h => ?_, fun h => h ▸ rfl⟩
  match l, hl with
  | [], _ => simp [toBytes, arrayHeader, show decimal 0 = [48] from rfl,
      show decimal 1 = [49] from rfl] at h
  | [m'], _ =>
    have : bulkBytes m' = bulkBytes m := by simpa [toBytes] using h
    rw [bulkBytes_injective this]

theorem bulkString_toBytes_ne_null (v : Bytes) : (bulkString v).toBytes ≠ nullBulkString.toBytes := by
  obtain ⟨d, ds, hd, hdig⟩ := decimal_cons v.length
  intro h
  simp only [toBytes, bulkBytes, hd, List.cons_append, List.cons.injEq] at h
  rw [h.2.1] at hdig
  exact absurd hdig (by decide)

theorem integer_toBytes_ne_null (n : ℕ) : (integer n).toBytes ≠ nullBulkString.toBytes := by
  simp [toBytes]

namespace SortedSet

theorem range_all (set : SortedSet F) : set.range 0 (-1) = set.ordered.toList := by
  have hlen := Std.ExtTreeSet.length_toList (t := set.ordered)
  have hneg : (-1 : ℤ) < 0 := by decide
  simp only [range, lt_irrefl, if_false, hneg, if_true, max_self, Int.toNat_zero, List.drop_zero]
  split
  · have : set.ordered.toList.length = 0 := by omega
    exact (List.eq_nil_of_length_eq_zero this).symm
  · exact List.take_of_length_le (by omega)

theorem range_single (set : SortedSet F) (r : ℕ) :
    set.range r r = (set.ordered.toList.drop r).take 1 := by
  have hlen := Std.ExtTreeSet.length_toList (t := set.ordered)
  have hneg : ¬((r : ℤ) < 0) := by omega
  have hmax : max (r : ℤ) 0 = r := by omega
  simp only [range, hneg, if_false, hmax, Int.toNat_natCast]
  split
  · rw [List.drop_eq_nil_of_le (by omega), List.take_nil]
  · congr 1
    omega

end SortedSet

/-- The reads of one key are consistent: `ZRANGE 0 -1` lists the members once each in strictly
increasing order, `ZCARD` is their number, `ZRANK` is the index at which `ZRANGE` shows the
member, and `ZRANK` and `ZSCORE` know the same members. Reads may come at different times as
long as none is refused with `WRONGTYPE`. -/
def Keyspace.ReadsAgree (ks : Keyspace F) (key : Bytes) : Prop :=
  ∃ entries : List (F × Bytes), Listing (ks.setAt key) entries ∧
    ∀ clock clock' : Readings, (ks.wrongSortedSetType (clock 0) key).1 = false →
      (ks.wrongSortedSetType (clock' 0) key).1 = false →
      (execute clock [ascii "ZRANGE", key, ascii "0", ascii "-1"] ks).1 =
        (array (entries.map Prod.snd)).toBytes ∧
      (execute clock [ascii "ZCARD", key] ks).1 = (integer entries.length).toBytes ∧
      (∀ member (r : ℕ), r < 2 ^ 63 →
        ((execute clock [ascii "ZRANK", key, member] ks).1 = (integer r).toBytes ↔
          (execute clock' [ascii "ZRANGE", key, decimal r, decimal r] ks).1 =
            (array [member]).toBytes)) ∧
      ∀ member, (execute clock [ascii "ZRANK", key, member] ks).1 = nullBulkString.toBytes ↔
        (execute clock' [ascii "ZSCORE", key, member] ks).1 = nullBulkString.toBytes

namespace Keyspace

theorem checked_of_admitted {wrong : Bool × Keyspace F} (h : wrong.1 = false)
    (body : Keyspace F → Bytes × Keyspace F) : checked wrong body = body wrong.2 := by
  simp [checked, h]

theorem sortedSets_eq_none {ks : Keyspace F} {key : Bytes} (h : ks.sortedSets[key]? = none) :
    ks.setAt key = {} := by
  simp [setAt, Std.ExtTreeMap.getD_eq_getD_getElem?, h]

theorem sortedSets_eq_some {ks : Keyspace F} {key : Bytes} {set : SortedSet F}
    (h : ks.sortedSets[key]? = some set) : ks.setAt key = set := by
  simp [setAt, Std.ExtTreeMap.getD_eq_getD_getElem?, h]

theorem zrangeReply_evict (ks : Keyspace F) (clock : Clock) (key : Bytes) (start stop : ℤ) :
    zrangeReply key start stop false (ks.evict clock key) =
      (array (((ks.setAt key).range start stop).map Prod.snd)).toBytes := by
  unfold zrangeReply
  rw [evict_sortedSets]
  split
  · rename_i h
    rw [sortedSets_eq_none h]
    simp [SortedSet.range]
  · rename_i set h
    rw [sortedSets_eq_some h]
    simp [List.map_eq_flatMap]

theorem zrankReply_evict (ks : Keyspace F) (clock : Clock) (key member : Bytes) :
    zrankReply key member (ks.evict clock key) =
      match (ks.setAt key).scores[member]? with
      | none => nullBulkString.toBytes
      | some score =>
        (integer ((ks.setAt key).ordered.toList.idxOf (score, member))).toBytes := by
  unfold zrankReply
  rw [evict_sortedSets]
  split
  · rename_i h
    rw [sortedSets_eq_none h]
    simp
  · rename_i set h
    obtain rfl := sortedSets_eq_some h
    rfl

theorem zscoreReply_evict (ks : Keyspace F) (clock : Clock) (key member : Bytes) :
    zscoreReply key member (ks.evict clock key) =
      match (ks.setAt key).scores[member]? with
      | none => nullBulkString.toBytes
      | some score => (bulkString (formatScore score)).toBytes := by
  unfold zscoreReply
  rw [evict_sortedSets]
  split
  · rename_i h
    rw [sortedSets_eq_none h]
    simp
  · rename_i set h
    obtain rfl := sortedSets_eq_some h
    rfl

theorem rank_iff_shown {set : SortedSet F} (h : set.Agrees) (member : Bytes) (r : ℕ) :
    (∃ score, set.scores[member]? = some score ∧
      set.ordered.toList.idxOf (score, member) = r) ↔
    ((set.ordered.toList.drop r).take 1).map Prod.snd = [member] := by
  have hlist := listing_ordered h
  have hnodup : set.ordered.toList.Nodup := hlist.nodup.of_map
  constructor
  · rintro ⟨score, hs, rfl⟩
    have hlt : set.ordered.toList.idxOf (score, member) < set.ordered.toList.length :=
      List.idxOf_lt_length_of_mem ((hlist.mem score member).mpr hs)
    rw [List.drop_eq_getElem_cons hlt, List.getElem_idxOf]
    rfl
  · intro hshown
    rcases hd : set.ordered.toList.drop r with _ | ⟨⟨score, m⟩, rest⟩
    · simp [hd] at hshown
    · rw [hd] at hshown
      obtain rfl : m = member := by simpa using hshown
      have hr : set.ordered.toList[r]? = some (score, m) := by
        rw [← List.head?_drop, hd, List.head?_cons]
      obtain ⟨hlt, hget⟩ := List.getElem?_eq_some_iff.mp hr
      refine ⟨score, (hlist.mem score m).mp (hget ▸ List.getElem_mem hlt), ?_⟩
      rw [← hget]
      exact hnodup.idxOf_getElem r hlt

theorem IndexesAgree.readsAgree {ks : Keyspace F} (h : ks.IndexesAgree) (key : Bytes) :
    ks.ReadsAgree key := by
  have hset := h.setAt key
  refine ⟨_, listing_ordered hset, fun clock clock' hc hc' => ⟨?_, ?_, fun member r hr => ?_,
    fun member => ?_⟩⟩
  · change (checked (ks.wrongSortedSetType (clock 0) key) fun ks =>
      (zrangeReply key 0 (-1) false ks, ks)).1 = _
    rw [checked_of_admitted hc, wrongSortedSetType_snd, zrangeReply_evict, SortedSet.range_all]
  · change (checked (ks.wrongSortedSetType (clock 0) key) fun ks => (zcardReply key ks, ks)).1 = _
    rw [checked_of_admitted hc, wrongSortedSetType_snd, (listing_ordered hset).length]
    simp [zcardReply, Keyspace.setAt]
  · have hrank : (execute clock [ascii "ZRANK", key, member] ks).1 =
        zrankReply key member (ks.evict (clock 0) key) := by
      change (checked (ks.wrongSortedSetType (clock 0) key) fun ks =>
        (zrankReply key member ks, ks)).1 = _
      rw [checked_of_admitted hc, wrongSortedSetType_snd]
    have hrange : (execute clock' [ascii "ZRANGE", key, decimal r, decimal r] ks).1 =
        zrangeReply key r r false (ks.evict (clock' 0) key) := by
      change (zrange clock' key (decimal r) (decimal r) false ks).1 = _
      simp only [zrange, fromCharsI64_decimal hr]
      rw [checked_of_admitted hc', wrongSortedSetType_snd]
    rw [hrank, hrange, zrankReply_evict, zrangeReply_evict, SortedSet.range_single,
      array_toBytes_eq_singleton (by simp), ← rank_iff_shown hset]
    rcases (ks.setAt key).scores[member]? with _ | score
    · simp [(integer_toBytes_ne_null r).symm]
    · simp only [Option.some_inj, exists_eq_left']
      exact ⟨fun he => integer_toBytes_inj he, fun he => by rw [he]⟩
  · have hrank : (execute clock [ascii "ZRANK", key, member] ks).1 =
        zrankReply key member (ks.evict (clock 0) key) := by
      change (checked (ks.wrongSortedSetType (clock 0) key) fun ks =>
        (zrankReply key member ks, ks)).1 = _
      rw [checked_of_admitted hc, wrongSortedSetType_snd]
    have hscore : (execute clock' [ascii "ZSCORE", key, member] ks).1 =
        zscoreReply key member (ks.evict (clock' 0) key) := by
      change (checked (ks.wrongSortedSetType (clock' 0) key) fun ks =>
        (zscoreReply key member ks, ks)).1 = _
      rw [checked_of_admitted hc', wrongSortedSetType_snd]
    rw [hrank, hscore, zrankReply_evict, zscoreReply_evict]
    rcases (ks.setAt key).scores[member]? with _ | score
    · exact ⟨fun _ => rfl, fun _ => rfl⟩
    · exact ⟨fun he => absurd he (integer_toBytes_ne_null _),
        fun he => absurd he (bulkString_toBytes_ne_null _)⟩

end Keyspace

/-- In every state that a server can reach, the two indexes of each sorted set agree, and so do
the commands that read them. -/
theorem sortedSets_agree_run (config : Config) (replid : ReplId) (link : Option (ℤ × ℤ))
    (events : List (Env × Server.Event)) :
    (Server.run events (Server.boot config replid link : Server F)).store.IndexesAgree ∧
      ∀ key, (Server.run events (Server.boot config replid link : Server F)).store.ReadsAgree key :=
  have h := Keyspace.indexesAgree_of_chain (Server.chain_run config replid link events)
  ⟨h, h.readsAgree⟩

end TrueStore
