import TrueStore.Invariants.StreamLog

/-! # The texts and the keys of stream IDs

The readers of IDs accept two numerals with a dash between them, and those for the bounds of a
range a few texts more. What `XADD` and `XRANGE` show of an entry leads back to it. The keys of the
tree stand for the IDs one to one, in the same order.
-/

namespace TrueStore

open BigEndian

structure IsNumeral (text : Bytes) (n : UInt64) : Prop where
  nonempty : text ≠ []
  digits : ∀ b ∈ text, isDigit b = true
  value : digitsValue text = n.toNat

theorem IsNumeral.not_mem {text : Bytes} {n : UInt64} (h : IsNumeral text n) {b : UInt8}
    (hb : isDigit b = false) : b ∉ text := fun hm => by
  rw [h.digits b hm] at hb
  cases hb

theorem fromCharsU64_eq_some {text : Bytes} {n : UInt64} :
    fromCharsU64 text = some n ↔ IsNumeral text n := by
  unfold fromCharsU64
  constructor
  · intro h
    split at h
    · rename_i hcond
      obtain ⟨hne, hall, hlt⟩ := hcond
      cases h
      refine ⟨hne, List.all_eq_true.mp hall, ?_⟩
      rw [UInt64.toNat_ofNat']
      exact (Nat.mod_eq_of_lt hlt).symm
    · cases h
  · rintro ⟨hne, hdigits, hvalue⟩
    rw [if_pos ⟨hne, List.all_eq_true.mpr hdigits, by rw [hvalue]; exact n.toNat_lt⟩, hvalue,
      UInt64.ofNat_toNat]

theorem StreamID.splitDash_eq_some {text ms seq : Bytes} (h : splitDash text = some (ms, seq)) :
    text = ms ++ 45 :: seq := by
  obtain ⟨dash, hdash, he⟩ := Option.map_eq_some_iff.mp h
  cases he
  obtain ⟨hlt, hget, -⟩ := List.idxOf?_eq_some_iff.mp hdash
  rw [← hget, List.cons_getElem_drop_succ, List.take_append_drop]

/-- The text of an ID: two numerals with a dash between them. -/
def IsId (text : Bytes) (id : StreamID) : Prop :=
  ∃ ms seq, text = ms ++ 45 :: seq ∧ IsNumeral ms id.milliseconds ∧ IsNumeral seq id.sequence

def IsBare (sequence : UInt64) (text : Bytes) (id : StreamID) : Prop :=
  IsNumeral text id.milliseconds ∧ id.sequence = sequence

theorem parse_eq_some {text : Bytes} {id : StreamID} :
    StreamID.parse text = some id ↔ IsId text id := by
  constructor
  · intro h
    unfold StreamID.parse at h
    split at h
    · cases h
    · rename_i ms seq hsplit
      split at h
      · cases h
      · split at h
        · rename_i hms hseq
          cases h
          exact ⟨ms, seq, StreamID.splitDash_eq_some hsplit, fromCharsU64_eq_some.mp hms,
            fromCharsU64_eq_some.mp hseq⟩
        · cases h
  · rintro ⟨ms, seq, rfl, hms, hseq⟩
    have hsplit : StreamID.splitDash (ms ++ 45 :: seq) = some (ms, seq) := by
      rw [StreamID.splitDash, idxOf?_append (hms.not_mem (by decide))]
      simp
    have hno : ¬(ms = [] ∨ seq = [] ∨ 45 ∈ seq) := by
      rintro (h | h | h)
      · exact hms.nonempty h
      · exact hseq.nonempty h
      · exact hseq.not_mem (by decide) h
    simp only [StreamID.parse, hsplit, if_neg hno, fromCharsU64_eq_some.mpr hms,
      fromCharsU64_eq_some.mpr hseq]

theorem parseRangeBound_eq_some {text : Bytes} {sequence : UInt64} {id : StreamID} :
    parseRangeBound text sequence = some id ↔ IsId text id ∨ IsBare sequence text id := by
  unfold parseRangeBound
  by_cases hnil : text = []
  · rw [if_pos hnil]
    refine ⟨fun h => absurd h (by simp), ?_⟩
    rintro (⟨ms, seq, rfl, -⟩ | ⟨h, -⟩)
    · simp at hnil
    · exact absurd hnil h.nonempty
  rw [if_neg hnil]
  by_cases hdash : 45 ∈ text
  · rw [if_pos hdash, parse_eq_some]
    refine ⟨.inl, ?_⟩
    rintro (h | ⟨h, -⟩)
    · exact h
    · exact absurd hdash (h.not_mem (by decide))
  · rw [if_neg hdash, Option.map_eq_some_iff]
    constructor
    · rintro ⟨ms, hms, rfl⟩
      exact .inr ⟨fromCharsU64_eq_some.mp hms, rfl⟩
    · rintro (⟨ms, seq, rfl, -⟩ | ⟨h, rfl⟩)
      · simp at hdash
      · exact ⟨_, fromCharsU64_eq_some.mpr h, rfl⟩

theorem eq_some_of_special {special text : Bytes} {first id : StreamID} {r : Option StreamID}
    {A : Prop} (hr : r = some id ↔ A) (hspecial : text = special → ¬A) :
    (if text = special then some first else r) = some id ↔ A ∨ text = special ∧ id = first := by
  by_cases ht : text = special
  · rw [if_pos ht, Option.some_inj]
    exact ⟨fun h => .inr ⟨ht, h.symm⟩, fun h => (h.resolve_left (hspecial ht)).2.symm⟩
  · rw [if_neg ht, hr]
    exact ⟨.inl, fun h => h.resolve_right fun hs => ht hs.1⟩

theorem not_bound_sign {b : UInt8} (hb : isDigit b = false) {sequence : UInt64} {id : StreamID} :
    ¬(IsId [b] id ∨ IsBare sequence [b] id) := by
  rintro (⟨ms, seq, he, hms, hseq⟩ | ⟨h, -⟩)
  · have hlen := congrArg List.length he
    have h₁ := List.length_pos_of_ne_nil hms.nonempty
    simp at hlen
    omega
  · exact h.not_mem hb List.mem_cons_self

theorem parseRangeStart_eq_some {text : Bytes} {id : StreamID} :
    parseRangeStart text = some id ↔
      (IsId text id ∨ IsBare 0 text id) ∨ text = [45] ∧ id = ⟨0, 0⟩ :=
  eq_some_of_special parseRangeBound_eq_some fun he => he ▸ not_bound_sign (by decide)

theorem parseRangeEnd_eq_some {text : Bytes} {id : StreamID} :
    parseRangeEnd text = some id ↔
      (IsId text id ∨ IsBare maxU64 text id) ∨ text = [43] ∧ id = ⟨maxU64, maxU64⟩ :=
  eq_some_of_special parseRangeBound_eq_some fun he => he ▸ not_bound_sign (by decide)

section Entries

variable {log : List (StreamID × StreamEntryData)} {e : StreamID × StreamEntryData}

theorem filter_self (h : log.Pairwise fun a b => a.1.lt b.1 = true) (he : e ∈ log) :
    (log.filter fun x => !x.1.lt e.1 && !e.1.lt x.1) = [e] := by
  have hself : (!e.1.lt e.1 && !e.1.lt e.1) = true := by simp [StreamID.lt_irrefl]
  obtain ⟨before, rest, rfl⟩ := List.append_of_mem he
  rw [List.pairwise_append, List.pairwise_cons] at h
  obtain ⟨-, ⟨hrest, -⟩, hbefore⟩ := h
  have hnone : (before.filter fun x => !x.1.lt e.1 && !e.1.lt x.1) = [] :=
    List.filter_eq_nil_iff.mpr fun x hx => by simp [hbefore x hx e List.mem_cons_self]
  have hnone' : (rest.filter fun x => !x.1.lt e.1 && !e.1.lt x.1) = [] :=
    List.filter_eq_nil_iff.mpr fun x hx => by simp [hrest x hx]
  rw [List.filter_append, List.filter_cons, if_pos hself, hnone, hnone', List.nil_append]

end Entries

namespace Keyspace

variable {F : Type} [Platform F]

/-- The text of an ID, as both bounds of an `XRANGE`, leads to its entry. -/
theorem handleXrange_self {ks : Keyspace F} {key : Bytes} {log : List (StreamID × StreamEntryData)}
    (h : (ks.streamAt key).Holds log) {e : StreamID × StreamEntryData} (he : e ∈ log)
    (name : Bytes) :
    ks.handleXrange [name, key, e.1.toString, e.1.toString] =
      ((entriesToResp [showEntry e]).toBytes, ks) := by
  have hid : IsId e.1.toString e.1 := parse_eq_some.mp (StreamID.parse_toString e.1)
  rw [handleXrange_eq h name (parseRangeStart_eq_some.mpr (.inl (.inl hid)))
    (parseRangeEnd_eq_some.mpr (.inl (.inl hid))) (.inl ⟨rfl, rfl⟩), filter_self h.increasing he]
  rfl

/-- The readers of IDs accept exactly the texts of IDs, of numbers and of the two extreme bounds,
and what `XADD` and `XRANGE` reply leads back to the entry. -/
theorem id_texts_exact :
    (∀ text id, StreamID.parse text = some id ↔ IsId text id) ∧
    (∀ text id, parseRangeStart text = some id ↔
      (IsId text id ∨ IsBare 0 text id) ∨ text = ascii "-" ∧ id = ⟨0, 0⟩) ∧
    (∀ text id, parseRangeEnd text = some id ↔
      (IsId text id ∨ IsBare maxU64 text id) ∨ text = ascii "+" ∧ id = ⟨maxU64, maxU64⟩) ∧
    (∀ text id, parseReadId text = some id ↔ IsId text id ∨ IsBare 0 text id) ∧
    (∀ id, StreamID.parse id.toString = some id) ∧
    (∀ (calls : List (Call F)) (ks : Keyspace F), Chain {} calls ks → ∀ key name : Bytes,
      (∀ a e, accepted key a ks = some e →
        (xadd key a ks).1 = (RespType.bulkString e.1.toString).toBytes ∧
        ((xadd key a ks).2.handleXrange [name, key, e.1.toString, e.1.toString]).1 =
          (entriesToResp [showEntry e]).toBytes) ∧
      ∀ first last start endId more count, parseRangeStart first = some start →
        parseRangeEnd last = some endId → IsCount more count →
        ∃ entries : List (StreamID × StreamEntryData),
          (ks.handleXrange (name :: key :: first :: last :: more)).1 =
            (entriesToResp (entries.map showEntry)).toBytes ∧
          ∀ e ∈ entries, (ks.handleXrange [name, key, e.1.toString, e.1.toString]).1 =
            (entriesToResp [showEntry e]).toBytes) := by
  refine ⟨fun _ _ => parse_eq_some, fun _ _ => parseRangeStart_eq_some,
    fun _ _ => parseRangeEnd_eq_some, fun _ _ => parseRangeBound_eq_some, StreamID.parse_toString,
    fun calls ks hchain key name => ?_⟩
  obtain ⟨log, hlog⟩ := streamsHold_of_chain hchain key
  constructor
  · intro a e ha
    have hadded := holds_xadd a hlog
    rw [ha] at hadded
    refine ⟨(xadd_of_accepted ha).1, ?_⟩
    rw [handleXrange_self hadded (List.mem_append_right _ List.mem_cons_self) name]
  · intro first last start endId more count hfirst hlast hcount
    refine ⟨_, congrArg Prod.fst (handleXrange_eq hlog name hfirst hlast hcount), fun e he => ?_⟩
    have hmem : e ∈ log := by
      unfold cut at he
      split at he
      · exact List.mem_of_mem_filter he
      · exact List.mem_of_mem_filter (List.mem_of_mem_take he)
    rw [handleXrange_self hlog hmem name]

end Keyspace

theorem toNat_readU64Be {source : Bytes} (h : source.length = 8) :
    (readU64Be source).toNat = value source := by
  have hlt : value source < 2 ^ 64 := by
    have := value_lt source
    rwa [h] at this
  rw [readU64Be, toNat_foldl_read _ _ (by simpa using hlt)]
  simp

theorem encodeId_decodeId {key : Bytes} (h : key.length = 16) : encodeId (decodeId key) = key := by
  have hlen : (encodeId (decodeId key)).length = key.length := by
    simp [encodeId, length_writeU64Be, h]
  have hsplit : value key = value (key.take 8) * 2 ^ 64 + value (key.drop 8) := by
    rw [← List.take_append_drop 8 key, value_append]
    simp [h]
  have hvalue : value (encodeId (decodeId key)) = value key := by
    rw [value_encodeId, hsplit, StreamID.rank, decodeId, toNat_readU64Be (by simp [h]),
      toNat_readU64Be (by simp [h])]
  have hcompare := compare_eq hlen
  rw [hvalue, Nat.compare_eq_eq.mpr rfl] at hcompare
  exact Std.compare_eq_iff_eq.mp hcompare

theorem advanceId_eq_none {id : StreamID} : advanceId id = none ↔ id = ⟨maxU64, maxU64⟩ := by
  constructor
  · intro h
    unfold advanceId at h
    split at h
    · cases h
    · rename_i hs
      split at h
      · rename_i hm
        cases id
        simp_all
      · cases h
  · rintro rfl
    decide

/-- The keys of the tree are the IDs in another notation, in the same order, and an exclusive read
starts at the next ID. -/
theorem keys_embed_ids :
    (∀ id, decodeId (encodeId id) = id) ∧
    (∀ key : Bytes, key.length = 16 → encodeId (decodeId key) = key) ∧
    (∀ id, (encodeId id).length = 16) ∧
    (∀ a b, encodeId a < encodeId b ↔ a.lt b = true) ∧
    (∀ id next, advanceId id = some next →
      id.lt next = true ∧ ∀ other, id.lt other = true → other.lt next = false) ∧
    (∀ id, advanceId id = none ↔ id = ⟨maxU64, maxU64⟩) := by
  refine ⟨decodeId_encodeId, fun _ => encodeId_decodeId, fun id => ?_, fun _ _ => encodeId_lt,
    fun id next hn => ?_, fun _ => advanceId_eq_none⟩
  · simp [encodeId, length_writeU64Be]
  · have hrank := Stream.rank_advanceId hn
    refine ⟨StreamID.lt_iff_rank.mpr (by omega), fun other hlt => ?_⟩
    rw [← Bool.not_eq_true, StreamID.lt_iff_rank]
    rw [StreamID.lt_iff_rank] at hlt
    omega

end TrueStore
