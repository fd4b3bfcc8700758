import TrueStore.Command.Calls
import TrueStore.Stream.Log

/-! # `XADD` and `XRANGE` on one stream

However the IDs of entries are given and whatever the clock says, the accepted entries of a key
form a log in the order in which they came, and `XRANGE` reads the part of it that it is asked
for.
-/

namespace TrueStore.Keyspace

open RespType

variable {F : Type} [Platform F]

/-- An `XADD` on some key: the clock readings, the name as it was sent and what follows the key. -/
structure Addition where
  clock : Readings
  name : Bytes
  rest : List Bytes

def xadd (key : Bytes) (a : Addition) (ks : Keyspace F) : Bytes × Keyspace F :=
  ks.handleXadd a.clock (a.name :: key :: a.rest)

def xaddAll (key : Bytes) (as : List Addition) (ks : Keyspace F) : Keyspace F :=
  as.foldl (fun ks a => (xadd key a ks).2) ks

/-- The ID and the fields of an `XADD` that is accepted. -/
def accepted (key : Bytes) (a : Addition) (ks : Keyspace F) : Option (StreamID × StreamEntryData) :=
  match a.rest with
  | [] => none
  | id :: fields =>
    if fields.length < 2 ∨ fields.length % 2 ≠ 0 then none
    else match (ks.streamAt key).insert (a.clock 0).unixMs id (fieldPairs fields) with
      | .ok (assigned, _) => some (assigned, fieldPairs fields)
      | .error _ => none

def acceptedAll (key : Bytes) : List Addition → Keyspace F → List (StreamID × StreamEntryData)
  | [], _ => []
  | a :: as, ks => (accepted key a ks).toList ++ acceptedAll key as (xadd key a ks).2

theorem xadd_of_rejected {key : Bytes} {a : Addition} {ks : Keyspace F}
    (h : accepted key a ks = none) : isError (xadd key a ks).1 = true ∧ (xadd key a ks).2 = ks := by
  unfold accepted at h
  unfold xadd
  split at h
  · rename_i hrest
    rw [hrest]
    exact ⟨rfl, rfl⟩
  · rename_i id fields hrest
    rw [hrest]
    split at h
    · rename_i hf
      rw [handleXadd, if_pos hf]
      exact ⟨rfl, rfl⟩
    · rename_i hf
      split at h
      · cases h
      · rename_i hi
        rw [handleXadd_eq _ _ _ _ hf, hi]
        exact ⟨isError_streamAddError _, rfl⟩

theorem xadd_of_accepted {key : Bytes} {a : Addition} {ks : Keyspace F}
    {e : StreamID × StreamEntryData} (h : accepted key a ks = some e) :
    (xadd key a ks).1 = (bulkString e.1.toString).toBytes ∧
      ∃ id stream, (ks.streamAt key).insert (a.clock 0).unixMs id e.2 = .ok (e.1, stream) ∧
        (xadd key a ks).2 = { ks with streams := ks.streams.insert key stream } := by
  unfold accepted at h
  unfold xadd
  split at h
  · cases h
  · rename_i id fields hrest
    rw [hrest]
    split at h
    · cases h
    · rename_i hf
      split at h
      · rename_i assigned stream hi
        cases h
        rw [handleXadd_eq _ _ _ _ hf, hi]
        exact ⟨rfl, id, stream, hi, rfl⟩
      · cases h

theorem streamAt_insert (ks : Keyspace F) (key : Bytes) (stream : Stream) :
    { ks with streams := ks.streams.insert key stream }.streamAt key = stream := by
  simp [streamAt]

theorem holds_xadd {key : Bytes} (a : Addition) {ks : Keyspace F}
    {log : List (StreamID × StreamEntryData)} (h : (ks.streamAt key).Holds log) :
    ((xadd key a ks).2.streamAt key).Holds (log ++ (accepted key a ks).toList) := by
  rcases ha : accepted key a ks with _ | e
  · rw [(xadd_of_rejected ha).2]
    simpa using h
  · obtain ⟨-, id, stream, hi, hks⟩ := xadd_of_accepted ha
    rw [hks, streamAt_insert]
    exact h.insert hi

theorem holds_xaddAll {key : Bytes} (as : List Addition) {ks : Keyspace F}
    {log : List (StreamID × StreamEntryData)} (h : (ks.streamAt key).Holds log) :
    ((xaddAll key as ks).streamAt key).Holds (log ++ acceptedAll key as ks) := by
  induction as generalizing ks log with
  | nil => simpa [xaddAll, acceptedAll] using h
  | cons a as ih =>
    have := ih (holds_xadd a h)
    rwa [List.append_assoc] at this

/-- The `COUNT` of an `XRANGE`: nothing, or a positive number. -/
def IsCount (more : List Bytes) (count : ℕ) : Prop :=
  more = [] ∧ count = 0 ∨
    ∃ option text n, more = [option, text] ∧ toUpper option = ascii "COUNT" ∧
      stoll text = some n ∧ 0 < n ∧ count = n.toNat

theorem IsCount.rangeCount {more : List Bytes} {count : ℕ} (h : IsCount more count) :
    (more.length = 0 ∨ more.length = 2) ∧ rangeCount more = .ok count := by
  rcases h with ⟨rfl, rfl⟩ | ⟨option, text, n, rfl, ho, hn, hpos, rfl⟩
  · exact ⟨.inl rfl, rfl⟩
  · refine ⟨.inr rfl, ?_⟩
    simp [Keyspace.rangeCount, ho, hn, not_le.mpr hpos]

theorem handleXrange_eq {ks : Keyspace F} {key : Bytes} {log : List (StreamID × StreamEntryData)}
    (h : (ks.streamAt key).Holds log) (name : Bytes) {first last : Bytes} {start endId : StreamID}
    (hfirst : parseRangeStart first = some start) (hlast : parseRangeEnd last = some endId)
    {more : List Bytes} {count : ℕ} (hcount : IsCount more count) :
    ks.handleXrange (name :: key :: first :: last :: more) =
      ((entriesToResp ((cut count (log.filter fun e => !e.1.lt start && !endId.lt e.1)).map
        showEntry)).toBytes, ks) := by
  obtain ⟨hlen, hrange⟩ := hcount.rangeCount
  have harity : ¬(more.length ≠ 0 ∧ more.length ≠ 2) := by omega
  simp only [handleXrange, if_neg harity, hfirst, hlast, hrange]
  rw [← h.getRange_eq]
  unfold streamAt
  cases hs : ks.streams[key]? with
  | some stream => simp [Std.ExtTreeMap.getD_eq_getD_getElem?, hs]
  | none =>
    have hnil : ({} : Stream).getRange start endId count = [] := by
      rw [Stream.holds_empty.getRange_eq]
      simp [cut]
    simp [Std.ExtTreeMap.getD_eq_getD_getElem?, hs, hnil, entriesToResp, toBytes, nestedBytes]

/-- The accepted entries of a key form a strictly increasing log without the ID zero; a refused
`XADD` changes nothing; the insertion into the tree never fails; the last ID is that of the last
entry; and `XRANGE` reads the log between any two bounds. -/
theorem xadd_is_ordered_log (ks : Keyspace F) (key : Bytes) (hnew : ks.streams[key]? = none)
    (as : List Addition) :
    ((acceptedAll key as ks).Pairwise fun a b => a.1.lt b.1 = true) ∧
    (∀ e ∈ acceptedAll key as ks, e.1 ≠ ⟨0, 0⟩) ∧
    (∀ (n : ℕ) (a : Addition), as[n]? = some a →
      (accepted key a (xaddAll key (as.take n) ks) = none →
        isError (xadd key a (xaddAll key (as.take n) ks)).1 = true ∧
        (xadd key a (xaddAll key (as.take n) ks)).2 = xaddAll key (as.take n) ks) ∧
      ∀ e, accepted key a (xaddAll key (as.take n) ks) = some e →
        (xadd key a (xaddAll key (as.take n) ks)).1 = (bulkString e.1.toString).toBytes) ∧
    (∀ (now : UInt64) (idText : Bytes) (id : StreamID),
      ((xaddAll key as ks).streamAt key).resolveId now idText = .ok id →
      ((xaddAll key as ks).streamAt key).tree.contains (encodeId id) = false) ∧
    ((xaddAll key as ks).streamAt key).maxId = (acceptedAll key as ks).getLast?.map Prod.fst ∧
    (∀ (name first last : Bytes) (start endId : StreamID) (more : List Bytes) (count : ℕ),
      parseRangeStart first = some start → parseRangeEnd last = some endId → IsCount more count →
      (xaddAll key as ks).handleXrange (name :: key :: first :: last :: more) =
        ((entriesToResp ((cut count ((acceptedAll key as ks).filter
          fun e => !e.1.lt start && !endId.lt e.1)).map showEntry)).toBytes, xaddAll key as ks)) ∧
    (∀ ms : UInt64, parseRangeStart (decimal ms.toNat) = some ⟨ms, 0⟩ ∧
      parseRangeEnd (decimal ms.toNat) = some ⟨ms, maxU64⟩) := by
  have hempty : (ks.streamAt key).Holds [] := by
    have : ks.streamAt key = {} := by simp [streamAt, Std.ExtTreeMap.getD_eq_getD_getElem?, hnew]
    rw [this]
    exact Stream.holds_empty
  have h : ((xaddAll key as ks).streamAt key).Holds (acceptedAll key as ks) := by
    simpa using holds_xaddAll as hempty
  refine ⟨h.increasing, h.nonzero, fun n a _ => ⟨xadd_of_rejected, fun e he => ?_⟩,
    fun now idText id hr => h.not_contains hr, h.maxId, ?_, fun ms => ⟨?_, ?_⟩⟩
  · exact (xadd_of_accepted he).1
  · intro name first last start endId more count hfirst hlast hcount
    exact handleXrange_eq h name hfirst hlast hcount
  · have hdash : decimal ms.toNat ≠ [45] := fun he =>
      not_mem_decimal (n := ms.toNat) (b := 45) (by decide) (by simp [he])
    rw [parseRangeStart, if_neg hdash]
    exact parseRangeBound_decimal ms 0
  · have hplus : decimal ms.toNat ≠ [43] := fun he =>
      not_mem_decimal (n := ms.toNat) (b := 43) (by decide) (by simp [he])
    rw [parseRangeEnd, if_neg hplus]
    exact parseRangeBound_decimal ms maxU64

def backwards : List Addition :=
  [⟨fun _ => ⟨0, 7⟩, ascii "XADD", [ascii "*", ascii "f", ascii "a"]⟩,
    ⟨fun _ => ⟨0, 3⟩, ascii "XADD", [ascii "*", ascii "f", ascii "b"]⟩,
    ⟨fun _ => ⟨0, 3⟩, ascii "XADD", [ascii "5-*", ascii "f", ascii "c"]⟩]

theorem xadd_is_ordered_log_backwards :
    acceptedAll (ascii "s") backwards ({} : Keyspace Whole) =
      [(⟨7, 0⟩, [(ascii "f", ascii "a")]), (⟨7, 1⟩, [(ascii "f", ascii "b")])] ∧
    ((xaddAll (ascii "s") backwards ({} : Keyspace Whole)).handleXrange
      [ascii "XRANGE", ascii "s", ascii "-", ascii "+", ascii "COUNT", ascii "1"]).1 =
        (entriesToResp [showEntry (⟨7, 0⟩, [(ascii "f", ascii "a")])]).toBytes := by
  have hlog : acceptedAll (ascii "s") backwards ({} : Keyspace Whole) =
      [(⟨7, 0⟩, [(ascii "f", ascii "a")]), (⟨7, 1⟩, [(ascii "f", ascii "b")])] := by decide
  obtain ⟨-, -, -, -, -, hrange, -⟩ :=
    xadd_is_ordered_log ({} : Keyspace Whole) (ascii "s") (by decide) backwards
  refine ⟨hlog, ?_⟩
  rw [hrange (ascii "XRANGE") (ascii "-") (ascii "+") ⟨0, 0⟩ ⟨maxU64, maxU64⟩
    [ascii "COUNT", ascii "1"] 1 (by decide) (by decide)
    (.inr ⟨ascii "COUNT", ascii "1", 1, rfl, by decide, by decide, by decide, rfl⟩), hlog]
  decide

def StreamsHold (ks : Keyspace F) : Prop := ∀ key, ∃ log, (ks.streamAt key).Holds log

theorem streamsHold_of_streams {ks ks' : Keyspace F} (h : ks.StreamsHold)
    (hs : ∀ key, ks'.streamAt key = ks.streamAt key ∨ ∃ log, (ks'.streamAt key).Holds log) :
    ks'.StreamsHold := by
  intro key
  rcases hs key with he | he
  · rw [he]
    exact h key
  · exact he

theorem streamAt_erase (ks : Keyspace F) (key : Bytes) (other : Bytes) :
    (ks.streams.erase key).getD other {} = ks.streamAt other ∨
      (ks.streams.erase key).getD other {} = ({} : Stream) := by
  rw [Std.ExtTreeMap.getD_erase]
  split
  · exact .inr rfl
  · exact .inl rfl

theorem streamsHold_erase {ks ks' : Keyspace F} (h : ks.StreamsHold) {key : Bytes}
    (hs : ks'.streams = ks.streams.erase key) : ks'.StreamsHold := by
  refine streamsHold_of_streams h fun other => ?_
  rw [streamAt, hs]
  exact (streamAt_erase ks key other).imp_right fun he => ⟨[], by rw [he]; exact Stream.holds_empty⟩

theorem streamsHold_mutation {ks ks' : Keyspace F} (hm : Mutation ks ks') (h : ks.StreamsHold) :
    ks'.StreamsHold := by
  cases hm with
  | assignForever key value => exact streamsHold_erase h rfl
  | assignUntil key value t => exact streamsHold_erase h rfl
  | string key value => exact h
  | bits key result => exact streamsHold_erase h rfl
  | push key list => exact h
  | pop key list => exact h
  | stream key stream hi =>
    refine streamsHold_of_streams h fun other => ?_
    simp only [streamAt, Std.ExtTreeMap.getD_insert]
    split
    · obtain ⟨log, hlog⟩ := h key
      exact .inr ⟨_, hlog.insert hi⟩
    · exact .inl rfl
  | zset key set he => exact h
  | zrem key set he => exact h

theorem streamsHold_of_chain {calls : List (Call F)} {ks : Keyspace F} (h : Chain {} calls ks) :
    ks.StreamsHold := by
  refine h.preserves (fun ks clock key hks other => ?_) (fun _ _ => streamsHold_mutation)
    fun key => ⟨[], Stream.holds_empty⟩
  rw [streamAt, evict_streams]
  exact hks other

theorem readStream_eq {ks : Keyspace F} {key : Bytes} {log : List (StreamID × StreamEntryData)}
    (h : (ks.streamAt key).Holds log) (count : ℕ) (id : StreamID) :
    ks.readStream count key id =
      match Stream.after log id count with
      | [] => none
      | entries => some (nestedArray [bulkString key, entriesToResp (entries.map showEntry)]) := by
  unfold readStream
  rcases hs : ks.streams[key]? with _ | stream
  · have hlog : log = [] := by
      have hempty : ks.streamAt key = {} := by
        simp [streamAt, Std.ExtTreeMap.getD_eq_getD_getElem?, hs]
      have htree := h.tree
      rw [hempty] at htree
      exact List.map_eq_nil_iff.mp htree.symm
    subst hlog
    simp [Stream.after, cut]
  · have hat : ks.streamAt key = stream := by
      simp [streamAt, Std.ExtTreeMap.getD_eq_getD_getElem?, hs]
    rw [hat] at h
    rcases hn : advanceId id with _ | next
    · have hnil : Stream.after log id count = [] := by
        have : (log.filter fun e => id.lt e.1) = [] :=
          List.filter_eq_nil_iff.mpr fun e _ => by simp [Stream.lt_of_advanceId_none hn]
        simp [Stream.after, this, cut]
      rw [hnil]
    · dsimp only
      rw [h.getRange_advanceId hn]
      cases Stream.after log id count <;> rfl

end TrueStore.Keyspace
