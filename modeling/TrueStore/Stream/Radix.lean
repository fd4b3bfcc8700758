import TrueStore.Radix.Iterate
import TrueStore.Stream.Log

/-! # Streams in a radix tree

A stream with its radix tree as the source has it. It gives the same answers as the ordered map by
which streams are modelled, whatever was inserted before.
-/

namespace TrueStore

/-- `Stream`: the tree of the payloads, and the largest ID. -/
structure RadixStream where
  tree : Rax.Tree StreamEntryData := {}
  maxId : Option StreamID := none

namespace RadixStream

/-- `resolve_id` only reads the largest ID. -/
def resolveId (s : RadixStream) (now : UInt64) (idText : Bytes) : Except StreamAddError StreamID :=
  Stream.resolveId { maxId := s.maxId } now idText

/-- `Stream::insert`. -/
def insert (s : RadixStream) (now : UInt64) (idText : Bytes) (data : StreamEntryData) :
    Except StreamAddError StreamID × RadixStream :=
  match s.resolveId now idText with
  | .error e => (.error e, s)
  | .ok id =>
    match Rax.tryInsert (encodeId id) (some data) s.tree with
    | (false, _, tree) => (.error .notGreater, { s with tree })
    | (true, _, tree) => (.ok id, { tree, maxId := some id })

/-- `Stream::last_id`. -/
def lastId (s : RadixStream) : Option StreamID := s.maxId

/-- `Stream::find`, where a payload may also be null. -/
def find (s : RadixStream) (idText : Bytes) : Option StreamEntryData :=
  match StreamID.parse idText with
  | none => none
  | some id => (Rax.find (encodeId id) s.tree).join

/-- The loop of `get_range`: nothing if the fuel runs out, and no results if a key does not have 16
bytes, where the source throws. -/
def collect (fuel : ℕ) (endId : StreamID) (count : ℕ) :
    ℕ → Rax.Iterator StreamEntryData → List (Bytes × StreamEntryData) →
      Option (Option (List (Bytes × StreamEntryData)))
  | 0, _, _ => none
  | rounds + 1, it, results =>
    (Rax.next fuel it).bind fun (more, it) =>
      if !more then some (some results)
      else if it.key.length ≠ 16 then some none
      else
        let id := decodeId it.key
        if endId.lt id then some (some results)
        else
          let results := match it.data with
            | some payload => results ++ [(id.toString, payload)]
            | none => results
          if count ≠ 0 ∧ count ≤ results.length then some (some results)
          else collect fuel endId count rounds it results

/-- `Stream::get_range`. A step in a tree of 16-byte keys takes at most 17 rounds. -/
def getRange (s : RadixStream) (start endId : StreamID) (count : ℕ) :
    Option (Option (List (Bytes × StreamEntryData))) :=
  if endId.lt start then some (some [])
  else
    (Rax.seek 18 (encodeId start) s.tree).bind fun it =>
      collect 18 endId count (s.tree.numele + 1) it []

/-- The destructor: the payloads that are deleted, and the number of nodes that
`raxFreeWithCallback` asserts to be zero in the end. -/
def destroy (s : RadixStream) : List StreamEntryData × ℤ :=
  let r := Rax.recursiveFree s.tree.head
  (r.1, (s.tree.numnodes : ℤ) - r.2)

def leafEntry (e : StreamID × StreamEntryData) : Bytes × Option StreamEntryData :=
  (encodeId e.1, some e.2)

/-- A radix stream and an ordered map that hold the same log. -/
structure Refines (s : RadixStream) (s' : Stream) (log : List (StreamID × StreamEntryData)) :
    Prop where
  sound : s.tree.Sound
  entries : s.tree.head.entries = log.map leafEntry
  maxId : s.maxId = s'.maxId
  holds : s'.Holds log

theorem refines_empty : Refines {} {} [] :=
  ⟨Rax.Tree.sound_empty, by simp [Rax.Node.leaf], rfl, Stream.holds_empty⟩

theorem resolveId_congr {s s' : Stream} (h : s.maxId = s'.maxId) (now : UInt64) (idText : Bytes) :
    s.resolveId now idText = s'.resolveId now idText := by
  simp only [Stream.resolveId, Stream.nextSequence, h]

namespace Refines

variable {s : RadixStream} {s' : Stream} {log : List (StreamID × StreamEntryData)}

theorem mem_entries (h : Refines s s' log) {key : Bytes} {d : Option StreamEntryData} :
    (key, d) ∈ s.tree.head.entries ↔ ∃ data, d = some data ∧ (key, data) ∈ s'.tree.toList := by
  rw [h.entries, h.holds.tree, List.mem_map]
  constructor
  · rintro ⟨e, he, heq⟩
    obtain ⟨rfl, rfl⟩ := Prod.mk.inj heq
    exact ⟨e.2, rfl, List.mem_map.mpr ⟨e, he, rfl⟩⟩
  · rintro ⟨data, rfl, hmem⟩
    obtain ⟨e, he, heq⟩ := List.mem_map.mp hmem
    obtain ⟨rfl, rfl⟩ := Prod.mk.inj heq
    exact ⟨e, he, rfl⟩

theorem find_eq (h : Refines s s' log) (key : Bytes) :
    Rax.find key s.tree = s'.tree[key]?.map some := by
  ext d
  rw [h.sound.find_eq_some, h.mem_entries, Option.map_eq_some_iff]
  simp only [Std.ExtTreeMap.mem_toList_iff_getElem?_eq_some, and_comm, eq_comm]

theorem insert (h : Refines s s' log) (now : UInt64) (idText : Bytes) (data : StreamEntryData) :
    match s'.insert now idText data with
    | .error e => s.insert now idText data = (.error e, s)
    | .ok (id, next) => ∃ t, s.insert now idText data = (.ok id, t) ∧
        Refines t next (log ++ [(id, data)]) := by
  have hresolve : s.resolveId now idText = s'.resolveId now idText :=
    resolveId_congr h.maxId now idText
  cases hr : s'.resolveId now idText with
  | error e => simp [Stream.insert, RadixStream.insert, hresolve, hr]
  | ok id =>
    have hnot := h.holds.not_contains hr
    have hnew : s'.insert now idText data =
        .ok (id, { tree := s'.tree.insert (encodeId id) data, maxId := some id }) := by
      simp [Stream.insert, hr, hnot]
    have hnone : Rax.find (encodeId id) s.tree = none := by
      rw [h.find_eq, Std.ExtTreeMap.getElem?_eq_none_of_contains_eq_false hnot]
      rfl
    obtain ⟨t, hins, hsound, l₁, l₂, hold, hadd⟩ :=
      h.sound.genericInsert_new hnone false (some data)
    rw [hnew]
    refine ⟨{ tree := t, maxId := some id }, ?_, hsound, ?_, rfl, h.holds.insert hnew⟩
    · simp [RadixStream.insert, hresolve, hr, Rax.tryInsert, hins]
    · have hlast : l₂ = [] := by
        apply List.eq_nil_iff_forall_not_mem.mpr
        intro e he
        have hafter : encodeId id < e.1 := by
          have hinc := hsound.wf.increasing
          rw [hadd] at hinc
          exact (List.pairwise_cons.mp (List.pairwise_append.mp hinc).2.1).1 e he
        have hmem : e ∈ log.map leafEntry := by
          rw [← h.entries, hold]
          exact List.mem_append_right _ he
        obtain ⟨e', he', rfl⟩ := List.mem_map.mp hmem
        obtain ⟨m, hm, hle⟩ := h.holds.le_maxId he'
        have hbefore := StreamID.lt_iff_rank.mp (Stream.lt_of_resolveId hr hm)
        have := StreamID.lt_iff_rank.mp (encodeId_lt.mp hafter)
        omega
      rw [hlast, List.append_nil] at hold
      rw [hadd, hlast, ← hold, h.entries, List.map_append]
      rfl

theorem length_key (h : Refines s s' log) : ∀ e ∈ s.tree.head.entries, e.1.length ≤ 16 := by
  intro e he
  rw [h.entries] at he
  obtain ⟨e', -, rfl⟩ := List.mem_map.mp he
  simp [leafEntry, encodeId, length_writeU64Be]

/-- The loop over the iterator collects what the loop over the list of entries does. -/
theorem collect_eq (h : Refines s s' log) (endId : StreamID) (count rounds : ℕ)
    {it : Rax.Iterator StreamEntryData} (hv : it.Valid s.tree.head)
    {pending : List (StreamID × StreamEntryData)} (hp : it.pending = pending.map leafEntry)
    (hrounds : pending.length < rounds) (results : List (Bytes × StreamEntryData)) :
    collect 18 endId count rounds it results =
      some (some (results ++
        Stream.collectRange endId count (pending.map encodeEntry) results.length)) := by
  induction rounds generalizing it pending results with
  | zero => omega
  | succ rounds ih =>
    obtain ⟨it', hv', htail, hnext⟩ :=
      Rax.Iterator.exists_next h.sound.wf h.length_key (by omega : 16 + 1 < 18) hv
    rw [hp] at htail hnext
    rcases hnext with ⟨hnil, hnext⟩ | ⟨hnext, hhead⟩
    · obtain rfl := List.map_eq_nil_iff.mp hnil
      simp [collect, hnext, Stream.collectRange]
    · cases pending with
      | nil => cases hhead
      | cons e pending =>
        obtain ⟨hkey, hdata⟩ := Prod.mk.inj (Option.some.inj hhead)
        have hlen : it'.key.length = 16 := by
          rw [← hkey]
          simp [encodeId, length_writeU64Be]
        have hid : decodeId it'.key = e.1 := by rw [← hkey, decodeId_encodeId]
        simp only [collect, hnext, Option.bind_some, Bool.not_true, Bool.false_eq_true, if_false,
          hlen, ne_eq, not_true_eq_false, hid, ← hdata, List.map_cons, encodeEntry,
          Stream.collectRange, decodeId_encodeId]
        cases hend : endId.lt e.1 with
        | true => simp
        | false =>
          simp only [Bool.false_eq_true, if_false, List.length_append, List.length_singleton]
          split
          · rfl
          · rw [ih hv' htail (by simpa using hrounds)]
            simp

theorem getRange (h : Refines s s' log) (start endId : StreamID) (count : ℕ) :
    s.getRange start endId count = some (some (s'.getRange start endId count)) := by
  rw [RadixStream.getRange, Stream.getRange]
  split
  · rfl
  · obtain ⟨it, hseek, hv, hpending⟩ :=
      Rax.exists_seek h.sound h.length_key (by omega : 16 + 1 < 18) (encodeId start)
    have hfrom : it.pending = (log.filter fun e => !e.1.lt start).map leafEntry := by
      rw [hpending, h.entries, Rax.fromKey, List.filter_map]
      congr 2
      funext e
      simp [leafEntry, encodeId_lt]
    have hless : (fun e : Bytes × StreamEntryData => (compare e.1 (encodeId start)).isLT) ∘
        encodeEntry = fun e => e.1.lt start := by
      funext e
      rw [Function.comp_apply, encodeEntry, compare_encodeId, Bool.eq_iff_iff,
        StreamID.lt_iff_rank, Ordering.isLT_iff_eq_lt, Nat.compare_eq_lt]
    have hdrop : (s'.tree.toList.dropWhile fun e => (compare e.1 (encodeId start)).isLT) =
        (log.filter fun e => !e.1.lt start).map encodeEntry := by
      rw [h.holds.tree, List.dropWhile_map, hless, Sorted.dropWhile_eq_filter h.holds.increasing]
      intro a b hab hb
      rw [StreamID.lt_iff_rank] at hab hb ⊢
      omega
    have hrounds : (log.filter fun e => !e.1.lt start).length < s.tree.numele + 1 := by
      have hle := List.length_filter_le (fun e => !e.1.lt start) log
      rw [h.sound.numele, h.entries, List.length_map]
      omega
    rw [hseek, Option.bind_some, hdrop, h.collect_eq endId count _ hv hfrom hrounds [],
      List.nil_append, List.length_nil]

theorem destroy (h : Refines s s' log) :
    s.destroy.1.Perm s'.tree.values ∧ s.destroy.2 = 0 := by
  obtain ⟨hfreed, hcount⟩ := h.sound.wf.recursiveFree
  constructor
  · have hdata : s.tree.head.entries.filterMap (·.2) = s'.tree.values := by
      rw [Sorted.values_eq_map, h.entries, h.holds.tree, List.filterMap_map, List.map_map]
      change log.filterMap (some ∘ Prod.snd) = log.map Prod.snd
      rw [List.filterMap_eq_map]
    rwa [hdata] at hfreed
  · rw [RadixStream.destroy, hcount, h.sound.numnodes, Int.sub_self]

end Refines

/-- A call to `insert`: the time, the text of the ID and the payload. -/
abbrev Call := UInt64 × Bytes × StreamEntryData

def insertAll : List Call → RadixStream → List (Except StreamAddError StreamID) × RadixStream
  | [], s => ([], s)
  | (now, idText, data) :: calls, s =>
    let r := s.insert now idText data
    let final := insertAll calls r.2
    (r.1 :: final.1, final.2)

def insertAllMap : List Call → Stream → List (Except StreamAddError StreamID) × Stream
  | [], s => ([], s)
  | (now, idText, data) :: calls, s =>
    match s.insert now idText data with
    | .error e =>
      let final := insertAllMap calls s
      (.error e :: final.1, final.2)
    | .ok (id, s) =>
      let final := insertAllMap calls s
      (.ok id :: final.1, final.2)

theorem Refines.insertAll {s : RadixStream} {s' : Stream}
    {log : List (StreamID × StreamEntryData)} (h : Refines s s' log) (calls : List Call) :
    (RadixStream.insertAll calls s).1 = (insertAllMap calls s').1 ∧
      ∃ log', Refines (RadixStream.insertAll calls s).2 (insertAllMap calls s').2 log' := by
  induction calls generalizing s s' log with
  | nil => exact ⟨rfl, log, h⟩
  | cons call calls ih =>
    obtain ⟨now, idText, data⟩ := call
    have hstep := h.insert now idText data
    rw [RadixStream.insertAll, insertAllMap]
    cases hi : s'.insert now idText data with
    | error e =>
      rw [hi] at hstep
      obtain ⟨hreplies, hlog⟩ := ih h
      simp only [hstep]
      exact ⟨by rw [hreplies], hlog⟩
    | ok r =>
      rw [hi] at hstep
      obtain ⟨t, hins, hnext⟩ := hstep
      obtain ⟨hreplies, hlog⟩ := ih hnext
      simp only [hins]
      exact ⟨by rw [hreplies], hlog⟩

/-- After any insertions the radix tree gives the answers of the ordered map by which streams are
modelled: to the insertions themselves, to searches, and to ranges, which never run into a key of a
wrong length. The destructor deletes each payload once and leaves no node. -/
theorem radix_exact (calls : List Call) :
    let r := RadixStream.insertAll calls {}
    let m := insertAllMap calls {}
    r.1 = m.1 ∧ r.2.lastId = m.2.maxId ∧
      (∀ idText, r.2.find idText =
        (StreamID.parse idText).bind fun id => m.2.tree[encodeId id]?) ∧
      (∀ start endId count,
        r.2.getRange start endId count = some (some (m.2.getRange start endId count))) ∧
      r.2.destroy.1.Perm m.2.tree.values ∧ r.2.destroy.2 = 0 := by
  intro r m
  obtain ⟨hreplies, log, h⟩ := refines_empty.insertAll calls
  refine ⟨hreplies, h.maxId, ?_, h.getRange, h.destroy⟩
  intro idText
  rw [find]
  cases StreamID.parse idText with
  | none => rfl
  | some id =>
    have hfind := h.find_eq (encodeId id)
    simp only [Option.bind_some, r, hfind, m]
    cases (insertAllMap calls {}).2.tree[encodeId id]? with
    | none => rfl
    | some data => rfl

end RadixStream

end TrueStore
