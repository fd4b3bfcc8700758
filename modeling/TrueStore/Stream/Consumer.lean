import TrueStore.Command.Collections
import TrueStore.Invariants.StreamLog
import TrueStore.Stream.Replies

/-! # Reading a stream piece by piece

A consumer asks for the entries after the last one that it has. What it gets continues what it
has, however the stream has grown.
-/

namespace TrueStore

open RespType Keyspace

variable {F : Type} [Platform F]

def lastId (initial : StreamID) (entries : List (StreamID × StreamEntryData)) : StreamID :=
  (entries.getLast?.map Prod.fst).getD initial

namespace Stream

theorem filter_lastId {log got rest : List (StreamID × StreamEntryData)} {initial : StreamID}
    (hlog : log.Pairwise fun a b => a.1.lt b.1 = true)
    (h : got ++ rest = log.filter fun e => initial.lt e.1) :
    (log.filter fun e => (lastId initial got).lt e.1) = rest := by
  rcases List.eq_nil_or_concat got with rfl | ⟨init, e, rfl⟩
  · simpa [lastId] using h.symm
  · rw [List.concat_eq_append] at h ⊢
    have hlast : lastId initial (init ++ [e]) = e.1 := by simp [lastId]
    have hsorted : (init ++ [e] ++ rest).Pairwise fun a b => a.1.lt b.1 = true :=
      h ▸ hlog.filter _
    have he : initial.lt e.1 = true := by
      have hmem : e ∈ log.filter fun e => initial.lt e.1 := by
        rw [← h]
        simp
      simpa using (List.mem_filter.mp hmem).2
    have hnarrow : (log.filter fun x => e.1.lt x.1) =
        (log.filter fun x => initial.lt x.1).filter fun x => e.1.lt x.1 := by
      rw [List.filter_filter]
      refine List.filter_congr fun x _ => ?_
      rw [Bool.eq_iff_iff, Bool.and_eq_true]
      simp only [StreamID.lt_iff_rank] at he ⊢
      omega
    rw [List.pairwise_append] at hsorted
    obtain ⟨hinit, -, hcross⟩ := hsorted
    rw [List.pairwise_append] at hinit
    have hbefore : ((init ++ [e]).filter fun x => e.1.lt x.1) = [] := by
      rw [List.filter_eq_nil_iff]
      intro x hx
      rw [StreamID.lt_iff_rank]
      rcases List.mem_append.mp hx with hx | hx
      · have hlt := hinit.2.2 x hx e (by simp)
        rw [StreamID.lt_iff_rank] at hlt
        omega
      · obtain rfl := List.mem_singleton.mp hx
        omega
    have hafter : (rest.filter fun x => e.1.lt x.1) = rest := by
      rw [List.filter_eq_self]
      intro x hx
      exact hcross e (by simp) x hx
    rw [hlast, hnarrow, ← h, List.filter_append, hbefore, hafter, List.nil_append]

/-- A reply continues what the consumer has, and without a count it completes it. -/
theorem after_lastId {log got : List (StreamID × StreamEntryData)} {initial : StreamID}
    (hlog : log.Pairwise fun a b => a.1.lt b.1 = true)
    (h : got <+: log.filter fun e => initial.lt e.1) (count : ℕ) :
    got ++ after log (lastId initial got) count <+: (log.filter fun e => initial.lt e.1) ∧
      got ++ after log (lastId initial got) 0 = log.filter fun e => initial.lt e.1 := by
  obtain ⟨rest, hrest⟩ := h
  have hafter := filter_lastId hlog hrest
  refine ⟨?_, ?_⟩
  · rw [after, hafter, ← hrest, List.prefix_append_right_inj]
    unfold cut
    split
    · exact List.prefix_refl _
    · exact List.take_prefix _ _
  · rw [after, hafter, ← hrest]
    rfl

end Stream

theorem streamAt_congr {key : Bytes} {ks ks' : Keyspace F}
    (h : ks'.streams[key]? = ks.streams[key]?) : ks'.streamAt key = ks.streamAt key := by
  simp [streamAt, Std.ExtTreeMap.getD_eq_getD_getElem?, h]

theorem holds_handleXadd {key : Bytes} {ks : Keyspace F} {log : List (StreamID × StreamEntryData)}
    (h : (ks.streamAt key).Holds log) (clock : Readings) (args : List Bytes) :
    ∃ more, ((handleXadd clock args ks).2.streamAt key).Holds (log ++ more) := by
  rcases handleXadd_cases clock args ks with ⟨-, he⟩ | ⟨_, k, _, fields, id, stream, -, -, hi, he⟩
  · exact ⟨[], by rwa [he, List.append_nil]⟩
  · rw [he]
    by_cases hk : k = key
    · subst hk
      exact ⟨_, by rw [streamAt_insert]; exact h.insert hi⟩
    · refine ⟨[], ?_⟩
      have hother : (ks.streams.insert k stream)[key]? = ks.streams[key]? := by
        simp [Std.ExtTreeMap.getElem?_insert, hk]
      rw [List.append_nil, streamAt_congr hother]
      exact h

theorem Call.holds_result {key : Bytes} {c : Call F} (hc : c.overwrites key = false)
    {log : List (StreamID × StreamEntryData)} (h : (c.data.streamAt key).Holds log) :
    ∃ more, (c.result.2.streamAt key).Holds (log ++ more) := by
  have hsame : c.result.2.streams[key]? = c.data.streams[key]? →
      ∃ more, (c.result.2.streamAt key).Holds (log ++ more) := by
    intro he
    exact ⟨[], by rwa [streamAt_congr he, List.append_nil]⟩
  cases c with
  | pop data k =>
    apply hsame
    rcases handleLpop_cases [ascii "LPOP", k] data with he | ⟨_, _, _, n, -, -, -, he⟩
    · simp only [Call.result, Call.data, he]
    · simp only [Call.result, Call.data, he, storeList]
  | run clock data args =>
    cases hd : dataCommand args with
    | none =>
      apply hsame
      simp only [Call.result, Call.data, execute, hd]
    | some command =>
      have hx : execute clock args data = command.dispatch clock args data := by
        simp only [execute, hd]
      by_cases hxadd : command = .xadd
      · subst hxadd
        simp only [Call.result, hx]
        rcases DataCommand.xadd.dispatch_cases clock args data with ⟨-, he⟩ |
          ⟨_, k, _, -, -, ⟨-, he⟩ | ⟨-, he⟩⟩ <;> rw [he]
        · exact holds_handleXadd h clock args
        · refine ⟨[], ?_⟩
          rw [List.append_nil, streamAt_evict]
          exact h
        · refine holds_handleXadd ?_ clock.later args
          rw [streamAt_evict]
          exact h
      · apply hsame
        simp only [Call.result, Call.data, hx]
        rcases command.spares_dispatch clock args data key with ⟨hdest, herr⟩ | ⟨-, hs⟩
        · simp [overwrites, hd, hdest, hx, herr] at hc
        · exact hs.resolve_right hxadd

theorem Chain.holds {key : Bytes} {ks ks' : Keyspace F} {calls : List (Call F)}
    (h : Chain ks calls ks') (hc : ∀ c ∈ calls, c.overwrites key = false)
    {log : List (StreamID × StreamEntryData)} (hlog : (ks.streamAt key).Holds log) :
    ∃ more, (ks'.streamAt key).Holds (log ++ more) := by
  induction h generalizing log with
  | nil ks => exact ⟨[], by rwa [List.append_nil]⟩
  | evict clock k _ ih => exact ih hc (by rwa [streamAt_evict])
  | call c hdata _ ih =>
    subst hdata
    obtain ⟨more, hmore⟩ := Call.holds_result (hc c List.mem_cons_self) hlog
    obtain ⟨more', hmore'⟩ := ih (fun c' h' => hc c' (List.mem_cons_of_mem _ h')) hmore
    exact ⟨more ++ more', by rwa [← List.append_assoc]⟩

/-- `XREAD [COUNT c] [BLOCK t] STREAMS key id`. -/
def xreadArgs (count block : Option Bytes) (key : Bytes) (id : StreamID) : List Bytes :=
  ascii "XREAD" :: ((count.elim [] fun c => [ascii "COUNT", c]) ++
    (block.elim [] fun t => [ascii "BLOCK", t])) ++ [ascii "STREAMS", key, id.toString]

namespace Store

theorem readOptions_streams (o : ReadOptions F) (rest : List Bytes) :
    readOptions o (ascii "STREAMS" :: rest) = .ok (o, rest) := by
  unfold readOptions
  rw [if_pos (by decide)]

theorem readOptions_block (o : ReadOptions F) (block : Option Bytes) (rest : List Bytes) :
    (∃ failure, isError failure = true ∧ readOptions o ((block.elim [] fun t => [ascii "BLOCK", t]) ++
      ascii "STREAMS" :: rest) = .error failure) ∨
    ∃ o', readOptions o ((block.elim [] fun t => [ascii "BLOCK", t]) ++
      ascii "STREAMS" :: rest) = .ok (o', rest) := by
  cases block with
  | none => exact .inr ⟨o, readOptions_streams o rest⟩
  | some text =>
    have hblock : toUpper (ascii "BLOCK") = ascii "BLOCK" := by decide
    simp only [Option.elim_some, List.cons_append, List.nil_append]
    unfold readOptions
    rw [hblock, if_neg (by decide), if_neg (by decide)]
    dsimp only
    split
    · exact .inl ⟨_, rfl, rfl⟩
    · rw [if_neg (by decide)]
      split
      · exact .inl ⟨_, rfl, rfl⟩
      · exact .inr ⟨_, readOptions_streams _ rest⟩

theorem readOptions_xread (o : ReadOptions F) (count block : Option Bytes) (rest : List Bytes) :
    (∃ failure, isError failure = true ∧ readOptions o ((count.elim [] fun c => [ascii "COUNT", c]) ++
      ((block.elim [] fun t => [ascii "BLOCK", t]) ++ ascii "STREAMS" :: rest)) = .error failure) ∨
    ∃ o', readOptions o ((count.elim [] fun c => [ascii "COUNT", c]) ++
      ((block.elim [] fun t => [ascii "BLOCK", t]) ++ ascii "STREAMS" :: rest)) = .ok (o', rest) := by
  cases count with
  | none => exact readOptions_block o block rest
  | some text =>
    have hcount : toUpper (ascii "COUNT") = ascii "COUNT" := by decide
    simp only [Option.elim_some, List.cons_append, List.nil_append]
    rw [readOptions, hcount, if_neg (by decide), if_neg (by decide)]
    split
    · exact .inl ⟨_, rfl, rfl⟩
    · rw [if_pos rfl]
      exact readOptions_block _ block rest

theorem toString_ne_dollar (id : StreamID) : id.toString ≠ ascii "$" := by
  intro h
  have hmem : (45 : UInt8) ∈ id.toString := by simp [StreamID.toString]
  rw [h] at hmem
  exact absurd hmem (by decide)

theorem tryXread_one {ks : Keyspace F} {key : Bytes} {log : List (StreamID × StreamEntryData)}
    (h : (ks.streamAt key).Holds log) (id : StreamID) (count : ℕ) :
    ks.tryXread [key] [id] count =
      if Stream.after log id count = [] then none
      else some (xreadReply key (Stream.after log id count)) := by
  unfold tryXread
  simp only [List.zip_cons_cons, List.zip_nil_left, List.filterMap_cons, List.filterMap_nil,
    readStream_eq h]
  cases Stream.after log id count with
  | nil => rfl
  | cons e entries => rfl

theorem handleXread_one {store : Store F} {key : Bytes} {log : List (StreamID × StreamEntryData)}
    (h : (store.streamAt key).Holds log) (count block : Option Bytes) (id : StreamID) :
    let r := store.handleXread (xreadArgs count block key id)
    (r.2.pendingBlock = none ∧ (isError r.1 = true ∨ r.1 = nullArray.toBytes ∨
      ∃ n, r.1 = xreadReply key (Stream.after log id n))) ∨
    (r.1 = [] ∧ ∃ n timeout, r.2.pendingBlock =
      some { kind := .stream, keys := [key], ids := [id], count := n, timeout }) := by
  have htail : (xreadArgs count block key id).tail = (count.elim [] fun c => [ascii "COUNT", c]) ++
      ((block.elim [] fun t => [ascii "BLOCK", t]) ++ ascii "STREAMS" :: [key, id.toString]) := by
    simp [xreadArgs]
  have hread : parseReadId id.toString = some id := parseRangeBound_toString id 0
  unfold handleXread
  dsimp only
  rw [htail]
  rcases readOptions_xread ({ timeout := Platform.ofRat 0 } : ReadOptions F) count block
    [key, id.toString] with
    ⟨failure, herr, he⟩ | ⟨o, he⟩
  · rw [he]
    exact .inl ⟨rfl, .inl herr⟩
  · rw [he]
    dsimp only
    rw [if_neg (by simp)]
    simp only [List.length_cons, List.length_nil, Nat.zero_add, Nat.reduceAdd, Nat.reduceDiv,
      List.take_succ_cons, List.take_zero, List.drop_succ_cons, List.drop_zero, List.zip_cons_cons,
      List.zip_nil_left, readIds, readId, if_neg (toString_ne_dollar id), hread]
    split
    · rename_i failure hf
      split at hf
      · cases hf
        exact .inl ⟨rfl, .inl rfl⟩
      · cases hf
    · rename_i ids hf
      split at hf
      · cases hf
      · cases hf
        have hxread := tryXread_one h id o.count
        split
        · rename_i reply hreply
          rw [hxread] at hreply
          split at hreply
          · cases hreply
          · cases hreply
            exact .inl ⟨rfl, .inr (.inr ⟨_, rfl⟩)⟩
        · split
          · exact .inr ⟨rfl, _, _, rfl⟩
          · exact .inl ⟨rfl, .inr (.inl rfl)⟩

theorem handleXread_all {store : Store F} {key : Bytes} {log : List (StreamID × StreamEntryData)}
    (h : (store.streamAt key).Holds log) (hz : log = [] ∨ store.sortedSets.contains key = false)
    (id : StreamID) :
    let r := store.handleXread (xreadArgs none none key id)
    r.2 = { store with pendingBlock := none } ∧ r.1 ≠ [] ∧
      entriesIn key r.1 = Stream.after log id 0 := by
  have hread : parseReadId id.toString = some id := parseRangeBound_toString id 0
  have hxread := tryXread_one h id 0
  have htail : (xreadArgs none none key id).tail = ascii "STREAMS" :: [key, id.toString] := rfl
  unfold handleXread
  dsimp only
  rw [htail, readOptions_streams]
  dsimp only
  rw [if_neg (by simp)]
  simp only [List.length_cons, List.length_nil, Nat.zero_add, Nat.reduceAdd, Nat.reduceDiv,
    List.take_succ_cons, List.take_zero, List.drop_succ_cons, List.drop_zero, List.zip_cons_cons,
    List.zip_nil_left, readIds, readId, if_neg (toString_ne_dollar id), hread]
  by_cases hset : store.sortedSets.contains key = true
  · -- an error without entries, where the stream has none
    obtain rfl := hz.resolve_right (by simp [hset])
    rw [if_pos hset]
    refine ⟨rfl, by simp [wrongType, errorReply, toBytes], ?_⟩
    rw [entriesIn_of_isError key rfl]
    rfl
  · rw [if_neg hset]
    simp only [hxread]
    by_cases hafter : Stream.after log id 0 = []
    · rw [if_pos hafter, hafter]
      exact ⟨rfl, by simp [toBytes], rfl⟩
    · rw [if_neg hafter]
      exact ⟨rfl, by simp [xreadReply, toBytes, arrayHeader], entriesIn_xreadReply key _⟩

end Store

end TrueStore
