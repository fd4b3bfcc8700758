import TrueStore.Aof.Recovery

/-! # Torn logs

A log that was cut somewhere is a sequence of whole entries followed by a part of the next one.
The replay accepts the cut log exactly when that part is empty: otherwise it ends inside a
request or inside a transaction.
-/

namespace TrueStore

open Journal RespType

variable {F : Type} [Platform F]

theorem entries_cut (entries : List Entry) {cut : Bytes}
    (h : cut <+: entries.flatMap Entry.bytes) :
    ∃ k, cut = (entries.take k).flatMap Entry.bytes ∨
      ∃ entry part, entries[k]? = some entry ∧
        cut = (entries.take k).flatMap Entry.bytes ++ part ∧
        part <+: entry.bytes ∧ part ≠ [] ∧ part ≠ entry.bytes := by
  induction entries generalizing cut with
  | nil => exact ⟨0, .inl (by simpa using h)⟩
  | cons entry entries ih =>
    rw [List.flatMap_cons] at h
    rcases List.prefix_or_prefix_of_prefix h (List.prefix_append _ _) with h' | ⟨t, rfl⟩
    · by_cases hnil : cut = []
      · exact ⟨0, .inl (by simp [hnil])⟩
      by_cases hall : cut = entry.bytes
      · exact ⟨1, .inl (by simp [hall])⟩
      · exact ⟨0, .inr ⟨entry, cut, rfl, by simp, h', hnil, hall⟩⟩
    · obtain ⟨k, hk⟩ := ih ((List.prefix_append_right_inj _).mp h)
      refine ⟨k + 1, hk.imp (fun he => by simp [he]) fun ⟨e, part, hget, he, hpart⟩ => ?_⟩
      exact ⟨e, part, by simpa using hget, by simp [he], hpart⟩

namespace Aof

variable {C : Readings → Prop} {clock : ℕ → ℕ → Readings} {file : Bytes}

/-- The replay of whole requests and a partial one that does not end between two entries. -/
theorem replay_incomplete {requests : List (List Bytes)} (hl : ∀ args ∈ requests, Loggable args)
    {rest content : Bytes} (hrest : Partial rest)
    (hc : content = requests.flatMap encode ++ rest) {store : Store F}
    (hst : ∀ items : List (List Bytes × ℕ), items.map Prod.fst = requests →
      ∃ st, Replays clock file items (0, store, replayClient) st ∧
        (rest ≠ [] ∨ st.2.2.inMulti = true)) :
    replay clock [(file, content)] store = .error (incomplete file) := by
  obtain ⟨rs, hargs, hwire⟩ := exists_requests hl
  obtain ⟨st', hreplays, hend⟩ := hst (rs.map fun r => (r.args, r.bytes.length))
    (by simpa [List.map_map, Function.comp_def] using hargs)
  have hchunks : (chunks content.length content).flatten = wire rs ++ rest := by
    rw [flatten_chunks le_rfl, hc, hwire]
  have hfeed := feedAll_wire (replayCommand clock file) rs hrest (0, store, replayClient) hchunks
  rw [hreplays] at hfeed
  simp only [replay, replayFiles, replayFile, hfeed, if_pos hend]
  rfl

/-- A transaction that is cut between two of its requests leaves the client in it. -/
theorem replays_cut_transaction (clock : ℕ → ℕ → Readings) (file : Bytes) {commands : List (List Bytes)}
    (hw : ∀ args ∈ commands, isWriteCommand (upperName args) = true)
    {items : List (List Bytes × ℕ)} {j : ℕ}
    (hi : items.map Prod.fst = (Entry.transaction commands).requests.take j)
    (hj : j ≤ commands.length + 1) {st : ReplayState F} (hst : Ready st) :
    ∃ st', Replays clock file items st st' ∧ (j ≠ 0 → st'.2.2.inMulti = true) := by
  cases j with
  | zero =>
    obtain rfl : items = [] := by simpa using hi
    exact ⟨st, rfl, fun h => absurd rfl h⟩
  | succ j =>
    simp only [Entry.requests, List.cons_append, List.take_succ_cons] at hi
    rw [List.take_append_of_le_length (by simpa using hj)] at hi
    obtain ⟨⟨multi, m⟩, queue, rfl, rfl, hqueue⟩ := List.map_eq_cons_iff.mp hi
    obtain ⟨st₁, hr₁, hc₁, hb₁, -⟩ := replays_multi clock file m hst
    have hwrite : ∀ item ∈ queue, isWriteCommand (upperName item.1) = true := fun item hm =>
      hw _ (List.mem_of_mem_take (hqueue ▸ List.mem_map_of_mem hm))
    obtain ⟨st₂, hr₂, hc₂, -, -⟩ := replays_queue clock file hwrite hc₁ hb₁
    exact ⟨st₂, hr₁.append hr₂, fun _ => by rw [hc₂]; rfl⟩

theorem replay_torn (hC : ∀ n i, C (clock n i)) {kept : List Entry} {entry : Entry}
    (hk : ∀ args ∈ kept.flatMap Entry.commands,
      isWriteCommand (upperName args) = true ∧ Loggable args)
    (he : ∀ args ∈ entry.commands, isWriteCommand (upperName args) = true ∧ Loggable args)
    {part : Bytes} (hp : part <+: entry.bytes) (hnil : part ≠ []) (hall : part ≠ entry.bytes)
    {store : Store F} (hb : store.pendingBlock = none) {Q : Keyspace F → Prop}
    (h : Accepts write C (kept.flatMap Entry.commands) Q store.toKeyspace) :
    replay clock [(file, kept.flatMap Entry.bytes ++ part)] store = .error (incomplete file) := by
  have hloge := loggable_requests fun args ha => (he args ha).2
  obtain ⟨rs, hargs, hwire⟩ := exists_requests hloge
  rw [Entry.flatMap_encode_requests] at hwire
  obtain ⟨j, rest, rfl, hrest⟩ := wire_cut rs (hwire ▸ hp)
  have hj : j < entry.requests.length := by
    by_contra hge
    apply hall
    rw [List.take_of_length_le (by rw [← hargs, List.length_map] at hge; omega), hwire] at hp ⊢
    exact (hp.eq_of_length_le (by simp)).symm ▸ rfl
  have hpartial : Partial rest := hrest.imp id fun ⟨r, _, h⟩ => ⟨r, h⟩
  have hkept : ∀ args ∈ kept.flatMap Entry.requests, Loggable args := by
    intro args ha
    obtain ⟨e, hm, ha⟩ := List.mem_flatMap.mp ha
    exact loggable_requests
      (fun a ha' => (hk a (List.mem_flatMap.mpr ⟨e, hm, ha'⟩)).2) args ha
  have hlog : ∀ args ∈ kept.flatMap Entry.requests ++ entry.requests.take j, Loggable args :=
    fun args ha => (List.mem_append.mp ha).elim (hkept args)
      fun ha => hloge args (List.mem_of_mem_take ha)
  have hready : Ready ((0, store, replayClient) : ReplayState F) := ⟨rfl, hb⟩
  refine replay_incomplete hlog hpartial ?_ fun items hi => ?_
  · have hbytes : wire (rs.take j) = (entry.requests.take j).flatMap encode := by
      rw [wire, ← hargs, ← List.map_take, List.flatMap_map]
      rfl
    rw [List.flatMap_append, List.flatMap_assoc, hbytes]
    simp only [Entry.flatMap_encode_requests, List.append_assoc]
  · obtain ⟨items₁, items₂, rfl, hi₁, hi₂⟩ := List.map_eq_append_iff.mp hi
    obtain ⟨st₁, hr₁, hst₁, -⟩ := replays_entries hC (fun a ha => (hk a ha).1) hi₁ hready h
    cases entry with
    | direct args =>
      obtain rfl : j = 0 := by simpa [Entry.requests] using hj
      obtain rfl : items₂ = [] := by simpa using hi₂
      exact ⟨st₁, hr₁.append rfl, .inl (by simpa using hnil)⟩
    | transaction commands =>
      obtain ⟨st₂, hr₂, hmulti⟩ := replays_cut_transaction clock file
        (fun a ha => (he a ha).1) hi₂
        (show j ≤ commands.length + 1 by simpa [Entry.requests, Nat.lt_succ_iff] using hj) hst₁
      refine ⟨st₂, hr₁.append hr₂, ?_⟩
      by_cases hr : rest = []
      · refine .inr (hmulti fun h0 => hnil ?_)
        simp [h0, hr]
      · exact .inl hr

end Aof

/-- The data after some writes, at clock readings that do not matter. -/
def executeAll (clock : Readings) (commands : List (List Bytes)) (ks : Keyspace F) : Keyspace F :=
  commands.foldl (fun ks args => (execute clock args ks).2) ks

theorem executeAll_of_accepts {commands : List (List Bytes)} {ks : Keyspace F}
    {Q : Keyspace F → Prop} (h : Accepts write (fun _ => True) commands Q ks) (clock : Readings) :
    Q (executeAll clock commands ks) := by
  induction commands generalizing ks with
  | nil => exact h
  | cons args commands ih =>
    obtain ⟨ks', hks', h'⟩ := h clock trivial
    obtain ⟨-, rfl⟩ := write_eq_some hks'
    exact ih h'

theorem chain_split {ks ks' : Keyspace F} {calls : List (Call F)} (h : Chain ks calls ks')
    {as bs : List (List Bytes)} (hlog : loggedArgs calls = as ++ bs) :
    ∃ calls₁ ks₁, calls₁ <+: calls ∧ loggedArgs calls₁ = as ∧ Chain ks calls₁ ks₁ := by
  induction h generalizing as with
  | nil ks =>
    obtain ⟨rfl, -⟩ := List.append_eq_nil_iff.mp hlog.symm
    exact ⟨[], ks, List.nil_prefix, rfl, .nil ks⟩
  | evict clock key _ ih =>
    obtain ⟨calls₁, ks₁, hp, hl, hchain⟩ := ih hlog
    exact ⟨calls₁, ks₁, hp, hl, .evict clock key hchain⟩
  | call c hc hrest ih =>
    rename_i ks _ calls
    by_cases hnil : as = []
    · subst hnil
      exact ⟨[], ks, List.nil_prefix, rfl, .nil ks⟩
    have hcons : loggedArgs (c :: calls) = loggedArgs [c] ++ loggedArgs calls :=
      loggedArgs_append [c] calls
    rw [hcons] at hlog
    cases hl : c.logged with
    | false =>
      have hone : loggedArgs [c] = [] := by simp [loggedArgs, hl]
      obtain ⟨calls₁, ks₁, hp, hl₁, hchain⟩ := ih (by rw [← hlog, hone]; rfl)
      refine ⟨c :: calls₁, ks₁, by simpa using hp, ?_, .call c hc hchain⟩
      rw [show c :: calls₁ = [c] ++ calls₁ from rfl, loggedArgs_append, hone, hl₁]
      rfl
    | true =>
      have hone : loggedArgs [c] = [c.args] := by simp [loggedArgs, hl]
      obtain ⟨a, as, rfl⟩ := List.exists_cons_of_ne_nil hnil
      rw [hone, List.cons_append, List.cons_append, List.cons.injEq, List.nil_append] at hlog
      obtain ⟨calls₁, ks₁, hp, hl₁, hchain⟩ := ih hlog.2
      refine ⟨c :: calls₁, ks₁, by simpa using hp, ?_, .call c hc hchain⟩
      rw [show c :: calls₁ = [c] ++ calls₁ from rfl, loggedArgs_append, hone, hl₁, hlog.1]
      rfl

namespace Server

/-- The log of a run, cut after any number of bytes, is accepted exactly when the cut falls
between two of its entries. It then leads to the data that the entries before the cut produce. -/
theorem replay_cut (config : Config) (replid : ReplId)
    (hon : config.appendonly = ascii "yes") (events : List (Env × Event))
    (he : ∀ e ∈ events, e.2.Carries (timeless · = true)) (clock : ℕ → ℕ → Readings)
    (file : Bytes) (config' : Config) (replid' : ReplId) :
    let server : Server F := run events (start config replid)
    ∃ entries : List Entry, entries.flatMap Entry.bytes = server.aof ∧
      entries.flatMap Entry.commands = loggedArgs server.calls ∧
      ∀ n,
        (∀ k, server.aof.take n = (entries.take k).flatMap Entry.bytes →
          ∃ store' : Store F, Aof.replay clock [(file, server.aof.take n)]
            (Store.init config' replid') = .ok store' ∧
            ∀ readings, store'.toKeyspace =
              executeAll readings ((entries.take k).flatMap Entry.commands) {}) ∧
        ((¬∃ k, server.aof.take n = (entries.take k).flatMap Entry.bytes) →
          Aof.replay clock [(file, server.aof.take n)] (Store.init config' replid' : Store F) =
            .error (Aof.incomplete file)) := by
  intro server
  obtain ⟨h, -, hopen⟩ := logged_run (T := Always) popClosed_plain
    (fun e hm => Event.carries_plain (he e hm)) (fun _ _ _ _ => trivial)
    (logged_start config replid : (start config replid : Server F).Logged Plain Always)
    (streamed_start config replid)
  obtain ⟨entries, hcommands, hbytes⟩ := h.log (hopen.trans (decide_eq_true hon))
  have hwrite : ∀ args ∈ entries.flatMap Entry.commands,
      isWriteCommand (upperName args) = true ∧ Loggable args := by
    rw [hcommands]
    exact loggable_of_fits (fun _ hp => hp.2) h.fits
  -- the writes before a cut are those of a shorter run
  have hkept : ∀ k, Accepts write (fun _ => True) ((entries.take k).flatMap Entry.commands)
      (fun ks => ∀ readings,
        ks = executeAll readings ((entries.take k).flatMap Entry.commands) {})
      ({} : Keyspace F) := by
    intro k
    have hsplit : loggedArgs (run events (start config replid : Server F)).calls =
        (entries.take k).flatMap Entry.commands ++ (entries.drop k).flatMap Entry.commands := by
      rw [← hcommands, ← List.flatMap_append, List.take_append_drop]
    obtain ⟨calls₁, ks₁, hp, hl, hchain⟩ := chain_split h.chain hsplit
    have haccepts := accepts_of_plain hchain (fun c hc => h.fits c (hp.subset hc)) fun _ => True
    rw [hl] at haccepts
    exact haccepts.imp fun ks hks readings => by
      rw [hks, executeAll_of_accepts haccepts readings]
  have htake : ∀ k, ∀ args ∈ (entries.take k).flatMap Entry.commands,
      isWriteCommand (upperName args) = true ∧ Loggable args := by
    intro k args ha
    obtain ⟨entry, hm, ha⟩ := List.mem_flatMap.mp ha
    exact hwrite args (List.mem_flatMap.mpr ⟨entry, List.mem_of_mem_take hm, ha⟩)
  refine ⟨entries, hbytes, hcommands, fun n => ⟨fun k hk => ?_, fun hno => ?_⟩⟩
  · rw [hk]
    have hb : (Store.init config' replid' : Store F).pendingBlock = none := rfl
    exact Aof.replay_isLog (C := fun _ => True) (fun _ _ => trivial)
      ⟨entries.take k, rfl, rfl⟩ (htake k) hb (hkept k)
  · have hpre : server.aof.take n <+: entries.flatMap Entry.bytes := by
      rw [hbytes]
      exact List.take_prefix n server.aof
    obtain ⟨k, hk | ⟨entry, part, hget, hcut, hpart, hnil, hall⟩⟩ :=
      entries_cut entries hpre
    · exact absurd ⟨k, hk⟩ hno
    · rw [hcut]
      exact Aof.replay_torn (C := fun _ => True) (fun _ _ => trivial) (htake k)
        (fun args ha => hwrite args
          (List.mem_flatMap.mpr ⟨entry, List.mem_of_getElem? hget, ha⟩))
        hpart hnil hall rfl (hkept k)

/-- The log of a run with a transaction, whole and without the `EXEC` at its end. -/
theorem replay_cut_transacting :
    let aof := (run transacting (start keepingLog .zeros : Server Whole)).aof
    (∃ store' : Store Whole, Aof.replay (fun _ _ _ => ⟨7, 7⟩)
      [(ascii "aof", aof.take aof.length)] (Store.init keepingLog .zeros) = .ok store') ∧
    aof.drop (aof.length - 14) = encode [ascii "EXEC"] ∧
    Aof.replay (fun _ _ _ => ⟨7, 7⟩) [(ascii "aof", aof.take (aof.length - 14))]
      (Store.init keepingLog .zeros : Store Whole) = .error (Aof.incomplete (ascii "aof")) := by
  intro aof
  obtain ⟨entries, hbytes, hcommands, hcut⟩ := replay_cut (F := Whole) keepingLog .zeros rfl
    transacting (by
      simp only [transacting, requestAt, List.forall_mem_cons, Event.Carries, List.not_mem_nil,
        false_implies, implies_true, and_true, true_and]
      decide) (fun _ _ _ => ⟨7, 7⟩) (ascii "aof") keepingLog .zeros
  have hlogged : loggedArgs (run transacting (start keepingLog .zeros : Server Whole)).calls =
      [[ascii "RPUSH", ascii "l", ascii "a"], [ascii "INCR", ascii "n"]] := by decide
  have hlong : ∀ entry ∈ entries, 14 < entry.bytes.length := by
    intro entry he
    cases entry with
    | direct args =>
      have hmem : args ∈ entries.flatMap Entry.commands :=
        List.mem_flatMap.mpr ⟨_, he, List.mem_singleton_self args⟩
      rw [hcommands, hlogged] at hmem
      simp only [List.mem_cons, List.not_mem_nil, or_false] at hmem
      rcases hmem with rfl | rfl <;> decide
    | transaction commands =>
      have hmulti : (encode [ascii "MULTI"]).length = 15 := by decide
      simp only [Entry.bytes, transactionBytes, List.length_append, hmulti]
      omega
  refine ⟨?_, by decide, ?_⟩
  · obtain ⟨store', hreplay, -⟩ := (hcut aof.length).1 entries.length
      (by rw [List.take_length, List.take_length, hbytes])
    exact ⟨store', hreplay⟩
  · apply (hcut (aof.length - 14)).2
    rintro ⟨k, hk⟩
    have hrest : ((entries.drop k).flatMap Entry.bytes).length = 14 := by
      have hlength := congrArg List.length hk
      have hsplit : ((entries.take k).flatMap Entry.bytes).length +
          ((entries.drop k).flatMap Entry.bytes).length = aof.length := by
        rw [← List.length_append, ← List.flatMap_append, List.take_append_drop, hbytes]
      have hfull : 14 ≤ aof.length := by decide
      change (aof.take (aof.length - 14)).length = _ at hlength
      rw [List.length_take] at hlength
      omega
    cases hdrop : entries.drop k with
    | nil => simp [hdrop] at hrest
    | cons entry others =>
      have hone := hlong entry (List.mem_of_mem_drop (hdrop ▸ List.mem_cons_self))
      simp only [hdrop, List.flatMap_cons, List.length_append] at hrest
      omega

end Server

end TrueStore
