import TrueStore.Aof.Simulation

/-! # Recovery from the log

A server that starts from the log of an earlier run executes the writes of that run again. When
no write depends on the clock it recovers exactly the data of the run, and it starts at all as
long as no logged write depends on what may have drifted.
-/

namespace TrueStore

open Journal RespType

variable {F : Type} [Platform F]

theorem Call.logged_pop (data : Keyspace F) (key : Bytes) (h : data.listAt key ≠ []) :
    (Call.pop data key).logged = true := by
  obtain ⟨value, rest, hl⟩ := List.exists_cons_of_ne_nil h
  simp [Call.logged, Call.args, Call.result_pop hl, isWriteCommand_lpop]

theorem Call.evicts_of_not_logged {P : List Bytes → Prop} {T : Readings → Prop} {c : Call F}
    (hc : c.Fits P T) (h : c.logged = false) :
    ∃ clock, Keyspace.Evicts clock c.data c.result.2 := by
  cases c with
  | pop data key => simp [Call.logged_pop data key hc.1] at h
  | run clock data args =>
    refine ⟨clock, ?_⟩
    simp only [Call.logged, Call.args, Call.result, Call.data, Bool.and_eq_false_iff,
      Bool.not_eq_false'] at h ⊢
    unfold execute at h ⊢
    split at h
    · rename_i command hn
      have ho := command.outcome_dispatch clock args data
      rcases h with h | h
      · refine ho.evicts_of_not_isWrite ?_
        unfold dataCommand at hn
        split at hn
        · rename_i name hname
          cases hn
          rw [← h, isWriteCommand_of_commandName hname, CommandName.isWrite]
        · cases hn
      · exact ho.evicts_of_isError h
    · exact .refl _

namespace Drift

def afterAll (d : Drift) (commands : List (List Bytes)) : Drift := commands.foldl after d

def allSafe : Drift → List (Call F) → Bool
  | _, [] => true
  | d, c :: calls =>
    if c.logged then d.safe c.data c.args && (d.after c.args).allSafe calls else d.allSafe calls

end Drift

/-- An automatic ID that the call asks for is asked for later in all admissible circumstances. -/
def Call.Precedes (C : Readings → Prop) : Call F → Prop
  | run clock _ args => asksAuto args → ∀ k, C k → (clock 1).unixMs ≤ (k 1).unixMs
  | pop _ _ => True

namespace Sim

variable {d : Drift} {live again : Keyspace F} {P : List Bytes → Prop} {T : Readings → Prop}
  {C : Readings → Prop}

theorem call {c : Call F} (h : Sim d c.data again) (hc : c.Fits P T) (hl : c.logged = true)
    (hs : d.safe c.data c.args = true) (hp : c.Precedes C)
    (hb : asksAuto c.args → d.writes + 1 < 2 ^ 64) {k : Readings} (hk : C k) :
    ∃ again', TrueStore.write k c.args again = some again' ∧
      Sim (d.after c.args) c.result.2 again' := by
  rw [Call.logged, Bool.and_eq_true, Bool.not_eq_true'] at hl
  cases c with
  | run clock data args => exact h.write hl.1 hs (fun ha => ⟨hp ha k hk, hb ha⟩) hl.2
  | pop data key => exact h.pop hc.1 k

theorem chain {ks ks' : Keyspace F} {calls : List (Call F)} (hchain : Chain ks calls ks')
    (hfits : ∀ c ∈ calls, c.Fits P T) (hprec : ∀ c ∈ calls, c.Precedes C)
    (hsafe : d.allSafe calls = true)
    (hb : (∃ c ∈ calls, asksAuto c.args) → d.writes + (loggedArgs calls).length < 2 ^ 64)
    (h : Sim d ks again) :
    Accepts TrueStore.write C (loggedArgs calls) (Sim (d.afterAll (loggedArgs calls)) ks')
      again := by
  induction hchain generalizing d again with
  | nil => exact h
  | evict clock key _ ih => exact ih hfits hprec hsafe hb (h.evict_live clock key)
  | call c hc _ ih =>
    subst hc
    have hfits' := fun c' hc' => hfits c' (List.mem_cons_of_mem _ hc')
    have hprec' := fun c' hc' => hprec c' (List.mem_cons_of_mem _ hc')
    cases hl : c.logged with
    | false =>
      obtain ⟨clock, he⟩ := Call.evicts_of_not_logged (hfits c List.mem_cons_self) hl
      simp only [loggedArgs, List.filter_cons, Drift.allSafe, hl, Bool.false_eq_true,
        if_false] at hsafe hb ⊢
      refine ih hfits' hprec' hsafe ?_ (h.evicts_live he)
      rintro ⟨c', hc', ha⟩
      exact hb ⟨c', List.mem_cons_of_mem _ hc', ha⟩
    | true =>
      simp only [loggedArgs, List.filter_cons, Drift.allSafe, hl, if_true, Bool.and_eq_true,
        List.map_cons, List.length_cons] at hsafe hb ⊢
      intro k hk
      obtain ⟨again', hwrite, h'⟩ := h.call (hfits c List.mem_cons_self) hl hsafe.1
        (hprec c List.mem_cons_self)
        (fun ha => by have := hb ⟨c, List.mem_cons_self, ha⟩; omega) hk
      refine ⟨again', hwrite, ih hfits' hprec' hsafe.2 ?_ h'⟩
      rintro ⟨c', hc', ha⟩
      have hw : (d.after c.args).writes = d.writes + 1 := by
        unfold Drift.after
        dsimp only
        split <;> rfl
      have := hb ⟨c', List.mem_cons_of_mem _ hc', ha⟩
      rw [hw, loggedArgs]
      omega

end Sim

theorem loggable_request (r : Request) : Loggable r.args := ⟨r.args_le, r.bytes_lt⟩

theorem popClosed_loggable : PopClosed Loggable := by
  rintro args key ⟨-, hbytes⟩ hn hmem
  refine ⟨by simp [maxSize], lt_of_le_of_lt ?_ hbytes⟩
  obtain ⟨c, rest, rfl⟩ : ∃ c rest, args = c :: rest := by
    cases args with
    | nil => simp at hmem
    | cons c rest => exact ⟨c, rest, rfl⟩
  have hname : toUpper c = ascii "BLPOP" := by
    have hmem := mem_table_of_commandName hn
    have hall : ∀ p ∈ commandTable, p.2 = .blpop → p.1 = ascii "BLPOP" := by decide
    exact hall _ hmem rfl
  have hlen : c.length = 5 := by
    have hmap : (c.map upperByte).length = 5 := congrArg List.length hname
    rwa [List.length_map] at hmap
  have hkey : (bulkBytes key).length ≤ (rest.flatMap bulkBytes).length :=
    length_bulkBytes_le (List.mem_of_mem_dropLast hmem)
  have hpos := List.length_pos_of_ne_nil (decimal_ne_nil (c :: rest).length)
  have hc : (bulkBytes c).length = 11 := by
    rw [length_bulkBytes, hlen]
    rfl
  have hpop : (bulkBytes (ascii "LPOP")).length = 10 := by decide
  simp only [encode_eq, arrayHeader, List.flatMap_cons, List.flatMap_nil, List.length_append,
    List.length_cons, List.append_nil, hc, hpop]
  have htwo : (decimal ([] : List Bytes).length.succ.succ).length = 1 := by decide
  simp only [List.length_cons, Nat.succ_eq_add_one] at htwo hpos
  omega

def timeless (args : List Bytes) : Bool :=
  match dataCommand args, args with
  | some .set, [_, _, _, option, _] => option ≠ ascii "EX" && option ≠ ascii "PX"
  | some .xadd, _ :: _ :: id :: _ => id ≠ Stream.autoId
  | _, _ => true

theorem timeless_lpop (key : Bytes) : timeless [ascii "LPOP", key] = true := by
  simp only [timeless, Sim.dataCommand_lpop]

theorem not_asksAuto_of_timeless {args : List Bytes} (h : timeless args = true) :
    ¬asksAuto args := by
  rintro ⟨hn, c, key, fields, rfl⟩
  simp [timeless, hn] at h

namespace Drift

/-- Nothing has drifted. -/
structure Clean (d : Drift) : Prop where
  strings : d.strings = ∅
  streams : d.streams = ∅

theorem Clean.safe {d : Drift} (h : d.Clean) {args : List Bytes} (ht : timeless args = true)
    (ks : Keyspace F) : d.safe ks args = true := by
  have hd : d.decides ks = fun _ => true := by
    funext key
    simp [decides, h.strings]
  unfold Drift.safe
  split
  all_goals simp [h.strings, h.streams, hd]

theorem Clean.after {d : Drift} (h : d.Clean) {args : List Bytes} (ht : timeless args = true)
    {clock : Readings} {ks : Keyspace F} (hok : isError (execute clock args ks).1 = false) :
    (d.after args).Clean := by
  have herase : ∀ key : Bytes, d.strings.erase key = ∅ ∧ d.streams.erase key = ∅ := by
    intro key
    rw [h.strings, h.streams]
    exact ⟨Std.ExtTreeMap.erase_empty, Std.ExtTreeSet.erase_empty⟩
  unfold Drift.after
  dsimp only
  split
  · exact ⟨(herase _).1, (herase _).2⟩
  · -- an option other than these two is refused
    rename_i c key value option text hn
    have hset : DataCommand.set.incompatibleWithSortedSet = false := rfl
    simp only [timeless, hn, Bool.and_eq_true, decide_eq_true_eq] at ht
    simp only [execute, hn, DataCommand.dispatch_of_compatible hset,
      DataCommand.handle, Keyspace.handleSet, ht.1, ht.2, if_false] at hok
    repeat' split at hok
    all_goals simp at hok
  · exact ⟨by simp [h.strings], h.streams⟩
  · refine ⟨?_, (herase _).2⟩
    rw [if_neg (by simp [h.strings])]
    exact (herase _).1
  · rename_i c key id rest hn
    simp only [timeless, hn, decide_eq_true_eq] at ht
    exact ⟨h.strings, by rw [if_neg ht]; exact h.streams⟩
  · exact ⟨h.strings, h.streams⟩

theorem Clean.after_call {d : Drift} (h : d.Clean) {c : Call F} (ht : timeless c.args = true)
    (hl : c.logged = true) : (d.after c.args).Clean := by
  rw [Call.logged, Bool.and_eq_true, Bool.not_eq_true'] at hl
  cases c with
  | run clock data args => exact h.after ht hl.2
  | pop data key =>
    simp only [Call.args, Drift.after, Sim.dataCommand_lpop]
    exact ⟨h.strings, h.streams⟩

theorem Clean.all {d : Drift} (h : d.Clean) {calls : List (Call F)}
    (ht : ∀ c ∈ calls, timeless c.args = true) :
    d.allSafe calls = true ∧ (d.afterAll (loggedArgs calls)).Clean := by
  induction calls generalizing d with
  | nil => exact ⟨rfl, h⟩
  | cons c calls ih =>
    have ht' := fun c' hc' => ht c' (List.mem_cons_of_mem _ hc')
    have hc := ht c List.mem_cons_self
    cases hl : c.logged with
    | false =>
      simp only [allSafe, loggedArgs, List.filter_cons, hl, Bool.false_eq_true, if_false]
      exact ih h ht'
    | true =>
      obtain ⟨hs, hd⟩ := ih (h.after_call hc hl) ht'
      simp only [allSafe, loggedArgs, List.filter_cons, hl, if_true, h.safe hc, hs, Bool.and_self,
        true_and]
      exact hd

end Drift

theorem Sim.eq_of_clean {d : Drift} {live again : Keyspace F} (h : Sim d live again)
    (hd : d.Clean) : again = live := by
  have hstr : ∀ key : Bytes, d.strings.contains key = false := fun key => by simp [hd.strings]
  have hsm : ∀ key : Bytes, d.streams.contains key = false := fun key => by simp [hd.streams]
  refine Keyspace.ext ?_ ?_ h.lists ?_ h.sets
  · exact Std.ExtTreeMap.ext_getElem? fun key => (h.strings key (hstr key)).1
  · refine Std.ExtTreeMap.ext_getElem? fun key => ?_
    obtain ⟨-, hl, ha⟩ := h.strings key (hstr key)
    rw [hl, ha]
  · exact Std.ExtTreeMap.ext_getElem? fun key => h.streams key (hsm key)

/-- The requests of a run without deadlines and automatic IDs, and the pops that they cause. -/
def Plain (args : List Bytes) : Prop := timeless args = true ∧ Loggable args

theorem popClosed_plain : PopClosed Plain := fun args key h hn hmem =>
  ⟨timeless_lpop key, popClosed_loggable args key h.2 hn hmem⟩

theorem Event.carries_plain {event : Server.Event} (h : event.Carries (timeless · = true)) :
    event.Carries Plain := by
  cases event with
  | request fd r => exact ⟨h, loggable_request r⟩
  | _ => trivial

theorem Event.carries_loggable (event : Server.Event) : event.Carries Loggable := by
  cases event with
  | request fd r => exact loggable_request r
  | _ => trivial

/-- The writes of a run without deadlines and automatic IDs lead to its data at any time. -/
theorem accepts_of_plain {T : Readings → Prop} {calls : List (Call F)} {ks : Keyspace F}
    (hchain : Chain {} calls ks) (hfits : ∀ c ∈ calls, c.Fits Plain T) (C : Readings → Prop) :
    Accepts write C (loggedArgs calls) (· = ks) {} := by
  have ht : ∀ c ∈ calls, timeless c.args = true := fun c hc => (hfits c hc).args.1
  have hclean : ({} : Drift).Clean := ⟨rfl, rfl⟩
  obtain ⟨hsafe, hd⟩ := hclean.all ht
  refine (Sim.empty.chain hchain hfits (fun c hc => ?_) hsafe (fun ⟨c, hc, ha⟩ => ?_)).imp
    fun again h => h.eq_of_clean hd
  · cases c with
    | run clock data args => exact fun ha => absurd ha (not_asksAuto_of_timeless (ht _ hc))
    | pop data key => trivial
  · exact absurd ha (not_asksAuto_of_timeless (ht c hc))

theorem loggable_of_fits {P : List Bytes → Prop} {T : Readings → Prop}
    (hP : ∀ args, P args → Loggable args) {calls : List (Call F)}
    (hfits : ∀ c ∈ calls, c.Fits P T) :
    ∀ args ∈ loggedArgs calls, isWriteCommand (upperName args) = true ∧ Loggable args := by
  intro args ha
  refine ⟨isWriteCommand_of_mem_loggedArgs ha, ?_⟩
  obtain ⟨c, hc, rfl⟩ := List.mem_map.mp ha
  exact hP _ (hfits c (List.mem_filter.mp hc).1).args

namespace Server

/-- A server that starts from the log of an earlier run recovers its data, at whatever times the
two take place. -/
theorem replay_run_exact (config : Config) (replid : ReplId)
    (hon : config.appendonly = ascii "yes") (events : List (Env × Event))
    (he : ∀ e ∈ events, e.2.Carries (timeless · = true)) (clock : ℕ → ℕ → Readings)
    (file : Bytes) (config' : Config) (replid' : ReplId) :
    ∃ store' : Store F,
      Aof.replay clock [(file, (run events (start config replid : Server F)).aof)]
        (Store.init config' replid') = .ok store' ∧
      store'.toKeyspace = (run events (start config replid)).store.toKeyspace := by
  obtain ⟨h, -, hopen⟩ := logged_run (T := Always) popClosed_plain
    (fun e hm => Event.carries_plain (he e hm)) (fun _ _ _ _ => trivial)
    (logged_start config replid : (start config replid : Server F).Logged Plain Always)
    (streamed_start config replid)
  have hlog := h.log (hopen.trans (decide_eq_true hon))
  have hb : (Store.init config' replid' : Store F).pendingBlock = none := rfl
  exact Aof.replay_isLog (C := fun _ => True) (fun _ _ => trivial) hlog
    (loggable_of_fits (fun _ hp => hp.2) h.fits) hb (accepts_of_plain h.chain h.fits _)

def keepingLog : Config := { appendonly := ascii "yes" }

def requestAt (clock : Clock) (args : List Bytes)
    (h : args.length ≤ maxSize ∧ (encode args).length < 2 ^ 63) : Env × Event :=
  ({ Env.still with clock := fun _ _ _ => clock }, .request 5 (.of args h))

def transacting : List (Env × Event) :=
  [(.still, .accept 5),
    requestAt ⟨0, 0⟩ [ascii "RPUSH", ascii "l", ascii "a"] (by decide),
    requestAt ⟨0, 0⟩ [ascii "MULTI"] (by decide),
    requestAt ⟨0, 0⟩ [ascii "INCR", ascii "n"] (by decide),
    requestAt ⟨0, 0⟩ [ascii "ZADD", ascii "l", ascii "1", ascii "m"] (by decide),
    requestAt ⟨0, 0⟩ [ascii "EXEC"] (by decide)]

theorem replay_run_exact_transaction :
    ∃ store' : Store Whole,
      Aof.replay (fun _ _ _ => ⟨7, 7⟩) [(ascii "aof", (run transacting
        (start keepingLog .zeros : Server Whole)).aof)] (Store.init keepingLog .zeros) =
          .ok store' ∧
      store'.toKeyspace = (run transacting (start keepingLog .zeros)).store.toKeyspace := by
  refine replay_run_exact keepingLog .zeros rfl transacting ?_ _ _ keepingLog .zeros
  simp only [transacting, requestAt, List.forall_mem_cons, Event.Carries, List.not_mem_nil,
    false_implies, implies_true, and_true, true_and]
  decide

/-- A server starts from the log of an earlier run if each logged write was safe for the drift
that it found and automatic IDs do not run out. -/
theorem replay_run_starts (config : Config) (replid : ReplId)
    (hon : config.appendonly = ascii "yes") (events : List (Env × Event))
    (hsafe : ({} : Drift).allSafe (run events (start config replid : Server F)).calls = true)
    (hlen : (loggedArgs (run events (start config replid : Server F)).calls).length < 2 ^ 64)
    (clock : ℕ → ℕ → Readings)
    (hlater : ∀ e ∈ events, ∀ n i j n' i' j',
      (e.1.clock n i j).unixMs ≤ (clock n' i' j').unixMs)
    (file : Bytes) (config' : Config) (replid' : ReplId) :
    (∃ store' : Store F,
      Aof.replay clock [(file, (run events (start config replid : Server F)).aof)]
        (Store.init config' replid') = .ok store') ∧
    Accepts write (fun k => ∃ n i, k = clock n i)
      (loggedArgs (run events (start config replid : Server F)).calls) (fun _ => True)
        ({} : Keyspace F) := by
  obtain ⟨h, -, hopen⟩ := logged_run
    (T := fun k => ∀ j n' i' j', (k j).unixMs ≤ (clock n' i' j').unixMs) popClosed_loggable
    (fun e _ => Event.carries_loggable e.2) hlater
    (logged_start config replid : (start config replid : Server F).Logged Loggable _)
    (streamed_start config replid)
  have haccepts : Accepts write (fun k => ∃ n i, k = clock n i)
      (loggedArgs (run events (start config replid : Server F)).calls) (fun _ => True)
        ({} : Keyspace F) := by
    refine (Sim.empty.chain h.chain h.fits (fun c hc => ?_) hsafe fun _ => ?_).imp
      fun _ _ => trivial
    · have hfits := h.fits c hc
      cases c with
      | run k data args =>
        rintro - k' ⟨n, i, rfl⟩
        exact hfits.1 1 n i 1
      | pop data key => trivial
    · simpa using hlen
  have hlog := h.log (hopen.trans (decide_eq_true hon))
  have hb : (Store.init config' replid' : Store F).pendingBlock = none := rfl
  obtain ⟨store', hreplay, -⟩ := Aof.replay_isLog (fun n i => ⟨n, i, rfl⟩) hlog
    (loggable_of_fits (fun _ hp => hp) h.fits) hb haccepts
  exact ⟨⟨store', hreplay⟩, haccepts⟩

/-- A string that expires and makes room for a list; then automatic IDs. -/
def expiring : List (Env × Event) :=
  [(.still, .accept 5),
    requestAt ⟨0, 0⟩ [ascii "SET", ascii "k", ascii "v", ascii "PX", ascii "1"] (by decide),
    requestAt ⟨2000000, 2⟩ [ascii "RPUSH", ascii "k", ascii "a"] (by decide),
    requestAt ⟨2000000, 2⟩ [ascii "XADD", ascii "s", ascii "*", ascii "f", ascii "v"] (by decide)]

theorem replay_run_starts_expiring :
    ∃ store' : Store Whole,
      Aof.replay (fun _ _ _ => ⟨0, 9⟩) [(ascii "aof", (run expiring
        (start keepingLog .zeros : Server Whole)).aof)] (Store.init keepingLog .zeros) =
          .ok store' := by
  refine (replay_run_starts keepingLog .zeros rfl expiring (by decide) (by decide)
    (fun _ _ _ => ⟨0, 9⟩) ?_ _ keepingLog .zeros).1
  simp only [expiring, requestAt, List.forall_mem_cons, List.not_mem_nil, false_implies,
    implies_true, and_true, Env.still, forall_const]
  decide

def replacing : List (Env × Event) :=
  [(.still, .accept 5),
    requestAt ⟨0, 0⟩ [ascii "SET", ascii "k", ascii "v", ascii "PX", ascii "1"] (by decide),
    requestAt ⟨2000000, 2⟩ [ascii "ZADD", ascii "k", ascii "1", ascii "m"] (by decide)]

/-- The server cannot be started again: both commands were accepted, but in the replay the string
is still there when the sorted set is created. -/
theorem replay_fails_after_expiry :
    Aof.replay (fun _ _ _ => ⟨0, 9⟩)
      [(ascii "aof", (run replacing (start keepingLog .zeros : Server Whole)).aof)]
      (Store.init keepingLog .zeros : Store Whole) =
        .error (Aof.failedToReplay (ascii "aof") wrongType) := by
  have h : ∀ (r : Except Exn (Store Whole)) (e : Exn),
      (match r with
        | .error e' => some e'
        | .ok _ => none) = some e → r = .error e := by
    rintro (e' | store) e he
    · rw [Option.some.inj he]
    · cases he
  apply h
  decide

end Server

end TrueStore
