import TrueStore.Server.Replication

/-! # One history

The log, the stream and the replicas all tell the history of the primary. The log and the stream
hold the same writes, and a replica is never in a state that the primary has not been in.
-/

namespace TrueStore

open RespType Server

variable {F : Type} [Platform F]

namespace Server

theorem step_chunk_of_masterless {s : Server F} (hm : s.masterFd = none) (env : Env) {event : Event}
    (hl : event.isLocal = false) : s.step env event = s := by
  cases event with
  | chunk bytes => simp [step, fromMaster, hm]
  | masterClosed => simp [step, masterClosed, hm]
  | _ => cases hl

theorem streamable_run (config : Config) (replid : ReplId) (events : List (Env × Event)) :
    let s : Server F := run events (start config replid)
    s.Logged Anything Always ∧ s.Streamed ∧ ∀ p ∈ s.stream, Streamable Anything p.args := by
  apply run_preserves (I := fun s : Server F => s.Logged Anything Always ∧ s.Streamed ∧
    ∀ p ∈ s.stream, Streamable Anything p.args)
  · rintro s env event ⟨hl, hs, hitems⟩
    cases hlocal : event.isLocal with
    | false =>
      rw [step_chunk_of_masterless hs.masterFd env hlocal]
      exact ⟨hl, hs, hitems⟩
    | true =>
      have htimes : ∀ n i, Always (env.clock n i) := fun _ _ => trivial
      obtain ⟨hl', hs'⟩ := hs.accounted hl (accounted_step popClosed_anything hl.settled htimes
        event.carries_anything (.inl hs.masterFd))
      obtain ⟨items, hstream, hnew⟩ := streams_step popClosed_anything hl.settled env
        event.carries_anything hlocal
      refine ⟨hl', hs', ?_⟩
      rw [hstream]
      exact List.forall_mem_append.mpr ⟨hitems, hnew⟩
  · exact ⟨logged_start config replid, streamed_start config replid, fun p hp => by cases hp⟩

theorem writes_eq_filter {items : List Propagation}
    (h : ∀ p ∈ items, Streamable Anything p.args) :
    writes items = (items.map Propagation.args).filter (· ≠ getack) := by
  apply List.filter_congr
  intro args hargs
  obtain ⟨p, hp, rfl⟩ := List.mem_map.mp hargs
  rcases h p hp with ⟨hw, -⟩ | hget
  · have hne : p.args ≠ getack := by
      intro he
      rw [he] at hw
      exact absurd hw (by decide)
    simp [hw, hne]
  · rw [hget]
    decide

/-- Whatever happens to a primary that keeps a log, the log and the stream hold the same writes in
the same order: the log groups those of a transaction, the stream has requests for
acknowledgements in between and is counted by the offset. -/
theorem log_and_stream_agree (config : Config) (replid : ReplId)
    (hon : config.appendonly = ascii "yes") (events : List (Env × Event)) :
    let s : Server F := run events (start config replid)
    ∃ entries : List Entry, s.aof = entries.flatMap Entry.bytes ∧
      entries.flatMap Entry.commands = (s.stream.map Propagation.args).filter (· ≠ getack) ∧
      s.store.masterReplOffset = (streamBytes s.stream).length := by
  intro s
  obtain ⟨hl, hs, hitems⟩ := streamable_run (F := F) config replid events
  have hopen : s.aofOpen = true := by
    have hstart : (start config replid : Server F).aofOpen = true := decide_eq_true hon
    have hlogged : (start config replid : Server F).Logged Anything Always :=
      logged_start config replid
    obtain ⟨-, -, hsame⟩ := logged_run popClosed_anything (fun e _ => e.2.carries_anything)
      (fun _ _ _ _ => trivial) hlogged (streamed_start config replid)
    exact hsame.trans hstart
  obtain ⟨entries, hcommands, hbytes⟩ := hl.log hopen
  refine ⟨entries, hbytes.symm, ?_, hs.offset⟩
  rw [hcommands, ← hs.writes]
  exact writes_eq_filter hitems

theorem log_and_stream_agree_transacting :
    let s : Server Whole := run transacting (start keepingLog .zeros)
    ∃ entries : List Entry, s.aof = entries.flatMap Entry.bytes ∧
      entries.flatMap Entry.commands = (s.stream.map Propagation.args).filter (· ≠ getack) ∧
      s.store.masterReplOffset = (streamBytes s.stream).length :=
  log_and_stream_agree keepingLog .zeros rfl transacting

end Server

theorem exists_calls_of_begins {calls : List (Call F)} {commands : List (List Bytes)}
    (h : commands <+: loggedArgs calls) :
    ∃ before after, calls = before ++ after ∧ loggedArgs before = commands := by
  induction calls generalizing commands with
  | nil => exact ⟨[], [], rfl, (List.prefix_nil.mp h).symm⟩
  | cons c calls ih =>
    cases commands with
    | nil => exact ⟨[], c :: calls, rfl, rfl⟩
    | cons args commands =>
      have hcons : loggedArgs (c :: calls) =
          (if c.logged then [c.args] else []) ++ loggedArgs calls := by
        by_cases hc : c.logged = true <;> simp [loggedArgs, hc]
      rw [hcons] at h
      by_cases hc : c.logged = true
      · rw [if_pos hc, List.singleton_append, List.cons_prefix_cons] at h
        obtain ⟨before, after, rfl, hbefore⟩ := ih h.2
        refine ⟨c :: before, after, rfl, ?_⟩
        simpa [loggedArgs, hc, h.1] using hbefore
      · rw [if_neg hc, List.nil_append] at h
        obtain ⟨before, after, rfl, hbefore⟩ := ih h
        refine ⟨c :: before, after, rfl, ?_⟩
        simpa [loggedArgs, hc] using hbefore

/-- The data at some point of a history. -/
theorem Chain.cut {ks ks' : Keyspace F} {before after : List (Call F)}
    (h : Chain ks (before ++ after) ks') : ∃ ks₁, Chain ks before ks₁ := by
  generalize hcalls : before ++ after = calls at h
  induction h generalizing before with
  | nil ks =>
    obtain ⟨rfl, -⟩ := List.append_eq_nil_iff.mp hcalls
    exact ⟨ks, .nil ks⟩
  | evict clock key _ ih =>
    obtain ⟨ks₁, h₁⟩ := ih hcalls
    exact ⟨ks₁, .evict clock key h₁⟩
  | call c hdata _ ih =>
    cases before with
    | nil => exact ⟨_, .nil _⟩
    | cons b before =>
      obtain ⟨rfl, heq⟩ := List.cons.inj hcalls
      obtain ⟨ks₁, h₁⟩ := ih heq
      exact ⟨ks₁, .call b hdata h₁⟩

namespace Cluster

/-- A replica that was registered before any write is at every moment in a state that its primary
has been in: as long as the link is up, its data are those that the first calls of the primary
made, up to the writes in the part of the stream that its offset counts. -/
theorem replica_in_history {config : Config} {replid : ReplId} {sys : Cluster F} {link : ℤ}
    {q : Peer F}
    (hrun : Relation.ReflTransGen (Step Timeless Harmless) (Cluster.start config replid) sys)
    (hq : sys.peers link = some q) (hfirst : writes (sys.primary.stream.take q.since) = [])
    (hup : q.server.masterFd = some q.fd) :
    ∃ (before after : List (Call F)) (done more : List Propagation),
      sys.primary.calls = before ++ after ∧ Chain {} before q.server.store.toKeyspace ∧
      sys.primary.stream = done ++ more ∧ writes done = loggedArgs before ∧
      (Small sys.primary → q.server.replicaOffset = (streamBytes done).length) := by
  have h := inv_of_run hrun
  obtain ⟨client, hlinked⟩ := h.linked link q hq
  have hflight := hlinked.inFlight hup
  obtain ⟨done, rest, more, tail, hdrop, -, hconsumed, hlogged, -⟩ := hflight.stream
  obtain ⟨hprimary, hstreamed⟩ := h.primary.logged kinds_plain
  have hfaithful : Faithful TrueStore.Plain Reads := ⟨fun _ h => h, fun _ h => h⟩
  have hwrites : loggedArgs q.server.calls = writes done := hlogged hfaithful hfirst
  have hstream : sys.primary.stream =
      (sys.primary.stream.take q.since ++ done) ++ (rest ++ more) := by
    rw [List.append_assoc, ← List.append_assoc done, ← hdrop, List.take_append_drop]
  have hdone : writes (sys.primary.stream.take q.since ++ done) = writes done := by
    rw [writes_append, hfirst, List.nil_append]
  have hbegins : writes done <+: loggedArgs sys.primary.calls := by
    rw [← hstreamed.writes, hstream, writes_append, hdone]
    exact List.prefix_append _ _
  obtain ⟨before, after, hcalls, hbefore⟩ := exists_calls_of_begins hbegins
  obtain ⟨ks, hks⟩ : ∃ ks, Chain {} before ks := (hcalls ▸ hprimary.chain).cut
  -- the replica and the first calls of the primary replay the same writes
  have hfits : ∀ c ∈ before, c.Fits TrueStore.Plain Always := fun c hc =>
    hprimary.fits c (by rw [hcalls]; exact List.mem_append_left _ hc)
  have hreplica := accepts_of_plain hflight.follows.chain hflight.follows.fits Always
  rw [hwrites, ← hbefore] at hreplica
  have hsame : q.server.store.toKeyspace = ks :=
    (accepts_of_plain hks hfits Always).of_reached ⟨fun _ => ⟨0, 0⟩, trivial⟩ hreplica
  rw [hsame]
  exact ⟨before, after, _, _, hcalls, hks, hstream, hdone.trans hbefore.symm, hconsumed.offset⟩

def reader : Server Whole := follower.server.step .still (.chunk follower.down)

theorem replica_in_history_follower :
    (∃ (before after : List (Call Whole)) (done more : List Propagation),
      written.primary.calls = before ++ after ∧ Chain {} before reader.store.toKeyspace ∧
      written.primary.stream = done ++ more ∧ writes done = loggedArgs before ∧
      (Small written.primary → reader.replicaOffset = (streamBytes done).length)) ∧
      reader.store.storage[ascii "k"]? = some (ascii "v") := by
  have hpeer : written.peers 5 = some follower := (Option.some_get _).symm
  have hrun := run_written.tail (.deliver .still hpeer (List.append_nil follower.down).symm)
  constructor
  · exact replica_in_history hrun (setPeer_self _) (by decide +kernel) (by decide +kernel)
  · decide +kernel

/-- The log of a replica recovers the data of the replica. -/
theorem replica_log_exact {config : Config} {replid : ReplId} {sys : Cluster F} {link : ℤ}
    {q : Peer F}
    (hrun : Relation.ReflTransGen (Step Timeless Harmless) (Cluster.start config replid) sys)
    (hq : sys.peers link = some q) (hup : q.server.masterFd = some q.fd)
    (hopen : q.server.aofOpen = true) (clock : ℕ → ℕ → Readings) (file : Bytes) (config' : Config)
    (replid' : ReplId) :
    ∃ store : Store F,
      Aof.replay clock [(file, q.server.aof)] (Store.init config' replid') = .ok store ∧
        store.toKeyspace = q.server.store.toKeyspace := by
  have h := inv_of_run hrun
  obtain ⟨client, hlinked⟩ := h.linked link q hq
  have hfollows := (hlinked.inFlight hup).follows
  obtain ⟨config₀, replid₀, offset, events, hserver⟩ := hlinked.server
  have hlog : IsLog (loggedArgs q.server.calls) q.server.aof := by
    have hlogged := Logged.run (F := F) config₀ replid₀ (some (q.fd, offset)) events
    rw [← hserver] at hlogged
    exact hlogged.log hopen
  have hblock : (Store.init config' replid' : Store F).pendingBlock = none := rfl
  exact Aof.replay_isLog (C := fun _ => True) (fun _ _ => trivial) hlog
    (loggable_of_fits (fun _ hp => hp.2) hfollows.fits) hblock
    (accepts_of_plain hfollows.chain hfollows.fits _)

def archived : Cluster Whole :=
  (connected.move (connected.primary.step .still (.request 5 joining))).setPeer 5 (some
    { server := boot keepingLog .zeros (some (7, 0))
      fd := 7
      since := (connected.primary.step .still (.request 5 joining)).stream.length
      down := [] })

def visitedArchive : Cluster Whole := archived.move (archived.primary.step .still (.accept 6))

def supplied : Cluster Whole :=
  visitedArchive.move (visitedArchive.primary.step .still (.request 6 setting))

def archive : Peer Whole := (supplied.peers 5).get (by decide +kernel)

def archivist : Server Whole := archive.server.step .still (.chunk archive.down)

theorem replica_log_exact_archivist :
    (∃ store : Store Whole, Aof.replay (fun _ _ _ => ⟨7, 7⟩)
        [(ascii "aof", archivist.aof)] (Store.init keepingLog .zeros) = .ok store ∧
      store.toKeyspace = archivist.store.toKeyspace) ∧
      archivist.aof = encode setting.args := by
  have hconnect : Step Timeless Harmless (start {} .zeros) connected :=
    .primary .still rfl (fun _ _ => rfl) trivial fun link h => by cases h
  have hjoin : Step Timeless Harmless connected archived :=
    .join .still keepingLog .zeros 7 rfl rfl unused_connected (fun link h => by cases h)
      (Lossless.of_all (by decide +kernel)) (by decide +kernel)
  have hvisit : Step Timeless Harmless archived visitedArchive :=
    .primary .still rfl (fun fd h => by cases h; decide) trivial
      fun link _ => Lossless.of_all (by decide +kernel)
  have hsetting : timeless setting.args = true := by decide
  have hwrite : Step Timeless Harmless visitedArchive supplied :=
    .primary .still rfl (fun fd h => by cases h; decide) hsetting
      fun link _ => Lossless.of_all (by decide +kernel)
  have hpeer : supplied.peers 5 = some archive := (Option.some_get _).symm
  have hsupplied : Relation.ReflTransGen (Step Timeless Harmless) (start {} .zeros) supplied :=
    .head hconnect (.head hjoin (.head hvisit (.single hwrite)))
  have hrun := hsupplied.tail (.deliver .still hpeer (List.append_nil archive.down).symm)
  constructor
  · exact replica_log_exact hrun (setPeer_self _) (by decide +kernel) (by decide +kernel) _ _
      keepingLog .zeros
  · decide +kernel

end Cluster

end TrueStore
