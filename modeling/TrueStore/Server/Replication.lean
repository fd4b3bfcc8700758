import TrueStore.Server.Replica

/-! # Replication

A primary and its replicas, with a link to each: the bytes on the way down arrive in order and in
any pieces, the acknowledgements go up. The steps of the system are those of the clients of either
end and of the links. A replica that was registered before any write has the data of its primary
whenever nothing is on its way.
-/

namespace TrueStore.Server

variable {F : Type} [Platform F]

/-- The calls of `send_all` of a step. -/
def sent (s s' : Server F) : List Sent := s'.sends.drop s.sends.length

theorem sent_eq {s s' : Server F} {new : List Sent} (h : s'.sends = s.sends ++ new) :
    sent s s' = new := by
  simp [sent, h]

theorem sent_same {s s' : Server F} (h : s'.sends = s.sends) : sent s s' = [] := by
  simp [sent, h]

end TrueStore.Server

namespace TrueStore

open RespType Framing Server

variable {F : Type} [Platform F]

/-- A replica with the link to its primary: the bytes that the primary has sent and that have not
arrived, and the acknowledgements on their way back. Besides, the length of the stream when it was
registered. -/
structure Peer (F : Type) [Platform F] where
  server : Server F
  fd : ℤ
  since : ℕ
  down : Bytes := []
  up : List Bytes := []

/-- A primary and its replicas, by the descriptors that they have at the primary. -/
structure Cluster (F : Type) [Platform F] where
  primary : Server F
  peers : ℤ → Option (Peer F)

def Peer.move (server : Server F) (q : Peer F) : Peer F :=
  { q with
    server
    up := q.up ++
      if q.server.masterFd = some q.fd then payloadsTo q.fd (sent q.server server) else [] }

namespace Cluster

def start (config : Config) (replid : ReplId) : Cluster F :=
  ⟨Server.start config replid, fun _ => none⟩

def move (primary : Server F) (sys : Cluster F) : Cluster F where
  primary
  peers link := (sys.peers link).map fun q =>
    { q with down := q.down ++ (payloadsTo link (sent sys.primary primary)).flatten }

def setPeer (link : ℤ) (q : Option (Peer F)) (sys : Cluster F) : Cluster F :=
  { sys with peers := Function.update sys.peers link q }

def Delivers (primary : Server F) (sys : Cluster F) : Prop :=
  ∀ link, (sys.peers link).isSome → Lossless link (sent sys.primary primary)

/-- The first request of a replica that is not an ordinary one. -/
def psync : List Bytes := [ascii "PSYNC", ascii "?", ascii "-1"]

/-- The connection of a replica before its `PSYNC`: it has neither subscriptions nor a transaction
and waits for nothing. -/
structure Unused (link : ℤ) (client : ClientState) (s : Server F) : Prop where
  apart : s.Apart link
  connected : s.clients[link]? = some client
  subscriptions : client.subscriptions.isEmpty = true
  inMulti : client.inMulti = false
  stays : client.closeAfterReply = false

/-- The steps of the system, for clients of the primary and of the replicas whose requests have
some property. -/
inductive Step (P Q : List Bytes → Prop) : Cluster F → Cluster F → Prop where
  /-- A client of the primary, or the round over the waiting clients. -/
  | primary {sys : Cluster F} (env : Env) {event : Event} : event.isLocal = true →
      (∀ fd, event.fd? = some fd → sys.peers fd = none) → event.Carries P →
      sys.Delivers (sys.primary.step env event) →
      Step P Q sys (sys.move (sys.primary.step env event))
  /-- A fresh server sends its `PSYNC` on one of the connections and reads the reply. -/
  | join {sys : Cluster F} (env : Env) {link : ℤ} {client : ClientState} {r : Request}
      (config : Config) (replid : ReplId) (fd : ℤ) {offset : ℤ} {down : Bytes} :
      sys.peers link = none → r.args = psync → Unused link client sys.primary →
      sys.Delivers (sys.primary.step env (.request link r)) →
      Lossless link (sent sys.primary (sys.primary.step env (.request link r))) →
      handshake (payloadsTo link (sent sys.primary
        (sys.primary.step env (.request link r)))).flatten = some (offset, down) →
      Step P Q sys ((sys.move (sys.primary.step env (.request link r))).setPeer link (some
        { server := boot config replid (some (fd, offset))
          fd
          since := (sys.primary.step env (.request link r)).stream.length
          down }))
  /-- Some bytes arrive at a replica. -/
  | deliver {sys : Cluster F} {link : ℤ} {q : Peer F} (env : Env) {chunk rest : Bytes} :
      sys.peers link = some q → q.down = chunk ++ rest →
      Step P Q sys (sys.setPeer link (some
        { q.move (q.server.step env (.chunk chunk)) with down := rest }))
  /-- An acknowledgement arrives at the primary. -/
  | acknowledge {sys : Cluster F} {link : ℤ} {q : Peer F} (env : Env) {r : Request}
      {rest : List Bytes} : sys.peers link = some q → q.up = r.bytes :: rest →
      sys.Delivers (sys.primary.step env (.request link r)) →
      Step P Q sys ((sys.setPeer link (some { q with up := rest })).move
        (sys.primary.step env (.request link r)))
  /-- A client of a replica, or the round over its waiting clients. -/
  | replica {sys : Cluster F} {link : ℤ} {q : Peer F} (env : Env) {event : Event} :
      sys.peers link = some q → event.isLocal = true →
      (q.server.masterFd = some q.fd → event.fd? ≠ some q.fd) → event.Carries Q →
      Lossless q.fd (sent q.server (q.server.step env event)) →
      Step P Q sys (sys.setPeer link (some (q.move (q.server.step env event))))
  /-- A replica hangs up. -/
  | leave {sys : Cluster F} {link : ℤ} (env : Env) : (sys.peers link).isSome →
      sys.Delivers (sys.primary.step env (.hangup link)) →
      Step P Q sys ((sys.setPeer link none).move (sys.primary.step env (.hangup link)))

/-- The offsets of the stream are in the range of a `long long`. -/
def Small (s : Server F) : Prop := (streamBytes s.stream).length < 2 ^ 63

/-- The replica has run the first writes since it was registered, in order, and its offset counts
the bytes of the items. -/
structure Consumed (s : Server F) (q : Peer F) (done : List Propagation) : Prop where
  offset : Small s →
    q.server.replicaOffset = (streamBytes (s.stream.take q.since ++ done)).length
  executed : (writes done).Sublist (q.server.calls.map Call.args)

/-- The clients use no deadlines and automatic IDs, and those of the replicas only read. -/
def Faithful (P Q : List Bytes → Prop) : Prop :=
  (∀ args, P args → TrueStore.Plain args) ∧ ∀ args, Q args → Reads args

/-- The bytes on their way, while the link is up at the replica. The replica has followed the
stream up to some item, the next items are on their way, and possibly the refusal of an
acknowledgement after them. -/
structure InFlight (P Q : List Bytes → Prop) (client : ClientState) (s : Server F) (q : Peer F) :
    Prop where
  follows : Following P Q q.fd q.server
  partly : Partial q.server.masterBuffer
  stream : ∃ (done rest more : List Propagation) (tail : Bytes),
    s.stream.drop q.since = done ++ rest ++ more ∧
    q.server.masterBuffer ++ q.down = streamBytes rest ++ tail ∧ Consumed s q done ∧
    (Faithful P Q → writes (s.stream.take q.since) = [] →
      loggedArgs q.server.calls = writes done) ∧
    (tail = [] ∧ more = [] ∨ tail.head? = some 45 ∧ client.authenticated = false)

/-- A registered replica, seen from both ends. -/
structure Linked (P Q : List Bytes → Prop) (link : ℤ) (client : ClientState) (s : Server F)
    (q : Peer F) : Prop where
  unused : Unused link client s
  registered : s.replicas.contains link = true
  since : q.since ≤ s.stream.length
  acks : ∀ payload ∈ q.up, IsAck q.server.replicaOffset payload
  server : ∃ config replid offset events,
    q.server = run events (boot config replid (some (q.fd, offset)))
  link : q.server.masterFd = some q.fd ∨ q.server.masterFd = none
  consumed : ∃ done, done <+: s.stream.drop q.since ∧ Consumed s q done
  inFlight : q.server.masterFd = some q.fd → InFlight P Q client s q
  up : client.authenticated = true → q.server.masterFd = some q.fd

structure Primary (P : List Bytes → Prop) (config : Config) (replid : ReplId) (s : Server F) :
    Prop where
  run : ∃ events, s = run events (Server.start config replid) ∧ ∀ e ∈ events, e.2.Carries P
  items : ∀ p ∈ s.stream, Streamable P p.args
  fixed : s.fixed = (replid.text, 0, false)
  masterFd : s.masterFd = none
  tracked : s.Tracked fun _ _ => True

section Primary

variable {P Q : List Bytes → Prop} {config : Config} {replid : ReplId} {s : Server F}

theorem Primary.start (config : Config) (replid : ReplId) :
    Primary P config replid (Server.start config replid : Server F) where
  run := ⟨[], rfl, fun e he => by cases he⟩
  items p hp := by cases hp
  fixed := rfl
  masterFd := rfl
  tracked := tracked_start _ config replid

theorem Primary.logged (k : Kinds P Q) (h : Primary P config replid s) :
    s.Logged P Always ∧ s.Streamed := by
  obtain ⟨events, rfl, he⟩ := h.run
  have hstart : (Server.start config replid : Server F).Logged P Always :=
    logged_start config replid
  obtain ⟨hl, hs, -⟩ := logged_run k.pops he (fun _ _ _ _ => trivial) hstart
    (streamed_start config replid)
  exact ⟨hl, hs⟩

theorem Primary.settled (k : Kinds P Q) (h : Primary P config replid s) : s.Settled P :=
  (h.logged k).1.settled

theorem Primary.numbered (h : Primary P config replid s) : s.Numbered := by
  obtain ⟨events, rfl, -⟩ := h.run
  exact (stable_numbered.holds_run (numbered_boot config replid none) events).holds

theorem Primary.masterReplid (h : Primary P config replid s) : s.store.masterReplid = replid.text :=
  congrArg Prod.fst h.fixed

theorem Primary.halted (h : Primary P config replid s) : s.halted = false :=
  congrArg (·.2.2) h.fixed

theorem Primary.step (k : Kinds P Q) (h : Primary P config replid s) (env : Env) (event : Event)
    (hl : event.isLocal = true) (he : event.Carries P) :
    Primary P config replid (s.step env event) where
  run := by
    obtain ⟨events, rfl, hall⟩ := h.run
    refine ⟨events ++ [(env, event)], by rw [run_append]; rfl, ?_⟩
    exact List.forall_mem_append.mpr ⟨hall, List.forall_mem_singleton.mpr he⟩
  items := by
    obtain ⟨items, hstream, hitems⟩ := streams_step k.pops (h.settled k) env he hl
    rw [hstream]
    exact List.forall_mem_append.mpr ⟨h.items, hitems⟩
  fixed := (fixed_step (h.settled k).block env hl).trans h.fixed
  masterFd := by
    have hclock : ∀ n i, Always (env.clock n i) := fun _ _ => trivial
    obtain ⟨_, _, _, hadv, -⟩ := accounted_step k.pops (h.settled k) hclock he (.inr hl)
    exact hadv.masterFd.trans h.masterFd
  tracked := by
    obtain ⟨_, hanswered, -⟩ := answered_step h.tracked (h.settled k).block (h.settled k).pending
      env hl fun _ _ _ _ _ _ => trivial
    exact hanswered.tracked

theorem isSome_commandName_of_mem_loggedArgs {calls : List (Call F)} {args : List Bytes}
    (h : args ∈ loggedArgs calls) : (commandName (upperName args)).isSome = true := by
  obtain ⟨c, hc, rfl⟩ := List.mem_map.mp h
  have hlogged := (List.mem_filter.mp hc).2
  cases c with
  | pop data key =>
    have hknown : (commandName (ascii "LPOP")).isSome = true := by decide
    exact hknown
  | run clock data args =>
    by_contra hnone
    rw [Bool.not_eq_true, Option.isSome_eq_false_iff, Option.isNone_iff_eq_none] at hnone
    replace hnone : commandName (upperName args) = none := hnone
    simp [Call.logged, Call.result, execute, dataCommand, hnone, unknownCommand] at hlogged

theorem Primary.item (k : Kinds P Q) (h : Primary P config replid s) :
    ∀ p ∈ s.stream, Item P p.args := by
  intro p hp
  rcases h.items p hp with ⟨hw, hP⟩ | hget
  · refine .inl ⟨hw, hP, ?_⟩
    have hlogged : p.args ∈ loggedArgs s.calls := by
      rw [← (h.logged k).2.writes]
      exact List.mem_filter.mpr ⟨List.mem_map_of_mem hp, hw⟩
    exact isSome_commandName_of_mem_loggedArgs hlogged
  · exact .inr hget

theorem Primary.accepts_of_plain (k : Kinds P Q) (h : Primary P config replid s)
    (hP : ∀ args, P args → TrueStore.Plain args) :
    Journal.Accepts write Always (writes s.stream) (· = s.store.toKeyspace) {} := by
  obtain ⟨hl, hs⟩ := h.logged k
  rw [hs.writes]
  exact TrueStore.accepts_of_plain hl.chain (fun c hc => (hl.fits c hc).imp hP) Always

theorem Primary.accepts (h : Primary TrueStore.Plain config replid s) :
    Journal.Accepts write Always (writes s.stream) (· = s.store.toKeyspace) {} :=
  h.accepts_of_plain kinds_plain fun _ hP => hP

end Primary

section Feed

variable {P Q : List Bytes → Prop} {link : ℤ} {client : ClientState} {s s' : Server F}
  {q : Peer F}

theorem Consumed.feed {done : List Propagation} (h : Consumed s q done)
    (hsince : q.since ≤ s.stream.length) {items : List Propagation}
    (hstream : s'.stream = s.stream ++ items) (down : Bytes) :
    Consumed s' { q with down } done := by
  refine ⟨fun hsmall => ?_, h.executed⟩
  have hsmall' : Small s := by
    unfold Small at hsmall ⊢
    rw [hstream, streamBytes_append, List.length_append] at hsmall
    omega
  rw [hstream, List.take_append_of_le_length hsince]
  exact h.offset hsmall'

theorem InFlight.feed (h : InFlight P Q client s q) (hsince : q.since ≤ s.stream.length)
    {items : List Propagation} (hstream : s'.stream = s.stream ++ items) :
    InFlight P Q client s'
      { q with down := q.down ++ (items.map (encode ·.args)).flatten } := by
  obtain ⟨done, rest, more, tail, hdrop, hbytes, hconsumed, hlogged, hend⟩ := h.stream
  have hdrop' : s'.stream.drop q.since = s.stream.drop q.since ++ items := by
    rw [hstream, List.drop_append_of_le_length hsince]
  have htake : s'.stream.take q.since = s.stream.take q.since := by
    rw [hstream, List.take_append_of_le_length hsince]
  have hitems : (items.map (encode ·.args)).flatten = streamBytes items := by
    rw [streamBytes, List.flatMap_def]
  have hconsumed' := hconsumed.feed hsince hstream
    (q.down ++ (items.map (encode ·.args)).flatten)
  refine ⟨h.follows, h.partly, ?_⟩
  rcases hend with ⟨rfl, rfl⟩ | ⟨htail, hauth⟩
  · refine ⟨done, rest ++ items, [], [], ?_, ?_, hconsumed', ?_, .inl ⟨rfl, rfl⟩⟩
    · rw [hdrop', hdrop]
      simp
    · dsimp only
      rw [← List.append_assoc, hbytes, streamBytes_append, hitems]
      simp
    · rw [htake]
      exact hlogged
  · refine ⟨done, rest, more ++ items, tail ++ streamBytes items, ?_, ?_, hconsumed', ?_,
      .inr ⟨?_, hauth⟩⟩
    · rw [hdrop', hdrop]
      simp
    · dsimp only
      rw [← List.append_assoc, hbytes, hitems]
      simp
    · rw [htake]
      exact hlogged
    · cases tail with
      | nil => cases htail
      | cons b tail => exact htail

theorem Linked.feed (h : Linked P Q link client s q) (hfeeds : Feeds link s s')
    (hl : Lossless link (sent s s')) :
    Linked P Q link client s'
      { q with down := q.down ++ (payloadsTo link (sent s s')).flatten } := by
  obtain ⟨items, new, hstream, hsends, hfeed⟩ := hfeeds
  rw [sent_eq hsends] at hl ⊢
  obtain ⟨hspares, hpayloads⟩ := hfeed hl h.unused.apart
  obtain ⟨done, hdone, hconsumed⟩ := h.consumed
  rw [hpayloads, if_pos h.registered]
  refine ⟨⟨hspares.apart, hspares.client.trans h.unused.connected, h.unused.subscriptions,
    h.unused.inMulti, h.unused.stays⟩, ?_, ?_, h.acks, h.server, h.link, ⟨done, ?_,
    hconsumed.feed h.since hstream _⟩, fun hm => ?_, h.up⟩
  · rw [Std.ExtTreeMap.contains_eq_isSome_getElem?, hspares.replica,
      ← Std.ExtTreeMap.contains_eq_isSome_getElem?]
    exact h.registered
  · rw [hstream, List.length_append]
    exact h.since.trans (Nat.le_add_right _ _)
  · dsimp only
    rw [hstream, List.drop_append_of_le_length h.since]
    exact hdone.trans (List.prefix_append _ _)
  · exact (h.inFlight hm).feed h.since hstream

end Feed

section Requests

variable {P Q R : List Bytes → Prop} {link : ℤ} {client : ClientState} {s : Server F}
  {q : Peer F} {env : Env} {args : List Bytes} {reply : Bytes} {r : Request} {offset : ℤ}

theorem Unused.idle (h : Unused link client s) (hs : s.Settled R)
    (hack : s.ackText args client = none)
    (hr : handleCommand (env.clock 0) args s.store client = (reply, s.store, client))
    (hw : isWriteCommand (upperName args) = false) (hreply : reply ≠ []) :
    (s.command env link args).stream = s.stream ∧
      (Lossless link (sent s (s.command env link args)) →
        payloadsTo link (sent s (s.command env link args)) = [reply] ∧
        Unused link client (s.command env link args) ∧
        (s.command env link args).replicas[link]? =
          (s.answered env link args client.inMulti).replicas[link]?) := by
  obtain ⟨hstream, new, hsends, hidle⟩ :=
    command_idle h.connected hack hr hs hw hreply h.stays h.apart
  refine ⟨hstream, fun hl => ?_⟩
  rw [sent_eq hsends] at hl ⊢
  obtain ⟨hpayloads, hspares⟩ := hidle hl
  have hget : s.clients.getD link {} = client := by
    simp [Std.ExtTreeMap.getD_eq_getD_getElem?, h.connected]
  have hclient : (s.answered env link args client.inMulti).clients[link]? = some client := by
    unfold answered register
    split <;> simp [handle, hget, hr]
  exact ⟨hpayloads, ⟨hspares.apart, hspares.client.trans hclient, h.subscriptions, h.inMulti,
    h.stays⟩, hspares.replica⟩

theorem args_of_isAck (h : IsAck offset r.bytes) :
    ∃ n ≤ offset, r.args = [ascii "REPLCONF", ascii "ACK", decimalInt n] := by
  obtain ⟨n, hle, hn⟩ := h
  have hlt : (encode [ascii "REPLCONF", ascii "ACK", decimalInt n]).length < 2 ^ 63 := by
    rw [← hn]
    exact r.bytes_lt
  let ack : Request := ⟨[ascii "REPLCONF", ascii "ACK", decimalInt n], by simp [maxSize], hlt⟩
  have hparse := parseCommand_encode r []
  have hparse' := parseCommand_encode ack []
  have hbytes : ack.bytes = r.bytes := hn.symm
  rw [hbytes, hparse] at hparse'
  injection hparse' with hparse'
  injection hparse' with hparse'
  exact ⟨n, hle, congrArg Prod.fst hparse'⟩

theorem name_of_isAck (h : IsAck offset r.bytes) : upperName r.args = ascii "REPLCONF" := by
  obtain ⟨n, -, hn⟩ := args_of_isAck h
  rw [hn]
  rfl

/-- The bytes on their way do not matter for what has been consumed. -/
theorem Consumed.congr {s' : Server F} {done : List Propagation} (h : Consumed s q done)
    (hstream : s'.stream = s.stream) (down : Bytes) : Consumed s' { q with down } done := by
  refine ⟨fun hsmall => ?_, h.executed⟩
  unfold Small at hsmall
  rw [hstream] at hsmall ⊢
  exact h.offset hsmall

theorem InFlight.refuse (h : InFlight P Q client s q) (hauth : client.authenticated = false)
    {s' : Server F} (hstream : s'.stream = s.stream) :
    InFlight P Q client s' { q with down := q.down ++ noAuth } := by
  obtain ⟨done, rest, more, tail, hdrop, hbytes, hconsumed, hlogged, hend⟩ := h.stream
  refine ⟨h.follows, h.partly, done, rest, more, tail ++ noAuth, ?_, ?_,
    hconsumed.congr hstream _, ?_, .inr ⟨?_, hauth⟩⟩
  · rw [hstream]
    exact hdrop
  · dsimp only
    rw [← List.append_assoc, hbytes, List.append_assoc]
  · rw [hstream]
    exact hlogged
  · rcases hend with ⟨rfl, -⟩ | ⟨htail, -⟩
    · rfl
    · cases tail with
      | nil => cases htail
      | cons b tail => exact htail

/-- A link that the primary does not touch, with fewer acknowledgements on their way. -/
theorem Linked.pop (h : Linked P Q link client s q) {payload : Bytes} {rest : List Bytes}
    (hq : q.up = payload :: rest) : Linked P Q link client s { q with up := rest } where
  unused := h.unused
  registered := h.registered
  since := h.since
  acks p hp := h.acks p (by rw [hq]; exact List.mem_cons_of_mem _ hp)
  server := h.server
  link := h.link
  consumed := by
    obtain ⟨done, hdone, hconsumed⟩ := h.consumed
    exact ⟨done, hdone, hconsumed.offset, hconsumed.executed⟩
  inFlight hm := by
    obtain ⟨done, rest, more, tail, hdrop, hbytes, hconsumed, hlogged, hend⟩ :=
      (h.inFlight hm).stream
    exact ⟨(h.inFlight hm).follows, (h.inFlight hm).partly, done, rest, more, tail, hdrop, hbytes,
      ⟨hconsumed.offset, hconsumed.executed⟩, hlogged, hend⟩
  up := h.up

theorem Linked.note (h : Linked P Q link client s q) (text : Bytes) :
    Linked P Q link client (s.acknowledge link text) q := by
  unfold Server.acknowledge
  split
  · rename_i offset _
    rw [if_pos h.registered]
    refine ⟨⟨⟨h.unused.apart.waiting, h.unused.apart.messages, h.unused.apart.subscribed⟩,
      h.unused.connected, h.unused.subscriptions, h.unused.inMulti, h.unused.stays⟩, by simp,
      h.since, h.acks, h.server, h.link, ?_, fun hm => ?_, h.up⟩
    · obtain ⟨done, hdone, hconsumed⟩ := h.consumed
      exact ⟨done, hdone, hconsumed.offset, hconsumed.executed⟩
    · obtain ⟨done, rest, more, tail, hdrop, hbytes, hconsumed, hlogged, hend⟩ :=
        (h.inFlight hm).stream
      exact ⟨(h.inFlight hm).follows, (h.inFlight hm).partly, done, rest, more, tail, hdrop,
        hbytes, ⟨hconsumed.offset, hconsumed.executed⟩, hlogged, hend⟩
  · exact h

theorem Linked.refuse (h : Linked P Q link client s q) (hs : s.Settled R)
    (hname : upperName args = ascii "REPLCONF") (hclient : client.authenticated = false)
    (hstore : s.store.defaultUserAutoAuth = false) (hack : s.ackText args client = none)
    (hl : Lossless link (sent s (s.command env link args))) :
    Linked P Q link client (s.command env link args)
      { q with
        down := q.down ++ (payloadsTo link (sent s (s.command env link args))).flatten } := by
  have hgate : ascii "REPLCONF" ≠ ascii "AUTH" ∧ ascii "REPLCONF" ≠ ascii "QUIT" ∧
      ascii "REPLCONF" ≠ ascii "RESET" := by decide
  have hne : args ≠ [] := by
    rintro rfl
    exact absurd hname (by decide)
  have hrefusal : refusal args s.store client = some noAuth := by
    simp only [refusal, if_neg hne, hname, hclient, hstore, Bool.not_false, hgate, ne_eq,
      not_false_eq_true, and_self, if_true]
  have hrefused : handleCommand (env.clock 0) args s.store client = (noAuth, s.store, client) := by
    simp only [handleCommand, hrefusal]
  have hregistered : (s.answered env link args client.inMulti).replicas = s.replicas := by
    unfold answered register
    rw [if_neg fun hp => absurd (hname.symm.trans hp.1) (by decide)]
    rfl
  obtain ⟨hstream, hidle⟩ := h.unused.idle hs hack hrefused (by rw [hname]; decide) (by decide)
  obtain ⟨hpayloads, hunused, hreplica⟩ := hidle hl
  rw [hpayloads]
  obtain ⟨done, hdone, hconsumed⟩ := h.consumed
  refine ⟨hunused, ?_, by rw [hstream]; exact h.since, h.acks, h.server, h.link,
    ⟨done, by rw [hstream]; exact hdone, hconsumed.congr hstream _⟩, fun hm => ?_, h.up⟩
  · rw [Std.ExtTreeMap.contains_eq_isSome_getElem?, hreplica, hregistered,
      ← Std.ExtTreeMap.contains_eq_isSome_getElem?]
    exact h.registered
  · simpa using (h.inFlight hm).refuse hclient hstream

theorem Linked.acknowledge (h : Linked P Q link client s q) (hs : s.Settled R)
    (hmaster : s.masterFd = none) (hack : IsAck offset r.bytes)
    (hl : Lossless link (sent s (s.step env (.request link r)))) :
    Linked P Q link client (s.step env (.request link r))
      { q with
        down := q.down ++ (payloadsTo link (sent s (s.step env (.request link r)))).flatten } := by
  cases hhalted : s.halted with
  | true =>
    have hstep : s.step env (.request link r) = s := by simp [step, hhalted]
    rw [hstep, sent_same rfl]
    simpa [payloadsTo] using h
  | false =>
    obtain ⟨n, -, hargs⟩ := args_of_isAck hack
    have hname : toUpper (ascii "REPLCONF") = ascii "REPLCONF" ∧
        toUpper (ascii "ACK") = ascii "ACK" := by decide
    have hstep : s.step env (.request link r) = s.command env link r.args := by
      simp [step, hhalted, hmaster]
    rw [hstep] at hl ⊢
    by_cases hauth : (client.authenticated || s.store.defaultUserAutoAuth) = true
    · have htext : s.ackText r.args client = some (decimalInt n) := by
        rw [hargs]
        simp only [ackText, hauth, h.unused.subscriptions, hname, decide_true, Bool.and_self,
          if_true]
      have hcommand : s.command env link r.args = s.acknowledge link (decimalInt n) := by
        simp only [command, h.unused.connected, htext]
      have hsent : sent s (s.acknowledge link (decimalInt n)) = [] := by
        refine sent_same ?_
        unfold Server.acknowledge
        split <;> rfl
      rw [hcommand, hsent]
      simpa [payloadsTo] using h.note (decimalInt n)
    · obtain ⟨hclient, hstore⟩ : client.authenticated = false ∧
          s.store.defaultUserAutoAuth = false := by simpa using hauth
      have hnone : s.ackText r.args client = none := by
        rw [hargs]
        simp [ackText, hclient, hstore]
      exact h.refuse hs (by rw [hargs]; exact hname.1) hclient hstore hnone hl

end Requests

section Deliver

variable {P Q : List Bytes → Prop} {link : ℤ} {client : ClientState} {s : Server F} {q : Peer F}
  {env : Env} {chunk rest : Bytes}

theorem isAck_move {server : Server F}
    (h : ∀ payload ∈ q.up, IsAck q.server.replicaOffset payload)
    (hle : q.server.replicaOffset ≤ server.replicaOffset)
    (hsends : ∃ new, server.sends = q.server.sends ++ new ∧
      ∀ m ∈ new, m.fd = q.fd ∧ IsAck server.replicaOffset m.payload) :
    ∀ payload ∈ (q.move server).up, IsAck server.replicaOffset payload := by
  obtain ⟨new, hnew, hacks⟩ := hsends
  intro payload hp
  simp only [Peer.move, sent_eq hnew, List.mem_append] at hp
  rcases hp with hp | hp
  · exact (h payload hp).mono hle
  · split at hp
    · obtain ⟨m, hm, rfl⟩ := List.mem_map.mp hp
      exact (hacks m (List.mem_of_mem_filter hm)).2
    · cases hp

theorem Consumed.advance {q' : Peer F} {done items : List Propagation} {rs : List Request}
    (h : Consumed s q done) (hsince : q'.since = q.since)
    (hargs : rs.map Request.args = items.map (·.args))
    (hoffset : q'.server.replicaOffset = q.server.replicaOffset + (wire rs).length)
    (hcalls : ∃ new : List (Call F), q'.server.calls = q.server.calls ++ new ∧
      new.map Call.args = rs.flatMap fun r => itemWrites r.args) :
    Consumed s q' (done ++ items) where
  offset hsmall := by
    rw [hoffset, h.offset hsmall, hsince, wire_eq hargs, ← List.append_assoc,
      streamBytes_append (s.stream.take q.since ++ done), List.length_append]
    push_cast
    rfl
  executed := by
    obtain ⟨new, hnew, hnewArgs⟩ := hcalls
    rw [writes_append, hnew, List.map_append, hnewArgs, writes_of_requests hargs]
    exact h.executed.append (List.Sublist.refl _)

/-- The next bytes are those of some items and a part of another one, or go beyond the items. -/
theorem InFlight.cut (k : Kinds P Q) {rest' : List Propagation} {tail : Bytes}
    (hitems : ∀ p ∈ rest', Item P p.args) (hdown : q.down = chunk ++ rest)
    (hbytes : q.server.masterBuffer ++ q.down = streamBytes rest' ++ tail) :
    (∃ j rs part, rs.map Request.args = (rest'.take j).map (·.args) ∧ Partial part ∧
        q.server.masterBuffer ++ chunk = wire rs ++ part ∧
        part ++ rest = streamBytes (rest'.drop j) ++ tail) ∨
      ∃ rs junk, rs.map Request.args = rest'.map (·.args) ∧ tail.head? = junk.head? ∧ junk ≠ [] ∧
        q.server.masterBuffer ++ chunk = wire rs ++ junk := by
  obtain ⟨rs, hargs⟩ := exists_wire k hitems
  rw [hdown, ← List.append_assoc, ← wire_eq hargs] at hbytes
  have hpre : q.server.masterBuffer ++ chunk <+: wire rs ++ tail := ⟨rest, hbytes⟩
  rcases List.prefix_or_prefix_of_prefix hpre (List.prefix_append _ _) with hp | ⟨junk, hjunk⟩
  · obtain ⟨j, part, hcut, hpart⟩ := wire_cut rs hp
    refine .inl ⟨j, rs.take j, part, by rw [List.map_take, hargs, List.map_take],
      hpart.imp id fun ⟨r, _, h⟩ => ⟨r, h⟩, hcut, ?_⟩
    have hdrop : wire (rs.drop j) = streamBytes (rest'.drop j) :=
      wire_eq (by rw [List.map_drop, hargs, List.map_drop])
    have hsplit : wire rs = wire (rs.take j) ++ wire (rs.drop j) := by
      rw [← wire_append, List.take_append_drop]
    rw [hcut, hsplit, List.append_assoc, List.append_assoc] at hbytes
    rw [← hdrop]
    exact List.append_cancel_left hbytes
  · by_cases hnil : junk = []
    · subst hnil
      refine .inl ⟨rest'.length, rs, [], by simpa using hargs, .inl rfl, by simp [← hjunk], ?_⟩
      rw [← hjunk, List.append_nil] at hbytes
      simpa [streamBytes] using List.append_cancel_left hbytes
    · refine .inr ⟨rs, junk, hargs, ?_, hnil, hjunk.symm⟩
      rw [← hjunk, List.append_assoc] at hbytes
      rw [← List.append_cancel_left hbytes]
      cases junk with
      | nil => exact absurd rfl hnil
      | cons b junk => rfl

/-- The replica follows the items that have arrived, unless a refusal breaks the link. -/
theorem InFlight.arrive (k : Kinds P Q) (h : InFlight P Q client s q)
    (hitems : ∀ p ∈ s.stream, Item P p.args)
    (hprimary : Faithful P Q →
      Journal.Accepts write Always (writes s.stream) (· = s.store.toKeyspace) {})
    (hdown : q.down = chunk ++ rest) (env : Env) :
    (∃ new, (q.server.fromMaster env chunk).sends = q.server.sends ++ new ∧
        ∀ m ∈ new, m.fd = q.fd ∧
          IsAck (q.server.fromMaster env chunk).replicaOffset m.payload) ∧
      (∃ done, done <+: s.stream.drop q.since ∧
        Consumed s { q.move (q.server.fromMaster env chunk) with down := rest } done) ∧
      (InFlight P Q client s { q.move (q.server.fromMaster env chunk) with down := rest } ∨
        ((q.server.fromMaster env chunk).masterFd = none ∧ client.authenticated = false)) := by
  obtain ⟨done, rest', more, tail, hdrop, hbytes, hconsumed, hlogged, hend⟩ := h.stream
  have hrest : ∀ p ∈ rest', Item P p.args := fun p hp =>
    hitems p (List.mem_of_mem_drop (by rw [hdrop]; simp [hp]))
  have hrequests : ∀ {rs : List Request} {items : List Propagation}, (∀ p ∈ items, p ∈ rest') →
      rs.map Request.args = items.map (·.args) → ∀ r ∈ rs, Item P r.args := by
    intro rs items hsub hargs r hr
    have hmem : r.args ∈ items.map (·.args) := hargs ▸ List.mem_map_of_mem hr
    obtain ⟨p, hp, he⟩ := List.mem_map.mp hmem
    rw [← he]
    exact hrest p (hsub p hp)
  rcases InFlight.cut k hrest hdown hbytes with
    ⟨j, rs, part, hargs, hpart, hb, hnext⟩ | ⟨rs, junk, hargs, hhead, hne, hb⟩
  · obtain ⟨hbuffer, hfollowed⟩ := followed_fromMaster env h.follows
      (hrequests (fun p hp => List.mem_of_mem_take hp) hargs) hb hpart
    have hf := hfollowed.follows
    have hdrop' : s.stream.drop q.since =
        done ++ rest'.take j ++ rest'.drop j ++ more := by
      rw [hdrop, List.append_assoc done (rest'.take j), List.take_append_drop]
    have hconsumed' : Consumed s { q.move (q.server.fromMaster env chunk) with down := rest }
        (done ++ rest'.take j) :=
      hconsumed.advance rfl hargs hfollowed.offset hfollowed.calls
    have hpre : done ++ rest'.take j <+: s.stream.drop q.since := by
      rw [hdrop', List.append_assoc]
      exact List.prefix_append _ _
    refine ⟨hfollowed.sends, ⟨_, hpre, hconsumed'⟩, .inl ⟨hf.adjust _ _ _ _,
      by rw [← hbuffer] at hpart; exact hpart, done ++ rest'.take j, rest'.drop j, more, tail,
      hdrop', ?_, hconsumed', fun hfaithful hfirst => ?_, hend⟩⟩
    · dsimp only [Peer.move]
      rw [hbuffer, hnext]
    · replace hfirst : writes (s.stream.take q.since) = [] := hfirst
      -- what the primary accepted next is accepted by the replica, whose data are the same
      have hwrites : writes s.stream = writes done ++
          (writes (rest'.take j) ++ (writes (rest'.drop j) ++ writes more)) := by
        rw [← List.take_append_drop q.since s.stream, writes_append, hfirst, hdrop,
          ← writes_append, ← writes_append, ← writes_append, ← List.append_assoc (rest'.take j),
          List.take_append_drop, List.append_assoc]
        rfl
      have hplain : ∀ c ∈ q.server.calls, c.Fits TrueStore.Plain Always := fun c hc =>
        (h.follows.fits c hc).imp hfaithful.1
      have hreplica := accepts_of_plain h.follows.chain hplain Always
      have haccepts := hprimary hfaithful
      rw [hlogged hfaithful hfirst] at hreplica
      rw [hwrites, Journal.accepts_append] at haccepts
      have hhere := Journal.Accepts.of_reached ⟨fun _ => ⟨0, 0⟩, trivial⟩ haccepts hreplica
      rw [Journal.accepts_append, ← writes_of_requests hargs] at hhere
      obtain ⟨-, hcalls⟩ := hfollowed.logged hhere
      dsimp only [Peer.move] at hcalls ⊢
      rw [hcalls, hlogged hfaithful hfirst, writes_of_requests hargs, writes_append]
  · rcases hend with ⟨rfl, -⟩ | ⟨htail, hauth⟩
    · cases junk with
      | nil => exact absurd rfl hne
      | cons b junk => cases hhead
    · cases junk with
      | nil => exact absurd rfl hne
      | cons b junk =>
        rw [htail] at hhead
        cases hhead
        obtain ⟨hnone, hoffset, hcalls, hsends⟩ := fromMaster_refused env h.follows
          (hrequests (fun p hp => hp) hargs) hb
        exact ⟨hsends, ⟨done ++ rest', by simp [hdrop],
          hconsumed.advance rfl hargs hoffset hcalls⟩, .inr ⟨hnone, hauth⟩⟩

theorem Linked.deliver (k : Kinds P Q) (h : Linked P Q link client s q)
    (hitems : ∀ p ∈ s.stream, Item P p.args)
    (hprimary : Faithful P Q →
      Journal.Accepts write Always (writes s.stream) (· = s.store.toKeyspace) {})
    (hdown : q.down = chunk ++ rest) (env : Env) :
    Linked P Q link client s
      { q.move (q.server.step env (.chunk chunk)) with down := rest } := by
  have hserver : ∃ config replid offset events, q.server.step env (.chunk chunk) =
      run events (boot config replid (some (q.fd, offset))) := by
    obtain ⟨config, replid, offset, events, he⟩ := h.server
    exact ⟨config, replid, offset, events ++ [(env, .chunk chunk)], by rw [run_append, ← he]; rfl⟩
  rcases h.link with hm | hm
  · have hflight := h.inFlight hm
    have hstep : q.server.step env (.chunk chunk) = q.server.fromMaster env chunk := by
      simp [step, hflight.follows.halted]
    obtain ⟨hsends, hconsumed, hcases⟩ := hflight.arrive k hitems hprimary hdown env
    obtain ⟨hlink, hle⟩ := link_fromMaster env chunk q.server
    rw [hm] at hlink
    rw [hstep] at hserver ⊢
    rcases hcases with hnew | ⟨hnone, hauth⟩
    · exact ⟨h.unused, h.registered, h.since, isAck_move h.acks hle hsends, hserver, hlink,
        hconsumed, fun _ => hnew, fun _ => hnew.follows.masterFd⟩
    · refine ⟨h.unused, h.registered, h.since, isAck_move h.acks hle hsends, hserver, hlink,
        hconsumed, fun hm' => ?_, fun hauth' => ?_⟩
      · exact absurd (hnone.symm.trans hm') (by simp)
      · rw [hauth] at hauth'
        cases hauth'
  · have hne : q.server.masterFd ≠ some q.fd := by simp [hm]
    -- nothing arrives any more
    have hstep : q.server.step env (.chunk chunk) = q.server := by
      simp [step, fromMaster, hm]
    obtain ⟨done, hdone, hconsumed⟩ := h.consumed
    rw [hstep] at hserver ⊢
    refine ⟨h.unused, h.registered, h.since, ?_, hserver, .inr hm,
      ⟨done, hdone, hconsumed.offset, hconsumed.executed⟩, fun hfd => absurd hfd hne,
      fun hauth => absurd (h.up hauth) hne⟩
    simpa [Peer.move, hne] using h.acks

end Deliver

section Replica

variable {P Q : List Bytes → Prop} {link : ℤ} {client : ClientState} {s : Server F} {q : Peer F}
  {env : Env} {event : Event}

theorem Consumed.local {done : List Propagation} (h : Consumed s q done) {server : Server F}
    (hoffset : server.replicaOffset = q.server.replicaOffset) {calls : List (Call F)}
    (hcalls : server.calls = q.server.calls ++ calls) : Consumed s (q.move server) done := by
  refine ⟨fun hsmall => hoffset.trans (h.offset hsmall), ?_⟩
  dsimp only [Peer.move]
  rw [hcalls, List.map_append]
  exact h.executed.trans (List.sublist_append_left _ _)

theorem InFlight.local (k : Kinds P Q) (h : InFlight P Q client s q) (hnum : q.server.Numbered)
    (hl : event.isLocal = true) (hfd : event.fd? ≠ some q.fd) (he : event.Carries Q)
    (hloss : Lossless q.fd (sent q.server (q.server.step env event))) :
    payloadsTo q.fd (sent q.server (q.server.step env event)) = [] ∧
      InFlight P Q client s (q.move (q.server.step env event)) := by
  have hf := h.follows
  have hclock : ∀ n i, Always (env.clock n i) := fun _ _ => trivial
  obtain ⟨calls, _, _, hadv, -, -⟩ := accounted_step k.popsLocal hf.settled hclock he (.inr hl)
  obtain ⟨items, new, -, hsends, hfeed⟩ := feeds_step hf.apart hnum env hl hfd
  have hoffset := congrArg (·.2.1) (fixed_step hf.settled.block env hl)
  rw [sent_eq hsends] at hloss
  obtain ⟨hspares, hpayloads⟩ := hfeed hloss hf.apart
  have hnone : q.server.replicas.contains q.fd = false := by
    rw [Std.ExtTreeMap.contains_eq_isSome_getElem?, hf.replica]
    rfl
  rw [hnone, if_neg (by simp)] at hpayloads
  rw [sent_eq hsends]
  refine ⟨hpayloads, ⟨?_, ?_, ?_⟩⟩
  · refine ⟨hspares.masterFd.trans hf.masterFd, hspares.halted.trans hf.halted, hspares.apart,
      hspares.client.trans hf.client, hspares.replica.trans hf.replica, ?_, ?_, hadv.settled⟩
    · dsimp only [Peer.move]
      rw [hadv.calls_eq]
      exact hf.chain.trans hadv.chain
    · intro c hc
      dsimp only [Peer.move] at hc
      rw [hadv.calls_eq] at hc
      rcases List.mem_append.mp hc with hc | hc
      · exact hf.fits c hc
      · exact Call.Fits.imp (hadv.fits c hc) k.sub
  · dsimp only [Peer.move]
    rw [hspares.buffer hf.masterFd]
    exact h.partly
  · obtain ⟨done, rest, more, tail, hdrop, hbytes, hconsumed, hlogged, hend⟩ := h.stream
    refine ⟨done, rest, more, tail, hdrop, ?_, hconsumed.local hoffset hadv.calls_eq,
      fun hfaithful hfirst => ?_, hend⟩
    · dsimp only [Peer.move]
      rw [hspares.buffer hf.masterFd]
      exact hbytes
    · have hreads : ∀ c ∈ calls, c.Fits Reads Always := fun c hc =>
        (hadv.fits c hc).imp hfaithful.2
      dsimp only [Peer.move]
      rw [hadv.calls_eq, loggedArgs_append, loggedArgs_of_reads hreads, List.append_nil]
      exact hlogged hfaithful hfirst

theorem Linked.local (k : Kinds P Q) (h : Linked P Q link client s q) (hl : event.isLocal = true)
    (hfd : q.server.masterFd = some q.fd → event.fd? ≠ some q.fd) (he : event.Carries Q)
    (hloss : Lossless q.fd (sent q.server (q.server.step env event))) :
    Linked P Q link client s (q.move (q.server.step env event)) := by
  obtain ⟨config, replid, offset, events, hrun⟩ := h.server
  have hserver : ∃ config replid offset events, q.server.step env event =
      run events (boot config replid (some (q.fd, offset))) :=
    ⟨config, replid, offset, events ++ [(env, event)], by rw [run_append, ← hrun]; rfl⟩
  have hlogged : q.server.Logged Anything Always := by
    rw [hrun]
    exact Logged.run config replid (some (q.fd, offset)) events
  have hclock : ∀ n i, Always (env.clock n i) := fun _ _ => trivial
  obtain ⟨_, _, _, hadv, -⟩ :=
    accounted_step popClosed_anything hlogged.settled hclock event.carries_anything (.inr hl)
  have hoffset : (q.server.step env event).replicaOffset = q.server.replicaOffset :=
    congrArg (·.2.1) (fixed_step hlogged.settled.block env hl)
  have hlink : (q.server.step env event).masterFd = some q.fd ∨
      (q.server.step env event).masterFd = none := by
    rw [hadv.masterFd]
    exact h.link
  obtain ⟨done, hdone, hconsumed⟩ := h.consumed
  have hconsumed' := hconsumed.local hoffset hadv.calls_eq
  have hacks : ∀ payload ∈ q.up, IsAck (q.server.step env event).replicaOffset payload := by
    rw [hoffset]
    exact h.acks
  by_cases hm : q.server.masterFd = some q.fd
  · have hnum : q.server.Numbered := by
      rw [hrun]
      exact (stable_numbered.holds_run (numbered_boot config replid (some (q.fd, offset)))
        events).holds
    obtain ⟨hpayloads, hflight⟩ := (h.inFlight hm).local k hnum hl (hfd hm) he hloss
    refine ⟨h.unused, h.registered, h.since, ?_, hserver, hlink, ⟨done, hdone, hconsumed'⟩,
      fun _ => hflight, fun _ => hflight.follows.masterFd⟩
    simpa [Peer.move, hpayloads] using hacks
  · refine ⟨h.unused, h.registered, h.since, ?_, hserver, hlink, ⟨done, hdone, hconsumed'⟩,
      fun hm' => ?_, fun hauth => absurd (h.up hauth) hm⟩
    · simpa [Peer.move, hm] using hacks
    · exact absurd (hadv.masterFd.symm.trans hm') hm

end Replica

section Join

variable {P Q R : List Bytes → Prop} {link : ℤ} {client : ClientState} {s : Server F} {env : Env}
  {r : Request}

theorem handshake_noAuth : handshake noAuth = none := by decide

theorem handleCommand_psync (hu : Unused link client s) (clock : ℕ → Readings) :
    handleCommand clock psync s.store client = (noAuth, s.store, client) ∨
      handleCommand clock psync s.store client =
        ((s.store.handlePsync psync).1, s.store, client) := by
  have hname : upperName psync = ascii "PSYNC" := by decide
  by_cases hauth : (client.authenticated || s.store.defaultUserAutoAuth) = true
  · right
    have hrefusal : refusal psync s.store client = none := by
      have hboth : ¬((!client.authenticated) = true ∧ (!s.store.defaultUserAutoAuth) = true ∧
          upperName psync ≠ ascii "AUTH" ∧ upperName psync ≠ ascii "QUIT" ∧
          upperName psync ≠ ascii "RESET") := by
        rintro ⟨h, h', -⟩
        simp only [Bool.not_eq_true'] at h h'
        simp [h, h'] at hauth
      unfold refusal
      dsimp only
      rw [if_neg (by decide), if_neg hboth, if_neg fun h => by simp [hu.subscriptions] at h]
    have hcommand : commandName (ascii "PSYNC") = some .psync := by decide
    have hcontrol : ascii "PSYNC" ≠ ascii "QUIT" ∧ ascii "PSYNC" ≠ ascii "RESET" ∧
        ascii "PSYNC" ≠ ascii "MULTI" ∧ ascii "PSYNC" ≠ ascii "WATCH" ∧
        ascii "PSYNC" ≠ ascii "UNWATCH" ∧ ascii "PSYNC" ≠ ascii "DISCARD" ∧
        ascii "PSYNC" ≠ ascii "EXEC" := by decide
    simp only [handleCommand, hrefusal, runCommand, hname, hcontrol, or_self, if_false,
      hu.inMulti, Bool.false_eq_true, dispatchCommand, hcommand]
    rfl
  · left
    obtain ⟨hclient, hstore⟩ : client.authenticated = false ∧
        s.store.defaultUserAutoAuth = false := by simpa using hauth
    have hgate : ascii "PSYNC" ≠ ascii "AUTH" ∧ ascii "PSYNC" ≠ ascii "QUIT" ∧
        ascii "PSYNC" ≠ ascii "RESET" := by decide
    have hrefusal : refusal psync s.store client = some noAuth := by
      unfold refusal
      dsimp only
      rw [if_neg (by decide), hname, if_pos ⟨by simp [hclient], by simp [hstore], hgate⟩]
    simp only [handleCommand, hrefusal]

theorem Linked.join (hu : Unused link client s) (hs : s.Settled R) (ht : s.Tracked fun _ _ => True)
    (hmaster : s.masterFd = none) (hreplid : 13 ∉ s.store.masterReplid) (hargs : r.args = psync)
    (hl : Lossless link (sent s (s.step env (.request link r)))) {offset : ℤ} {down : Bytes}
    (hshake : handshake (payloadsTo link (sent s (s.step env (.request link r)))).flatten =
      some (offset, down)) (config : Config) (replid : ReplId) (fd : ℤ) :
    Linked P Q link client (s.step env (.request link r))
      { server := boot config replid (some (fd, offset))
        fd
        since := (s.step env (.request link r)).stream.length
        down } := by
  have hhalted : s.halted = false := by
    by_contra hne
    have hstep : s.step env (.request link r) = s := by simp [step, hne]
    have hnone : handshake [] = none := by decide
    rw [hstep, sent_same rfl] at hshake
    exact absurd (hnone.symm.trans hshake) (by simp)
  have hstep : s.step env (.request link r) = s.command env link psync := by
    simp [step, hhalted, hmaster, hargs]
  rw [hstep] at hl hshake ⊢
  have hack : s.ackText psync client = none := by
    have hname : toUpper (ascii "PSYNC") ≠ ascii "REPLCONF" := by decide
    simp [ackText, psync, hname]
  have hw : isWriteCommand (upperName psync) = false := by decide
  rcases handleCommand_psync hu (env.clock 0) with hr | hr
  · obtain ⟨-, hidle⟩ := hu.idle hs hack hr hw (by decide)
    rw [(hidle hl).1, List.flatten_singleton, handshake_noAuth] at hshake
    cases hshake
  · have hreply : (s.store.handlePsync psync).1 ≠ [] := by
      simp [Store.handlePsync, RespType.toBytes]
    obtain ⟨hstream, hidle⟩ := hu.idle hs hack hr hw hreply
    obtain ⟨hpayloads, hunused, hreplica⟩ := hidle hl
    have hread := handshake_psync hreplid psync []
    rw [List.append_nil] at hread
    rw [hpayloads, List.flatten_singleton, hread] at hshake
    obtain ⟨rfl, rfl⟩ := Prod.mk.inj (Option.some.inj hshake)
    have hconsumed : Consumed (s.command env link psync)
        { server := boot config replid
            (some (fd, initialOffset (43 :: s.store.fullresync ++ crlf)))
          fd
          since := (s.command env link psync).stream.length
          down := [] } [] := by
      refine ⟨fun hsmall => ?_, List.nil_sublist _⟩
      unfold Small at hsmall
      rw [List.append_nil, List.take_length]
      rw [hstream] at hsmall ⊢
      exact initialOffset_fullresync ht.offset hsmall
    refine ⟨hunused, ?_, le_rfl, by simp, ⟨config, replid, _, [], rfl⟩, .inl rfl,
      ⟨[], List.nil_prefix, hconsumed⟩, fun _ => ?_, fun _ => rfl⟩
    · have hget : s.clients.getD link {} = client := by
        simp [Std.ExtTreeMap.getD_eq_getD_getElem?, hu.connected]
      have herror : isError (s.store.handlePsync psync).1 = false := rfl
      have hanswered : (s.answered env link psync client.inMulti).replicas =
          s.replicas.insertIfNew link s.store.masterReplOffset := by
        unfold answered register
        rw [if_pos ?_]
        · simp [handle, hget, hr]
        · simp only [handle, hget, hr, hu.inMulti, herror]
          exact ⟨by decide, rfl, hreply, rfl⟩
      rw [Std.ExtTreeMap.contains_eq_isSome_getElem?, hreplica, hanswered,
        ← Std.ExtTreeMap.contains_eq_isSome_getElem?]
      simp
    · exact ⟨following_boot config replid fd _, .inl rfl, [], [], [], [], by simp, rfl,
        hconsumed, fun _ _ => rfl, .inl ⟨rfl, rfl⟩⟩

end Join

/-- The primary runs by itself, and every replica follows it. -/
structure Inv (P Q : List Bytes → Prop) (config : Config) (replid : ReplId) (sys : Cluster F) :
    Prop where
  primary : Primary P config replid sys.primary
  linked : ∀ link q, sys.peers link = some q → ∃ client, Linked P Q link client sys.primary q

def Timeless (args : List Bytes) : Prop := timeless args = true

/-- The requests of the clients of a replica: no writes, and no `BLPOP`. -/
def Harmless (args : List Bytes) : Prop :=
  isWriteCommand (upperName args) = false ∧ upperName args ≠ ascii "BLPOP"

theorem Timeless.plain {r : Request} (h : Timeless r.args) : TrueStore.Plain r.args :=
  ⟨h, loggable_request r⟩

theorem Harmless.reads {r : Request} (h : Harmless r.args) : Reads r.args :=
  ⟨h.1, h.2, loggable_request r⟩

theorem carries_of_requests {P P' : List Bytes → Prop} {event : Event}
    (h : event.Carries P') (hP : ∀ r : Request, P' r.args → P r.args) : event.Carries P := by
  cases event with
  | request fd r => exact hP r h
  | _ => trivial

section Inv

variable {P Q P' Q' : List Bytes → Prop} {config : Config} {replid : ReplId}
  {sys sys' : Cluster F} {env : Env} {event : Event} {link other : ℤ} {q : Peer F}

theorem not_mem_replid (replid : ReplId) : 13 ∉ replid.text := by
  intro hmem
  have hhex := List.all_eq_true.mp replid.hex 13 hmem
  exact absurd hhex (by decide)

theorem Inv.feed (h : Inv P Q config replid sys) (hl : event.isLocal = true)
    (hd : sys.Delivers (sys.primary.step env event)) (hfd : event.fd? ≠ some link)
    (hq : sys.peers link = some q) :
    ∃ client, Linked P Q link client (sys.primary.step env event)
      { q with
        down := q.down ++
          (payloadsTo link (sent sys.primary (sys.primary.step env event))).flatten } := by
  obtain ⟨client, hlinked⟩ := h.linked link q hq
  have hfeeds := feeds_step hlinked.unused.apart h.primary.numbered env hl hfd
  exact ⟨client, hlinked.feed hfeeds (hd link (by rw [hq]; rfl))⟩

theorem setPeer_self (q : Option (Peer F)) : (sys.setPeer link q).peers link = q :=
  Function.update_self ..

theorem setPeer_cases {new : Option (Peer F)} (h : (sys.setPeer link new).peers other = some q) :
    other = link ∧ new = some q ∨ some link ≠ some other ∧ sys.peers other = some q := by
  by_cases ho : other = link
  · subst ho
    rw [setPeer_self] at h
    exact .inl ⟨rfl, h⟩
  · refine .inr ⟨fun he => ho (Option.some.inj he).symm, ?_⟩
    rw [← h]
    exact (Function.update_of_ne ho _ _).symm

theorem Inv.step (k : Kinds P Q) (hP : ∀ r : Request, P' r.args → P r.args)
    (hQ : ∀ r : Request, Q' r.args → Q r.args) (h : Inv P Q config replid sys)
    (hstep : Step P' Q' sys sys') : Inv P Q config replid sys' := by
  cases hstep with
  | primary env hl hfd he hd =>
    refine ⟨h.primary.step k env _ hl (carries_of_requests he hP), fun link q hq => ?_⟩
    obtain ⟨q₀, hq₀, rfl⟩ := Option.map_eq_some_iff.mp hq
    refine h.feed hl hd (fun hlink => ?_) hq₀
    rw [hfd link hlink] at hq₀
    cases hq₀
  | @join env link client r config' replid' fd offset down hnew hargs hunused hd hloss hshake =>
    have hquiet : P r.args := k.quiet r (by rw [hargs]; decide)
    refine ⟨h.primary.step k env (.request link r) rfl hquiet, fun other q hq => ?_⟩
    rcases setPeer_cases hq with ⟨rfl, hnew⟩ | ⟨ho, hold⟩
    · cases hnew
      exact ⟨client, Linked.join hunused (h.primary.settled k) h.primary.tracked
        h.primary.masterFd (h.primary.masterReplid ▸ not_mem_replid replid) hargs hloss hshake
        config' replid' fd⟩
    · obtain ⟨q₀, hq₀, rfl⟩ := Option.map_eq_some_iff.mp hold
      exact h.feed rfl hd ho hq₀
  | @deliver link q env chunk rest hq hdown =>
    refine ⟨h.primary, fun other q' hq' => ?_⟩
    rcases setPeer_cases hq' with ⟨rfl, hnew⟩ | ⟨-, hold⟩
    · cases hnew
      obtain ⟨client, hlinked⟩ := h.linked other q hq
      exact ⟨client, hlinked.deliver k (h.primary.item k)
        (fun hfaithful => h.primary.accepts_of_plain k hfaithful.1) hdown env⟩
    · exact h.linked other q' hold
  | @acknowledge link q env r rest hq hup hd =>
    obtain ⟨client, hlinked⟩ := h.linked link q hq
    have hack : IsAck q.server.replicaOffset r.bytes :=
      hlinked.acks _ (by rw [hup]; exact List.mem_cons_self)
    have hquiet : P r.args := k.quiet r (by rw [name_of_isAck hack]; decide)
    refine ⟨h.primary.step k env (.request link r) rfl hquiet, fun other q' hq' => ?_⟩
    obtain ⟨q₀, hq₀, rfl⟩ := Option.map_eq_some_iff.mp hq'
    rcases setPeer_cases hq₀ with ⟨rfl, hnew⟩ | ⟨ho, hold⟩
    · cases hnew
      exact ⟨client, (hlinked.pop hup).acknowledge (h.primary.settled k) h.primary.masterFd
        hack (hd other (by rw [hq]; rfl))⟩
    · exact h.feed rfl hd ho hold
  | @replica link q env event hq hl hfd he hloss =>
    refine ⟨h.primary, fun other q' hq' => ?_⟩
    rcases setPeer_cases hq' with ⟨rfl, hnew⟩ | ⟨-, hold⟩
    · cases hnew
      obtain ⟨client, hlinked⟩ := h.linked other q hq
      exact ⟨client, hlinked.local k hl hfd (carries_of_requests he hQ) hloss⟩
    · exact h.linked other q' hold
  | @leave link env hsome hd =>
    refine ⟨h.primary.step k env (.hangup link) rfl trivial, fun other q' hq' => ?_⟩
    obtain ⟨q₀, hq₀, rfl⟩ := Option.map_eq_some_iff.mp hq'
    rcases setPeer_cases hq₀ with ⟨rfl, hnew⟩ | ⟨ho, hold⟩
    · cases hnew
    · exact h.feed rfl hd ho hold

theorem inv_start (config : Config) (replid : ReplId) :
    Inv P Q config replid (Cluster.start config replid : Cluster F) :=
  ⟨.start config replid, fun link q hq => by cases hq⟩

theorem inv_of_steps (k : Kinds P Q) (hP : ∀ r : Request, P' r.args → P r.args)
    (hQ : ∀ r : Request, Q' r.args → Q r.args)
    (hrun : Relation.ReflTransGen (Step P' Q') (Cluster.start config replid) sys) :
    Inv P Q config replid sys := by
  induction hrun with
  | refl => exact inv_start config replid
  | tail _ hstep ih => exact ih.step k hP hQ hstep

theorem inv_of_run
    (hrun : Relation.ReflTransGen (Step Timeless Harmless) (Cluster.start config replid) sys) :
    Inv TrueStore.Plain Reads config replid sys :=
  inv_of_steps kinds_plain (fun _ => Timeless.plain) (fun _ => Harmless.reads) hrun

end Inv

section Converges

variable {link : ℤ} {client : ClientState} {s : Server F} {q : Peer F}

/-- A buffer that holds no complete request, and the items on their way after it: if nothing is on
its way, nothing is left. -/
theorem InFlight.drained (h : InFlight TrueStore.Plain Reads client s q)
    (hitems : ∀ p ∈ s.stream, Streamable TrueStore.Plain p.args) (hdown : q.down = []) :
    q.server.masterBuffer = [] ∧
      (writes (s.stream.take q.since) = [] → loggedArgs q.server.calls = writes s.stream) := by
  obtain ⟨done, rest, more, tail, hdrop, hbytes, -, hlogged, hend⟩ := h.stream
  rw [hdown, List.append_nil] at hbytes
  have hmore := h.partly.more
  have hrest : rest = [] := by
    cases rest with
    | nil => rfl
    | cons p rest =>
      have hp : p ∈ s.stream := List.mem_of_mem_drop (by rw [hdrop]; simp)
      obtain ⟨r, hr⟩ := exists_request kinds_plain (hitems p hp)
      have hbuffer : q.server.masterBuffer = r.bytes ++ (streamBytes rest ++ tail) := by
        rw [hbytes, ← List.append_assoc, Request.bytes, hr]
        rfl
      rw [hbuffer, parseCommand_encode] at hmore
      cases hmore
  subst hrest
  have hbuffer : q.server.masterBuffer = tail := hbytes
  rcases hend with ⟨rfl, rfl⟩ | ⟨htail, -⟩
  · refine ⟨hbuffer, fun hfirst => ?_⟩
    have hfaithful : Faithful TrueStore.Plain Reads := ⟨fun _ h => h, fun _ h => h⟩
    rw [hlogged hfaithful hfirst, ← List.take_append_drop q.since s.stream, writes_append, hfirst, hdrop,
      List.append_nil, List.append_nil, List.nil_append]
  · -- a refusal is not the beginning of a request
    obtain ⟨junk, rfl⟩ : ∃ junk, tail = 45 :: junk := by
      cases tail with
      | nil => cases htail
      | cons b junk =>
        cases htail
        exact ⟨junk, rfl⟩
    rw [hbuffer] at hmore
    simp [parseCommand] at hmore

end Converges

/--
A replica that was registered before any write converges to its primary: whatever the clients do,
as long as the primary's clients use no deadlines and automatic IDs and the replica's do not write,
a replica to which all bytes have been delivered has the same data as the primary. The link stays
up for a connection that is authenticated.
-/
theorem replica_converges {config : Config} {replid : ReplId} {sys : Cluster F} {link : ℤ}
    {q : Peer F}
    (hrun : Relation.ReflTransGen (Step Timeless Harmless) (Cluster.start config replid) sys)
    (hq : sys.peers link = some q) (hfirst : writes (sys.primary.stream.take q.since) = []) :
    (∀ client : ClientState, sys.primary.clients[link]? = some client →
        client.authenticated = true → q.server.masterFd = some q.fd) ∧
      (q.server.masterFd = some q.fd → q.down = [] → q.server.masterBuffer = [] ∧
        q.server.store.toKeyspace = sys.primary.store.toKeyspace) := by
  have h := inv_of_run hrun
  obtain ⟨client, hlinked⟩ := h.linked link q hq
  refine ⟨fun client' hclient' hauth => hlinked.up ?_, fun hup hdown => ?_⟩
  · obtain rfl := Option.some.inj (hlinked.unused.connected.symm.trans hclient')
    exact hauth
  · have hflight := hlinked.inFlight hup
    obtain ⟨hbuffer, hlogged⟩ := hflight.drained h.primary.items hdown
    have hreplica := accepts_of_plain hflight.follows.chain hflight.follows.fits Always
    rw [hlogged hfirst] at hreplica
    exact ⟨hbuffer, h.primary.accepts.of_reached ⟨fun _ => ⟨0, 0⟩, trivial⟩ hreplica⟩

theorem Lossless.of_all {peer : ℤ} {sends : List Sent} (h : ∀ m ∈ sends, m.delivered = true) :
    Lossless peer sends := fun m hm _ => h m hm

def joining : Request := .of psync (by decide)

def setting : Request := .of [ascii "SET", ascii "k", ascii "v"] (by decide)

def connected : Cluster Whole :=
  (start {} .zeros).move ((start {} .zeros).primary.step .still (.accept 5))

def registered : Cluster Whole :=
  (connected.move (connected.primary.step .still (.request 5 joining))).setPeer 5 (some
    { server := boot {} .zeros (some (7, 0))
      fd := 7
      since := (connected.primary.step .still (.request 5 joining)).stream.length
      down := [] })

def visited : Cluster Whole := registered.move (registered.primary.step .still (.accept 6))

def written : Cluster Whole := visited.move (visited.primary.step .still (.request 6 setting))

def follower : Peer Whole := (written.peers 5).get (by decide +kernel)

theorem unused_connected : Unused 5 { fd := 5, authenticated := true } connected.primary where
  apart := ⟨by decide, by decide, fun channel => by
    have hnone : connected.primary.store.subscribers = ∅ := rfl
    simp [Store.subscribersOf, hnone]⟩
  connected := by
    have hclients : connected.primary.clients =
        Std.ExtTreeMap.insert ∅ 5 { fd := 5, authenticated := true } := rfl
    simp [hclients]
  subscriptions := rfl
  inMulti := rfl
  stays := rfl

theorem steps_written {P Q : List Bytes → Prop} (hP : P setting.args) :
    Relation.ReflTransGen (Step P Q) (start {} .zeros) written := by
  have hconnect : Step P Q (start {} .zeros) connected :=
    .primary .still rfl (fun _ _ => rfl) trivial fun link h => by cases h
  have hjoin : Step P Q connected registered :=
    .join .still {} .zeros 7 rfl rfl unused_connected (fun link h => by cases h)
      (Lossless.of_all (by decide +kernel)) (by decide +kernel)
  have hvisit : Step P Q registered visited :=
    .primary .still rfl (fun fd h => by cases h; decide) trivial
      fun link _ => Lossless.of_all (by decide +kernel)
  have hwrite : Step P Q visited written :=
    .primary .still rfl (fun fd h => by cases h; decide) hP
      fun link _ => Lossless.of_all (by decide +kernel)
  exact .head hconnect (.head hjoin (.head hvisit (.single hwrite)))

theorem run_written :
    Relation.ReflTransGen (Step Timeless Harmless) (start {} .zeros) written :=
  steps_written (show timeless setting.args = true by decide)

theorem replica_converges_after_write :
    ∃ (sys : Cluster Whole) (q : Peer Whole), sys.peers 5 = some q ∧
      q.server.store.toKeyspace = sys.primary.store.toKeyspace ∧
      sys.primary.store.storage[ascii "k"]? = some (ascii "v") := by
  have hpeer : written.peers 5 = some follower := (Option.some_get _).symm
  have hrun := run_written.tail (.deliver .still hpeer (List.append_nil follower.down).symm)
  obtain ⟨hup, hequal⟩ := replica_converges hrun (setPeer_self _) (by decide +kernel)
  have hclient : (written.primary.clients[(5 : ℤ)]?).map (·.authenticated) = some true := by
    decide +kernel
  obtain ⟨client, hclient, hauth⟩ := Option.map_eq_some_iff.mp hclient
  exact ⟨_, _, setPeer_self _, (hequal (hup client hclient hauth) rfl).2, by decide +kernel⟩

end Cluster

end TrueStore
