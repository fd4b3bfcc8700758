import TrueStore.Server.Handshake
import TrueStore.Server.Waiting

/-! # A replica

A replica obeys what arrives from its primary: it runs the writes on its own data, answers a
request for an acknowledgement and breaks the link at anything that is not a request. As long as
its clients only read, its data come about by the writes of the stream.
-/

namespace TrueStore.Server

open RespType Framing

variable {F : Type} [Platform F]

/-- The requests of a client that writes nothing and does not block on a list. -/
def Reads (args : List Bytes) : Prop :=
  isWriteCommand (upperName args) = false ∧ upperName args ≠ ascii "BLPOP" ∧ Loggable args

theorem popClosed_reads : PopClosed Reads := by
  rintro args key ⟨-, hname, -⟩ hn -
  have hall : ∀ p ∈ commandTable, p.2 = .blpop → p.1 = ascii "BLPOP" := by decide
  exact absurd (hall _ (mem_table_of_commandName hn) rfl) hname

theorem timeless_of_not_write {args : List Bytes} (h : isWriteCommand (upperName args) = false) :
    timeless args = true := by
  have hdata : ∀ command, dataCommand args = some command → command.isWrite = false := by
    intro command hc
    unfold dataCommand at hc
    split at hc
    · rename_i name hn
      cases hc
      rw [isWriteCommand_of_commandName hn] at h
      exact h
    · cases hc
  unfold timeless
  split
  · rename_i hc
    exact absurd (hdata _ hc) (by decide)
  · rename_i hc
    exact absurd (hdata _ hc) (by decide)
  · rfl

theorem loggedArgs_of_reads {calls : List (Call F)} (h : ∀ c ∈ calls, c.Fits Reads Always) :
    loggedArgs calls = [] := by
  refine List.eq_nil_iff_forall_not_mem.mpr fun args ha => ?_
  obtain ⟨c, hc, rfl⟩ := List.mem_map.mp ha
  have hread := (h c (List.mem_filter.mp hc).1).args.1
  rw [isWriteCommand_of_mem_loggedArgs ha] at hread
  cases hread

theorem Reads.plain {args : List Bytes} (h : Reads args) : TrueStore.Plain args :=
  ⟨timeless_of_not_write h.1, h.2.2⟩

structure Kinds (P Q : List Bytes → Prop) : Prop where
  pops : PopClosed P
  popsLocal : PopClosed Q
  sub : ∀ args, Q args → P args
  loggable : ∀ args, P args → Loggable args
  quiet : ∀ r : Request, isWriteCommand (upperName r.args) = false → P r.args

theorem kinds_plain : Kinds TrueStore.Plain Reads where
  pops := popClosed_plain
  popsLocal := popClosed_reads
  sub _ h := h.plain
  loggable _ h := h.2
  quiet r h := ⟨timeless_of_not_write h, loggable_request r⟩

theorem kinds_loggable : Kinds Loggable Loggable where
  pops := popClosed_loggable
  popsLocal := popClosed_loggable
  sub _ h := h
  loggable _ h := h
  quiet r _ := loggable_request r

/-- An item of the stream: a write that is known to the dispatcher, or the request for an
acknowledgement. -/
def Item (P : List Bytes → Prop) (args : List Bytes) : Prop :=
  Streamable (fun args => P args ∧ (commandName (upperName args)).isSome = true) args

theorem Item.streamable {P : List Bytes → Prop} {args : List Bytes} (h : Item P args) :
    Streamable P args :=
  h.imp_left fun ⟨hw, hP, _⟩ => ⟨hw, hP⟩

def linkClient : ClientState := { authenticated := true }

theorem free_linkClient : Free linkClient := ⟨rfl, rfl, rfl⟩

section Following

variable {P Q : List Bytes → Prop}

/-- The replica's end of a link that is up, with the calls and the requests that its data and its
clients come from. -/
structure Following (P Q : List Bytes → Prop) (fd : ℤ) (s : Server F) : Prop where
  masterFd : s.masterFd = some fd
  halted : s.halted = false
  apart : s.Apart fd
  client : s.clients[fd]? = some linkClient
  replica : s.replicas[fd]? = none
  chain : Chain {} s.calls s.store.toKeyspace
  fits : ∀ c ∈ s.calls, c.Fits P Always
  settled : s.Settled Q

/-- The offsets, the buffer of the link and what is sent do not matter. -/
theorem Following.adjust {fd : ℤ} {s : Server F} (h : Following P Q fd s) (offset master : ℤ)
    (buffer : Bytes) (sends : List Sent) :
    Following P Q fd
      { s with
        replicaOffset := offset
        masterBuffer := buffer
        sends
        store := { s.store with masterReplOffset := master } } :=
  ⟨h.masterFd, h.halted, ⟨h.apart.waiting, h.apart.messages, h.apart.subscribed⟩, h.client,
    h.replica, h.chain, h.fits, h.settled.block, h.settled.pending, h.settled.asks.congr rfl rfl⟩

theorem following_boot (config : Config) (replid : ReplId) (fd offset : ℤ) :
    Following P Q fd (boot config replid (some (fd, offset)) : Server F) where
  masterFd := rfl
  halted := rfl
  apart := by
    refine ⟨?_, ?_, fun channel => ?_⟩
    · simp [boot, follow, start]
    · simp [boot, follow, start, Store.init]
    · simp [boot, follow, start, Store.init, Store.subscribersOf]
  client := by simp [boot, follow, linkClient]
  replica := by simp [boot, follow, start]
  chain := .nil _
  fits c hc := by cases hc
  settled := (logged_boot (T := Always) config replid (some (fd, offset))).settled

/-- What is sent is an acknowledgement of an offset that is not larger. -/
def IsAck (offset : ℤ) (payload : Bytes) : Prop :=
  ∃ n ≤ offset, payload = encode [ascii "REPLCONF", ascii "ACK", decimalInt n]

theorem IsAck.mono {offset offset' : ℤ} {payload : Bytes} (h : IsAck offset payload)
    (hle : offset ≤ offset') : IsAck offset' payload := by
  obtain ⟨n, hn, hpayload⟩ := h
  exact ⟨n, hn.trans hle, hpayload⟩

section Obey

variable {s : Server F} {fd : ℤ} {args : List Bytes}

theorem logPending_nil (h : s.store.pendingPropagations = []) : s.logPending false = s := by
  simp [logPending, h]

theorem commandCalls_write (hw : isWriteCommand (upperName args) = true) (clock : ℕ → Readings)
    (store : Store F) :
    commandCalls clock args store linkClient = dispatchCalls (clock 0) args store := by
  have hexec : upperName args ≠ ascii "EXEC" := fun he => by
    rw [he] at hw
    exact absurd hw (by decide)
  have hrefusal : refusal args store linkClient = none :=
    refusal_of_free free_linkClient.authenticated free_linkClient.subscriptions
      (args_ne_nil_of_isWriteCommand hw) store
  have hcontrol : ¬(upperName args ∈ controlCommands ∨ linkClient.inMulti = true) := by
    rintro (h | h)
    · exact not_control_of_isWriteCommand hw h
    · cases h
  unfold commandCalls
  rw [hrefusal, if_neg (by simp), if_neg fun h => hexec h.1, if_neg hcontrol]

theorem obey_write (h : Following P Q fd s) (hw : isWriteCommand (upperName args) = true)
    (env : Env) (number : ℕ) :
    ∃ aof, s.obey env number fd args =
      { s with
        store := { s.store with
          toKeyspace := (execute (env.clock number 0) args s.store.toKeyspace).2 }
        clients := s.clients.insert fd linkClient
        calls := s.calls ++ dispatchCalls (env.clock number 0) args s.store
        aof } := by
  have hget : s.clients.getD fd {} = linkClient := by
    simp [Std.ExtTreeMap.getD_eq_getD_getElem?, h.client]
  have hhandle : (s.handle env number fd args).2 =
      { s with
        store := { s.store with
          toKeyspace := (execute (env.clock number 0) args s.store.toKeyspace).2 }
        clients := s.clients.insert fd linkClient
        calls := s.calls ++ dispatchCalls (env.clock number 0) args s.store } := by
    simp only [handle, hget, handleCommand_write free_linkClient hw, commandCalls_write hw]
  obtain ⟨aof, haof⟩ := logOwn_aof args false (s.handle env number fd args).1
    (s.handle env number fd args).2
  have hpending : ({ (s.handle env number fd args).2 with aof } :
      Server F).store.pendingPropagations = [] := by
    rw [hhandle]
    exact h.settled.pending
  refine ⟨aof, ?_⟩
  unfold obey
  dsimp only
  rw [hget, show linkClient.inMulti = false from rfl, haof, logPending_nil hpending, hhandle]
  dsimp only
  rw [← h.settled.block, ← h.settled.pending]

theorem dispatchCalls_write (hw : isWriteCommand (upperName args) = true)
    (hk : (commandName (upperName args)).isSome = true) (clock : Readings) (store : Store F) :
    dispatchCalls clock args store = [.run clock store.toKeyspace args] := by
  obtain ⟨name, hn⟩ := Option.isSome_iff_exists.mp hk
  obtain ⟨command, rfl⟩ := commandName_of_isWriteCommand hw name hn
  simp [dispatchCalls, hn]

/-- A replica keeps following its primary when it obeys a write, and logs the write unless it is
refused. -/
theorem Following.obey (h : Following P Q fd s) (hw : isWriteCommand (upperName args) = true)
    (hP : P args) (hk : (commandName (upperName args)).isSome = true) (env : Env) (number : ℕ) :
    Following P Q fd (s.obey env number fd args) ∧
      (s.obey env number fd args).masterBuffer = s.masterBuffer ∧
      (s.obey env number fd args).sends = s.sends ∧
      (s.obey env number fd args).replicaOffset = s.replicaOffset ∧
      (∃ call : Call F, (s.obey env number fd args).calls = s.calls ++ [call] ∧
        call.args = args) ∧
      ∀ {ks' : Keyspace F}, write (env.clock number 0) args s.store.toKeyspace = some ks' →
        (s.obey env number fd args).store.toKeyspace = ks' ∧
        loggedArgs (s.obey env number fd args).calls = loggedArgs s.calls ++ [args] := by
  obtain ⟨aof, he⟩ := obey_write h hw env number
  rw [he, dispatchCalls_write hw hk]
  refine ⟨⟨h.masterFd, h.halted, ⟨h.apart.waiting, h.apart.messages, h.apart.subscribed⟩, ?_,
    h.replica, ?_, ?_, ⟨h.settled.block, h.settled.pending, ?_⟩⟩, rfl, rfl, rfl, ⟨_, rfl, rfl⟩,
    fun hks => ?_⟩
  · simp
  · exact h.chain.trans (.call _ rfl (.nil _))
  · exact List.forall_mem_append.mpr ⟨h.fits, List.forall_mem_singleton.mpr ⟨trivial, hP⟩⟩
  · exact h.settled.asks.insert fd rfl (fun a ha => by cases ha) fun _ hw => hw
  · obtain ⟨herr, rfl⟩ := write_eq_some hks
    refine ⟨rfl, ?_⟩
    simp [loggedArgs, Call.logged, Call.args, Call.result, hw, herr]

end Obey

section Replicate

variable {fd : ℤ}

/-- What following a part of the stream, of some length, does to the replica. -/
structure Followed (P Q : List Bytes → Prop) (fd : ℤ) (args : List (List Bytes)) (length : ℕ)
    (s s' : Server F) : Prop where
  follows : Following P Q fd s'
  buffer : s'.masterBuffer = s.masterBuffer
  offset : s'.replicaOffset = s.replicaOffset + length
  calls : ∃ new : List (Call F), s'.calls = s.calls ++ new ∧ new.map Call.args = args
  sends : ∃ new, s'.sends = s.sends ++ new ∧
    ∀ m ∈ new, m.fd = fd ∧ IsAck s'.replicaOffset m.payload
  logged : ∀ {R : Keyspace F → Prop}, Journal.Accepts write Always args R s.store.toKeyspace →
    R s'.store.toKeyspace ∧ loggedArgs s'.calls = loggedArgs s.calls ++ args

theorem Followed.trans {args args' : List (List Bytes)} {n n' : ℕ} {s s₁ s₂ : Server F}
    (h : Followed P Q fd args n s s₁) (h' : Followed P Q fd args' n' s₁ s₂) :
    Followed P Q fd (args ++ args') (n + n') s s₂ where
  follows := h'.follows
  buffer := h'.buffer.trans h.buffer
  offset := by
    have hone := h.offset
    have htwo := h'.offset
    push_cast
    omega
  calls := by
    obtain ⟨new, hnew, hargs⟩ := h.calls
    obtain ⟨new', hnew', hargs'⟩ := h'.calls
    exact ⟨new ++ new', by rw [hnew', hnew, List.append_assoc],
      by rw [List.map_append, hargs, hargs']⟩
  sends := by
    obtain ⟨new, hnew, hall⟩ := h.sends
    obtain ⟨new', hnew', hall'⟩ := h'.sends
    have hle : s₁.replicaOffset ≤ s₂.replicaOffset := by
      have hoffset := h'.offset
      omega
    refine ⟨new ++ new', by rw [hnew', hnew, List.append_assoc], ?_⟩
    exact List.forall_mem_append.mpr
      ⟨fun m hm => ⟨(hall m hm).1, (hall m hm).2.mono hle⟩, hall'⟩
  logged hR := by
    obtain ⟨hrest, hlogged⟩ := h.logged (Journal.accepts_append.mp hR)
    obtain ⟨hfinal, hlogged'⟩ := h'.logged hrest
    exact ⟨hfinal, by rw [hlogged', hlogged, List.append_assoc]⟩

theorem isGetack_getack : isGetack getack = true := by decide

theorem not_isGetack_of_write {args : List Bytes} (hw : isWriteCommand (upperName args) = true) :
    isGetack args = false := by
  unfold isGetack
  split
  · rename_i name sub rest
    have hname : toUpper name ≠ ascii "REPLCONF" := fun he => by
      have h : upperName (name :: sub :: rest) = ascii "REPLCONF" := he
      rw [h] at hw
      exact absurd hw (by decide)
    simp [hname]
  · rfl

def itemWrites (args : List Bytes) : List (List Bytes) :=
  if isWriteCommand (upperName args) then [args] else []

theorem followed_replicate (env : Env) {args : List Bytes} (ha : Item P args) (consumed : ℕ)
    {st : ℕ × Server F} (h : Following P Q fd st.2) :
    Followed P Q fd (itemWrites args) consumed st.2 (replicate env fd args consumed st).1.2 := by
  unfold replicate
  dsimp only
  rcases ha with ⟨hw, hP, hk⟩ | rfl
  · have hitem : itemWrites args = [args] := if_pos hw
    obtain ⟨hfollows, hbuffer, hsends, hoffset, ⟨call, hcall, hargs⟩, hlogged⟩ :=
      h.obey hw hP hk env st.1
    rw [not_isGetack_of_write hw, if_neg (by simp), hitem]
    refine ⟨hfollows.adjust _ _ _ _, hbuffer, by rw [hoffset], ⟨[call], hcall, by rw [← hargs]; rfl⟩,
      ⟨[], by simp [hsends], by simp⟩, fun hR => ?_⟩
    obtain ⟨ks', hks, hR'⟩ := hR (env.clock st.1 0) trivial
    obtain ⟨hdata, hcalls⟩ := hlogged hks
    refine ⟨?_, hcalls⟩
    rw [← hdata] at hR'
    exact hR'
  · have hnone : itemWrites getack = [] := by decide
    rw [if_pos isGetack_getack, hnone]
    refine ⟨h.adjust _ _ _ _, rfl, rfl, ⟨[], by simp [send], rfl⟩, ⟨_, rfl, ?_⟩,
      fun hR => ⟨hR, by simp [send]⟩⟩
    simp only [List.mem_singleton, forall_eq, true_and]
    exact ⟨_, by simp [send], rfl⟩

theorem writes_eq_flatMap (items : List Propagation) :
    writes items = items.flatMap fun p => itemWrites p.args := by
  induction items with
  | nil => rfl
  | cons p items ih =>
    rw [List.flatMap_cons, ← ih]
    unfold writes itemWrites
    by_cases hw : isWriteCommand (upperName p.args) = true <;> simp [hw]

theorem followed_handleAll (env : Env) {rs : List Request} (hrs : ∀ r ∈ rs, Item P r.args)
    (st : ℕ × Server F) (h : Following P Q fd st.2) :
    ∃ st', handleAll (replicate env fd) (rs.map fun r => (r.args, r.bytes.length)) st =
        (st', none) ∧
      Followed P Q fd (rs.flatMap fun r => itemWrites r.args) (wire rs).length st.2 st'.2 := by
  induction rs generalizing st with
  | nil =>
    exact ⟨st, rfl, h, rfl, by simp, ⟨[], by simp, rfl⟩, ⟨[], by simp, by simp⟩,
      fun hR => ⟨hR, by simp⟩⟩
  | cons r rs ih =>
    have hone := followed_replicate env (hrs r List.mem_cons_self) r.bytes.length h
    obtain ⟨st', hall, hrest⟩ :=
      ih (fun r' hr => hrs r' (List.mem_cons_of_mem _ hr)) _ hone.follows
    refine ⟨st', ?_, ?_⟩
    · simp only [List.map_cons, handleAll]
      rw [← hall, show replicate env fd r.args r.bytes.length st =
        ((replicate env fd r.args r.bytes.length st).1, none) from rfl]
    · rw [wire_cons, List.length_append]
      exact hone.trans hrest

/-- A chunk that completes some requests and leaves a part of the next one. -/
theorem followed_fromMaster (env : Env) {s : Server F} (h : Following P Q fd s)
    {chunk part : Bytes} {rs : List Request} (hrs : ∀ r ∈ rs, Item P r.args)
    (hb : s.masterBuffer ++ chunk = wire rs ++ part) (hpart : Partial part) :
    (s.fromMaster env chunk).masterBuffer = part ∧
      Followed P Q fd (rs.flatMap fun r => itemWrites r.args) (wire rs).length s
        { s.fromMaster env chunk with masterBuffer := s.masterBuffer } := by
  have hmem : s.clients.contains fd = true := by
    rw [Std.ExtTreeMap.contains_eq_isSome_getElem?, h.client]
    rfl
  obtain ⟨st', hall, hfollowed⟩ := followed_handleAll env hrs (0, s) h
  have hfeed : feed (parseCommand unlimited) (replicate env fd) (0, s) s.masterBuffer chunk =
      (st', .ok part) := by
    unfold feed
    rw [hb, consume_wire (replicate env fd) rs hpart (0, s) le_rfl, hall]
  have he : s.fromMaster env chunk =
      { st'.2 with
        masterBuffer := part
        store := { st'.2.store with masterReplOffset := st'.2.replicaOffset } } := by
    unfold fromMaster
    simp only [h.masterFd, hmem, hfeed, Bool.not_true, Bool.false_eq_true, if_false]
  rw [he]
  exact ⟨rfl, hfollowed.follows.adjust _ _ _ _, rfl, hfollowed.offset, hfollowed.calls,
    hfollowed.sends, hfollowed.logged⟩

theorem fromMaster_refused (env : Env) {s : Server F} (h : Following P Q fd s)
    {chunk junk : Bytes} {rs : List Request} (hrs : ∀ r ∈ rs, Item P r.args)
    (hb : s.masterBuffer ++ chunk = wire rs ++ 45 :: junk) :
    (s.fromMaster env chunk).masterFd = none ∧
      (s.fromMaster env chunk).replicaOffset = s.replicaOffset + (wire rs).length ∧
      (∃ new : List (Call F), (s.fromMaster env chunk).calls = s.calls ++ new ∧
        new.map Call.args = rs.flatMap fun r => itemWrites r.args) ∧
      ∃ new, (s.fromMaster env chunk).sends = s.sends ++ new ∧
        ∀ m ∈ new, m.fd = fd ∧ IsAck (s.fromMaster env chunk).replicaOffset m.payload := by
  have hmem : s.clients.contains fd = true := by
    rw [Std.ExtTreeMap.contains_eq_isSome_getElem?, h.client]
    rfl
  obtain ⟨st', hall, hfollowed⟩ := followed_handleAll env hrs (0, s) h
  have hbad : parseCommand unlimited (45 :: junk) =
      .error (.respError (ascii "Expected array for command")) := by
    simp [parseCommand]
  have hfeed : feed (parseCommand unlimited) (replicate env fd) (0, s) s.masterBuffer chunk =
      (st', .error (.respError (ascii "Expected array for command"))) := by
    unfold feed
    rw [hb]
    exact consume_wire_error (replicate env fd) hbad (by simp) hall le_rfl
  have he : s.fromMaster env chunk =
      { st'.2.closeClient fd with
        masterFd := none
        store := { (st'.2.closeClient fd).store with
          masterReplOffset := (st'.2.closeClient fd).replicaOffset } } := by
    unfold fromMaster
    simp only [h.masterFd, hmem, hfeed, Bool.not_true, Bool.false_eq_true, if_false]
  rw [he]
  exact ⟨rfl, hfollowed.offset, hfollowed.calls, hfollowed.sends⟩

end Replicate

end Following

theorem replicaOffset_obey (env : Env) (number : ℕ) (fd : ℤ) (args : List Bytes) (s : Server F) :
    (s.obey env number fd args).replicaOffset = s.replicaOffset := by
  unfold obey
  dsimp only
  obtain ⟨aof, hown⟩ := logOwn_aof args (s.clients.getD fd {}).inMulti
    (s.handle env number fd args).1 (s.handle env number fd args).2
  obtain ⟨aof', hpending⟩ := logPending_aof (s.clients.getD fd {}).inMulti
    { (s.handle env number fd args).2 with aof }
  rw [hown, hpending]
  rfl

theorem replicaOffset_replicate (env : Env) (fd : ℤ) (args : List Bytes) (consumed : ℕ)
    (st : ℕ × Server F) :
    st.2.replicaOffset ≤ (replicate env fd args consumed st).1.2.replicaOffset := by
  unfold replicate
  dsimp only
  split
  · simp [send]
  · rw [replicaOffset_obey]
    omega

/-- Whatever arrives, the link stays or goes and the offset does not become smaller. -/
theorem link_fromMaster (env : Env) (chunk : Bytes) (s : Server F) :
    ((s.fromMaster env chunk).masterFd = s.masterFd ∨
        (s.fromMaster env chunk).masterFd = none) ∧
      s.replicaOffset ≤ (s.fromMaster env chunk).replicaOffset := by
  unfold fromMaster
  split
  · exact ⟨.inl rfl, le_rfl⟩
  · rename_i fd hm
    split
    · exact ⟨.inl rfl, le_rfl⟩
    · let I : ℕ × Server F → Prop := fun st =>
        st.2.masterFd = s.masterFd ∧ s.replicaOffset ≤ st.2.replicaOffset
      have hfeed : I _ := consume_preserves (parseCommand unlimited) (replicate env fd)
        (fun args n st hst => ⟨(Stable.masterFd_replicate env fd args n st).trans hst.1,
          hst.2.trans (replicaOffset_replicate env fd args n st)⟩)
        (s.masterBuffer ++ chunk).length (show I (0, s) from ⟨rfl, le_rfl⟩) (s.masterBuffer ++ chunk)
      obtain ⟨hmaster, hoffset⟩ := hfeed
      dsimp only
      split
      · exact ⟨.inl hmaster, hoffset⟩
      · exact ⟨.inr rfl, hoffset⟩
      · exact ⟨.inl hmaster, hoffset⟩

theorem wire_eq {rs : List Request} {items : List Propagation}
    (h : rs.map Request.args = items.map (·.args)) : wire rs = streamBytes items := by
  have hmap := congrArg (List.flatMap encode) h
  rw [List.flatMap_map, List.flatMap_map] at hmap
  exact hmap

theorem exists_request {P Q : List Bytes → Prop} (k : Kinds P Q) {args : List Bytes}
    (h : Streamable P args) : ∃ r : Request, r.args = args := by
  have hloggable : Loggable args := by
    rcases h with ⟨-, hP⟩ | rfl
    · exact k.loggable args hP
    · exact ⟨by decide, by decide⟩
  exact ⟨⟨args, hloggable.1, hloggable.2⟩, rfl⟩

theorem exists_wire {P Q : List Bytes → Prop} (k : Kinds P Q) {items : List Propagation}
    (h : ∀ p ∈ items, Item P p.args) :
    ∃ rs : List Request, rs.map Request.args = items.map (·.args) := by
  induction items with
  | nil => exact ⟨[], rfl⟩
  | cons p items ih =>
    obtain ⟨r, hr⟩ := exists_request k (h p List.mem_cons_self).streamable
    obtain ⟨rs, hrs⟩ := ih fun p' hp => h p' (List.mem_cons_of_mem _ hp)
    exact ⟨r :: rs, by rw [List.map_cons, List.map_cons, hr, hrs]⟩

theorem writes_of_requests {rs : List Request} {items : List Propagation}
    (h : rs.map Request.args = items.map (·.args)) :
    (rs.flatMap fun r => itemWrites r.args) = writes items := by
  have hmap := congrArg (List.flatMap itemWrites) h
  rw [List.flatMap_map, List.flatMap_map] at hmap
  rw [writes_eq_flatMap]
  exact hmap

end TrueStore.Server
