import TrueStore.Command.Interleaving
import TrueStore.Server.Connections
import TrueStore.Store.Subscribers

/-! # Clients that have not authenticated

While the default user needs a password, a client without one only gets past the gate with
`AUTH`, `QUIT` and `RESET`. Its commands change nothing but its own session, and their replies
depend on the access rules alone.
-/

namespace TrueStore

open RespType

variable {F : Type} [Platform F]

/-- The gate of `handle_command` is closed for the client. -/
structure Barred (store : Store F) (client : ClientState) : Prop where
  client : client.authenticated = false
  store : store.defaultUserAutoAuth = false

/-- A successful `AUTH`. -/
def authenticates (args : List Bytes) (reply : Bytes) : Bool :=
  upperName args = ascii "AUTH" && reply = ok

def gateCommands : List Bytes := ["AUTH", "QUIT", "RESET"].map ascii

theorem mem_gateCommands_of_barred {store : Store F} {client : ClientState}
    (hb : Barred store client) {args : List Bytes} (h : refusal args store client = none) :
    upperName args ∈ gateCommands := by
  unfold refusal at h
  dsimp only at h
  split at h
  · cases h
  · split at h
    · cases h
    · rename_i hgate
      simp only [hb.client, hb.store, Bool.not_false, true_and, not_and_or, not_not] at hgate
      rcases hgate with hgate | hgate | hgate <;> rw [hgate] <;> decide

/-- A command that passes the gate ends the session or concerns the password. -/
theorem runCommand_gate {args : List Bytes} (h : upperName args ∈ gateCommands)
    (clock : ℕ → Readings) (store : Store F) (client : ClientState) :
    (upperName args ≠ ascii "AUTH" ∧ (runCommand clock args store client =
        (errorReply (ascii "ERR wrong number of arguments"), store, client) ∨
      runCommand clock args store client =
        ((simpleString (if upperName args = ascii "QUIT" then ascii "OK" else ascii "RESET")).toBytes,
          store.removeSubscriber client.fd,
          { client.leaveMulti with
            subscriptions := ∅
            authenticated := store.defaultUserAutoAuth
            closeAfterReply := upperName args = ascii "QUIT" }))) ∨
    (upperName args = ascii "AUTH" ∧ runCommand clock args store client =
      if client.inMulti then
        ((simpleString (ascii "QUEUED")).toBytes, store, client.enqueue args)
      else ((store.handleAuth args client).1, store, (store.handleAuth args client).2)) := by
  by_cases ha : upperName args = ascii "AUTH"
  · refine .inr ⟨ha, ?_⟩
    have hn : commandName (upperName args) = some .auth := by rw [ha]; decide
    rw [runCommand_of_not_control (by rw [ha]; decide)]
    simp only [dispatchCommand, hn]
  · refine .inl ⟨ha, ?_⟩
    have hq : upperName args = ascii "QUIT" ∨ upperName args = ascii "RESET" := by
      simpa [gateCommands, ha] using h
    unfold runCommand
    dsimp only
    rw [if_pos hq]
    split
    · exact .inl rfl
    · exact .inr rfl

theorem handleAuth_cases (args : List Bytes) (store : Store F) (client : ClientState) :
    (store.handleAuth args client).2 = client ∨ (store.handleAuth args client).1 = ok := by
  have hauth : ∀ user password, (store.authenticate user password client).2 = client ∨
      (store.authenticate user password client).1 = ok := by
    intro user password
    unfold Store.authenticate
    split
    · exact .inl rfl
    · exact .inr rfl
  unfold Store.handleAuth
  split
  · split
    · exact .inl rfl
    · exact hauth _ _
  · exact hauth _ _
  · exact .inl rfl

structure Rejected (args : List Bytes) (store : Store F) (client : ClientState)
    (r : Bytes × Store F × ClientState) : Prop where
  store : r.2.1 = store ∨ r.2.1 = store.removeSubscriber client.fd
  client : r.2.2.authenticated = false
  quiet : isError r.1 = true ∨ upperName args ∈ gateCommands

theorem rejected_handleCommand {store : Store F} {client : ClientState} (hb : Barred store client)
    {clock : ℕ → Readings} {args : List Bytes}
    (hno : authenticates args (handleCommand clock args store client).1 = false) :
    Rejected args store client (handleCommand clock args store client) := by
  unfold handleCommand at hno ⊢
  split at hno
  · rename_i reply hr
    exact ⟨.inl rfl, hb.client, .inl (isError_of_refusal hr)⟩
  · rename_i hr
    have hgate := mem_gateCommands_of_barred hb hr
    rcases runCommand_gate hgate clock store client with ⟨-, h | h⟩ | ⟨ha, h⟩
    · rw [h]
      exact ⟨.inl rfl, hb.client, .inr hgate⟩
    · rw [h]
      exact ⟨.inr rfl, hb.store, .inr hgate⟩
    · cases hin : client.inMulti with
      | true =>
        rw [h, hin, if_pos rfl]
        exact ⟨.inl rfl, hb.client, .inr hgate⟩
      | false =>
        rw [hin, if_neg Bool.false_ne_true] at h
        rw [h] at hno ⊢
        rcases handleAuth_cases args store client with hc | hok
        · exact ⟨.inl rfl, by rw [hc]; exact hb.client, .inr hgate⟩
        · simp [authenticates, ha, hok] at hno

theorem handleAuth_congr {store store' : Store F} (h : store'.aclUser = store.aclUser)
    (args : List Bytes) (client : ClientState) :
    store'.handleAuth args client = store.handleAuth args client := by
  simp only [Store.aclUser, Store.AclUser.mk.injEq] at h
  obtain ⟨h₁, h₂, h₃⟩ := h
  have hmatch : store'.passwordMatches = store.passwordMatches := by
    funext password
    simp only [Store.passwordMatches, h₂, h₃]
  unfold Store.handleAuth Store.authenticate
  rw [h₁, h₂, hmatch]

theorem defaultUserAutoAuth_congr {store store' : Store F} (h : store'.aclUser = store.aclUser) :
    store'.defaultUserAutoAuth = store.defaultUserAutoAuth := by
  simp only [Store.aclUser, Store.AclUser.mk.injEq] at h
  obtain ⟨h₁, h₂, -⟩ := h
  simp only [Store.defaultUserAutoAuth, h₁, h₂]

/-- The reply to such a client, and its session afterwards, depend on the access rules alone. -/
theorem handleCommand_barred_congr {store store' : Store F} {client : ClientState}
    (hb : Barred store client) (h : store'.aclUser = store.aclUser) (clock clock' : ℕ → Readings)
    (args : List Bytes) :
    (handleCommand clock' args store' client).1 = (handleCommand clock args store client).1 ∧
      (handleCommand clock' args store' client).2.2 =
        (handleCommand clock args store client).2.2 := by
  have hauto := defaultUserAutoAuth_congr h
  have hrefusal : refusal args store' client = refusal args store client := by
    simp only [refusal, hauto]
  unfold handleCommand
  rw [hrefusal]
  split
  · exact ⟨rfl, rfl⟩
  · rename_i hr
    have hgate := mem_gateCommands_of_barred hb hr
    have hquit : upperName args ≠ ascii "AUTH" →
        upperName args = ascii "QUIT" ∨ upperName args = ascii "RESET" := by
      intro ha
      simpa [gateCommands, ha] using hgate
    by_cases ha : upperName args = ascii "AUTH"
    · rcases runCommand_gate hgate clock store client with ⟨hne, -⟩ | ⟨-, h₁⟩
      · exact absurd ha hne
      rcases runCommand_gate hgate clock' store' client with ⟨hne, -⟩ | ⟨-, h₂⟩
      · exact absurd ha hne
      rw [h₁, h₂, handleAuth_congr h]
      split <;> exact ⟨rfl, rfl⟩
    · unfold runCommand
      dsimp only
      rw [if_pos (hquit ha), if_pos (hquit ha), hauto]
      split <;> exact ⟨rfl, rfl⟩

namespace World

/-- A command of the connection, after any turns of others. -/
structure Round (F : Type) [Platform F] where
  others : List (Turn F)
  clock : ℕ → Readings
  args : List Bytes

def repliesTo (fd : ℤ) : List (Round F) → World F → List Bytes
  | [], _ => []
  | r :: rounds, w =>
    let w := playAll r.others w
    w.reply fd r.clock r.args :: repliesTo fd rounds (w.play (.command fd r.clock r.args))

/-- Two runs in which a connection sends the same commands. Before each of them, the others may
do anything; but then the runs agree on the access rules, a password is needed, and the command
is no successful `AUTH`. -/
def Alike (fd : ℤ) : List (Round F × Round F) → World F → World F → Prop
  | [], _, _ => True
  | (r, r') :: rounds, w, w' =>
    let w := playAll r.others w
    let w' := playAll r'.others w'
    r'.args = r.args ∧ (∀ t ∈ r.others, t.by? ≠ some fd) ∧ (∀ t ∈ r'.others, t.by? ≠ some fd) ∧
      w'.store.aclUser = w.store.aclUser ∧ w.store.defaultUserAutoAuth = false ∧
      authenticates r.args (w.reply fd r.clock r.args) = false ∧
      Alike fd rounds (w.play (.command fd r.clock r.args))
        (w'.play (.command fd r'.clock r'.args))

theorem playAll_clients_of_others {fd : ℤ} {turns : List (Turn F)}
    (h : ∀ t ∈ turns, t.by? ≠ some fd) (w : World F) :
    (playAll turns w).clients fd = w.clients fd := by
  induction turns generalizing w with
  | nil => rfl
  | cons t turns ih =>
    rw [playAll_cons, ih fun t' ht => h t' (List.mem_cons_of_mem _ ht)]
    exact play_clients_of_ne (h t List.mem_cons_self)

theorem repliesTo_alike {fd : ℤ} {rounds : List (Round F × Round F)} {w w' : World F}
    (hc : w'.clients fd = w.clients fd) (hauth : (w.clients fd).authenticated = false)
    (h : Alike fd rounds w w') :
    repliesTo fd (rounds.map Prod.snd) w' = repliesTo fd (rounds.map Prod.fst) w := by
  induction rounds generalizing w w' with
  | nil => rfl
  | cons p rounds ih =>
    obtain ⟨r, r'⟩ := p
    obtain ⟨hargs, ho, ho', hacl, hauto, hno, hrest⟩ := h
    have hk := playAll_clients_of_others ho w
    have hk' := playAll_clients_of_others ho' w'
    have hb : Barred (playAll r.others w).store ((playAll r.others w).clients fd) :=
      ⟨by rw [hk]; exact hauth, hauto⟩
    have hclient : (playAll r'.others w').clients fd = (playAll r.others w).clients fd := by
      rw [hk, hk', hc]
    obtain ⟨hreply, hsession⟩ := handleCommand_barred_congr hb hacl r.clock r'.clock r.args
    have hrej := rejected_handleCommand hb hno
    simp only [List.map_cons, repliesTo]
    congr 1
    · simp only [reply, handle, hargs, hclient]
      exact hreply
    · refine ih ?_ ?_ hrest
      · simp only [play, handle, Function.update_self, hargs, hclient]
        exact hsession
      · simp only [play, handle, Function.update_self]
        exact hrej.client

end World

namespace Server

/-- Connections may have been closed, each with what belongs to it, and the session of one client
may have changed. Otherwise nothing has happened to the data, the access rules, the log, the
stream, the replicas and the subscriptions. -/
structure Untouched (fd : ℤ) (s s' : Server F) : Prop where
  data : s'.store.toKeyspace = s.store.toKeyspace
  acl : s'.store.aclUser = s.store.aclUser
  aof : s'.aof = s.aof
  stream : s'.stream = s.stream
  replicas : ∀ fd' : ℤ, s'.replicas[fd']? = s.replicas[fd']? ∨
    s'.replicas[fd']? = none ∧ s'.clients[fd']? = none
  closed : ∀ fd' : ℤ, s.clients[fd']? = none → s'.clients[fd']? = none
  own : ∀ client : ClientState, s'.clients[fd]? = some client →
    (s.clients[fd]?).map ClientState.authenticated = some client.authenticated
  others : ∀ (fd' : ℤ) (client : ClientState), fd' ≠ fd → s'.clients[fd']? = some client →
    s.clients[fd']? = some client ∧
      ∀ channel, fd' ∈ s'.store.subscribersOf channel ↔ fd' ∈ s.store.subscribersOf channel

namespace Untouched

variable {s s₁ s₂ : Server F} {fd : ℤ}

theorem trans (h : Untouched fd s s₁) (h' : Untouched fd s₁ s₂) : Untouched fd s s₂ where
  data := h'.data.trans h.data
  acl := h'.acl.trans h.acl
  aof := h'.aof.trans h.aof
  stream := h'.stream.trans h.stream
  replicas fd' := by
    rcases h'.replicas fd' with h₂ | h₂
    · rcases h.replicas fd' with h₁ | h₁
      · exact .inl (h₂.trans h₁)
      · exact .inr ⟨h₂.trans h₁.1, h'.closed fd' h₁.2⟩
    · exact .inr h₂
  closed fd' hc := h'.closed fd' (h.closed fd' hc)
  own client hc := by
    obtain ⟨client₁, hc₁, he⟩ := Option.map_eq_some_iff.mp (h'.own client hc)
    rw [h.own client₁ hc₁, he]
  others fd' client hne hc := by
    obtain ⟨hc₁, hsub₁⟩ := h'.others fd' client hne hc
    obtain ⟨hc₂, hsub₂⟩ := h.others fd' client hne hc₁
    exact ⟨hc₂, fun channel => (hsub₁ channel).trans (hsub₂ channel)⟩

theorem of_eq {s' : Server F} (hdata : s'.store.toKeyspace = s.store.toKeyspace)
    (hacl : s'.store.aclUser = s.store.aclUser) (haof : s'.aof = s.aof)
    (hstream : s'.stream = s.stream) (hreplicas : s'.replicas = s.replicas)
    (hclients : s'.clients = s.clients) (hsubs : s'.store.subscribers = s.store.subscribers) :
    Untouched fd s s' where
  data := hdata
  acl := hacl
  aof := haof
  stream := hstream
  replicas _ := .inl (by rw [hreplicas])
  closed _ h := by rw [hclients, h]
  own client h := by
    rw [hclients] at h
    simp [h]
  others fd' client _ h := by
    rw [hclients] at h
    exact ⟨h, fun channel => by rw [Store.subscribersOf, Store.subscribersOf, hsubs]⟩

theorem refl (s : Server F) : Untouched fd s s := .of_eq rfl rfl rfl rfl rfl rfl rfl

theorem send (env : Env) (peer : ℤ) (payload : Bytes) (purpose : Purpose) (s : Server F) :
    Untouched fd s (s.send env peer payload purpose).2 :=
  .of_eq rfl rfl rfl rfl rfl rfl rfl

theorem closeClient (closing : ℤ) (s : Server F) : Untouched fd s (s.closeClient closing) where
  data := rfl
  acl := rfl
  aof := rfl
  stream := rfl
  replicas fd' := by
    simp only [Server.closeClient, Std.ExtTreeMap.getElem?_erase]
    split
    · exact .inr ⟨rfl, rfl⟩
    · exact .inl rfl
  closed fd' h := by
    simp only [Server.closeClient, Std.ExtTreeMap.getElem?_erase]
    split
    · rfl
    · exact h
  own client h := by
    simp only [Server.closeClient, Std.ExtTreeMap.getElem?_erase] at h
    split at h
    · cases h
    · simp [h]
  others fd' client _ h := by
    simp only [Server.closeClient, Std.ExtTreeMap.getElem?_erase, Std.compare_eq_iff_eq] at h
    split at h
    · cases h
    · rename_i hne
      refine ⟨h, fun channel => ?_⟩
      rw [Server.closeClient, Store.mem_subscribersOf_removeSubscriber]
      exact and_iff_left (Ne.symm hne)

theorem deliverAll (env : Env) (messages : List (ℤ × Bytes)) (s : Server F) :
    Untouched fd s (deliverAll env messages s) := by
  induction messages generalizing s with
  | nil => exact refl s
  | cons m messages ih =>
    obtain ⟨recipient, message⟩ := m
    unfold Server.deliverAll
    dsimp only
    split
    · have hsend : Untouched fd s _ := send env recipient message .message s
      split
      · exact hsend.trans (ih _)
      · exact (hsend.trans (closeClient recipient _)).trans (ih _)
    · exact ih s

theorem finish (env : Env) (peer : ℤ) (s : Server F) : Untouched fd s (s.finish env peer) := by
  have htake : Untouched fd s { s with store := { s.store with pendingMessages := [] } } :=
    .of_eq rfl rfl rfl rfl rfl rfl rfl
  have hdeliver := htake.trans (deliverAll env s.store.pendingMessages _)
  unfold Server.finish deliverMessages
  dsimp only
  split
  · exact hdeliver.trans (closeClient peer _)
  · exact hdeliver

theorem respond (env : Env) (peer : ℤ) (reply : Bytes) {s : Server F}
    (hb : s.store.pendingBlock = none) : Untouched fd s (s.respond env peer reply).2 := by
  unfold Server.respond
  rw [hb]
  dsimp only
  split
  · exact refl s
  · have hsend : Untouched fd s _ := send env peer reply .reply s
    split
    · exact hsend
    · exact hsend.trans (closeClient peer _)

end Untouched

theorem publish_of_quiet (env : Env) (fd : ℤ) {args : List Bytes} (inMulti : Bool) {reply : Bytes}
    {s : Server F} (hp : s.store.pendingPropagations = [])
    (hw : (isWriteCommand (upperName args) && !isError reply) = false) :
    s.publish env fd args inMulti reply = s := by
  have hown : (!inMulti && isWriteCommand (upperName args) && !isError reply) = false := by
    rw [Bool.and_assoc, hw, Bool.and_false]
  have hs : { s with store := { s.store with pendingPropagations := [] } } = s := by
    rw [← hp]
  have hlog : s.logPending inMulti = s := by
    unfold logPending appendTransaction
    rw [hp]
    cases inMulti <;> simp
  unfold publish logOwn
  simp only [hown, Bool.false_eq_true, if_false, hlog, hp, propagateAll]
  exact hs

theorem untouched_handle {s : Server F} {fd : ℤ} {client : ClientState}
    (hclient : s.clients[fd]? = some client) (hfd : client.fd = fd) (hb : Barred s.store client)
    {env : Env} {args : List Bytes}
    (hrej : Rejected args s.store client (handleCommand (env.clock 0) args s.store client)) :
    Untouched fd s (s.handle env 0 fd args).2 := by
  have hget : s.clients.getD fd {} = client := by
    simp [Std.ExtTreeMap.getD_eq_getD_getElem?, hclient]
  have hfields : (s.handle env 0 fd args).2.store.toKeyspace = s.store.toKeyspace ∧
      (s.handle env 0 fd args).2.store.aclUser = s.store.aclUser ∧
      ∀ fd' ≠ fd, ∀ channel, fd' ∈ (s.handle env 0 fd args).2.store.subscribersOf channel ↔
        fd' ∈ s.store.subscribersOf channel := by
    simp only [handle, hget]
    rcases hrej.store with h | h
    · rw [h]
      exact ⟨rfl, rfl, fun _ _ _ => Iff.rfl⟩
    · rw [h]
      refine ⟨rfl, rfl, fun fd' hne channel => ?_⟩
      rw [Store.mem_subscribersOf_removeSubscriber, hfd]
      exact and_iff_left hne
  refine ⟨hfields.1, hfields.2.1, rfl, rfl, fun _ => .inl rfl, ?_, ?_, ?_⟩
  · intro fd' hc
    simp only [handle, Std.ExtTreeMap.getElem?_insert, Std.compare_eq_iff_eq]
    split
    · rename_i he
      rw [← he, hclient] at hc
      cases hc
    · exact hc
  · intro client' hc
    simp only [handle, hget, Std.ExtTreeMap.getElem?_insert_self, Option.some.injEq] at hc
    rw [hclient, ← hc, hrej.client, Option.map_some, hb.client]
  · intro fd' client' hne hc
    simp only [handle, Std.ExtTreeMap.getElem?_insert, Std.compare_eq_iff_eq,
      if_neg (Ne.symm hne)] at hc
    exact ⟨hc, hfields.2.2 fd' hne⟩

theorem untouched_command {s : Server F} (hs : s.Settled Anything) {fd : ℤ}
    {client : ClientState} (hclient : s.clients[fd]? = some client) (hfd : client.fd = fd)
    (hb : Barred s.store client) {env : Env} {args : List Bytes}
    (hno : authenticates args (s.handle env 0 fd args).1 = false) :
    Untouched fd s (s.command env fd args) := by
  have hget : s.clients.getD fd {} = client := by
    simp [Std.ExtTreeMap.getD_eq_getD_getElem?, hclient]
  have hack : s.ackText args client = none := by
    unfold ackText
    split
    · simp [hb.client, hb.store]
    · rfl
  have hrej : Rejected args s.store client
      (handleCommand (env.clock 0) args s.store client) := by
    refine rejected_handleCommand hb ?_
    simpa only [handle, hget] using hno
  have hreply : (s.handle env 0 fd args).1 =
      (handleCommand (env.clock 0) args s.store client).1 := by
    simp only [handle, hget]
  have hquiet : (isWriteCommand (upperName args) && !isError (s.handle env 0 fd args).1) = false := by
    rw [hreply]
    rcases hrej.quiet with h | h
    · simp [h]
    · have hall : ∀ name ∈ gateCommands, isWriteCommand name = false := by decide
      simp [hall _ h]
  have hleft : (s.handle env 0 fd args).2.store.pendingBlock = none ∧
      (s.handle env 0 fd args).2.store.pendingPropagations = [] := by
    simp only [handle, hget]
    rcases hrej.store with h | h <;> rw [h] <;> exact ⟨hs.block, hs.pending⟩
  have hreg : (s.handle env 0 fd args).2.register fd args client.inMulti
      (s.handle env 0 fd args).1 = (s.handle env 0 fd args).2 := by
    refine if_neg ?_
    rintro ⟨hname, -, -, herr⟩
    rw [hreply] at herr
    rcases hrej.quiet with h | h
    · simp [h] at herr
    · rw [hname] at h
      exact absurd h (by decide)
  have hhandle : Untouched fd s (s.handle env 0 fd args).2 := untouched_handle hclient hfd hb hrej
  unfold command
  simp only [hclient, hack, hreg, publish_of_quiet env fd client.inMulti hleft.2 hquiet]
  have hresp := hhandle.trans (.respond env fd (s.handle env 0 fd args).1 hleft.1)
  split
  · exact hresp.trans (.finish env fd _)
  · exact hresp

/-- In every reachable state, a request of a client without a password that is no successful
`AUTH` touches nothing but connections. And in two runs in which such a client sends the same
commands, with any turns of others in between that agree on the access rules, it receives the
same replies. -/
theorem unauthenticated_neither_change_nor_observe :
    (∀ (config : Config) (replid : ReplId) (link : Option (ℤ × ℤ)) (events : List (Env × Event))
      (env : Env) (fd : ℤ) (r : Request) (client : ClientState),
      (run events (boot config replid link : Server F)).clients[fd]? = some client →
      Barred (run events (boot config replid link : Server F)).store client →
      authenticates r.args
        ((run events (boot config replid link : Server F)).handle env 0 fd r.args).1 = false →
      Untouched fd (run events (boot config replid link : Server F))
        ((run events (boot config replid link)).step env (.request fd r))) ∧
    ∀ (fd : ℤ) (rounds : List (World.Round F × World.Round F)) (w w' : World F),
      w'.clients fd = w.clients fd → (w.clients fd).authenticated = false →
      World.Alike fd rounds w w' →
      World.repliesTo fd (rounds.map Prod.snd) w' = World.repliesTo fd (rounds.map Prod.fst) w := by
  refine ⟨fun config replid link events env fd r client hclient hb hno => ?_,
    fun fd rounds w w' hc hauth h => World.repliesTo_alike hc hauth h⟩
  have hlogged : (run events (boot config replid link : Server F)).Logged Anything Always :=
    Logged.run config replid link events
  have hnum : (run events (boot config replid link : Server F)).Numbered :=
    (stable_numbered.holds_run (numbered_boot config replid link) events).holds
  unfold step
  split
  · exact .refl _
  · dsimp only
    split
    · exact .refl _
    · rename_i hm
      exact untouched_command hlogged.settled hclient (hnum fd client hclient hm) hb hno

/-- A replica that resets its session after another client has set a password. -/
def resetting : List (Env × Event) :=
  [(.still, .accept 5), asks 5 [ascii "PSYNC", ascii "?", ascii "-1"] (by decide),
    (.still, .accept 6),
    asks 6 [ascii "ACL", ascii "SETUSER", ascii "default", ascii ">pw"] (by decide),
    asks 5 [ascii "RESET"] (by decide)]

def guessing : List (World.Round Whole × World.Round Whole) :=
  [(⟨[], fun _ _ => ⟨0, 0⟩, [ascii "GET", ascii "k"]⟩,
      ⟨[.command 6 (fun _ _ => ⟨9, 9⟩) [ascii "SET", ascii "k", ascii "v"]], fun _ _ => ⟨9, 9⟩,
        [ascii "GET", ascii "k"]⟩),
    (⟨[], fun _ _ => ⟨0, 0⟩, [ascii "AUTH", ascii "no"]⟩,
      ⟨[], fun _ _ => ⟨9, 9⟩, [ascii "AUTH", ascii "no"]⟩)]

def guarded : World Whole :=
  World.playAll [.command 6 (fun _ _ => ⟨0, 0⟩)
      [ascii "ACL", ascii "SETUSER", ascii "default", ascii ">pw"],
    .command 5 (fun _ _ => ⟨0, 0⟩) [ascii "RESET"]] (World.fresh {})

theorem unauthenticated_resetting :
    ((∃ client, (run resetting (boot {} .zeros none : Server Whole)).clients[(5 : ℤ)]? =
          some client ∧
        Barred (run resetting (boot {} .zeros none : Server Whole)).store client) ∧
      Untouched 5 (run resetting (boot {} .zeros none : Server Whole))
        ((run resetting (boot {} .zeros none)).step .still
          (.request 5 ⟨[ascii "GET", ascii "k"], by decide, by decide⟩))) ∧
    World.repliesTo 5 (guessing.map Prod.snd) guarded =
      World.repliesTo 5 (guessing.map Prod.fst) guarded := by
  obtain ⟨client, hc, hb⟩ : ∃ client,
      (run resetting (boot {} .zeros none : Server Whole)).clients[(5 : ℤ)]? = some client ∧
      Barred (run resetting (boot {} .zeros none : Server Whole)).store client :=
    ⟨_, rfl, rfl, rfl⟩
  obtain ⟨hchange, hobserve⟩ := unauthenticated_neither_change_nor_observe (F := Whole)
  have halike : World.Alike 5 guessing guarded guarded := by
    refine ⟨rfl, by simp, by simp [Turn.by?], rfl, rfl, by decide, ?_⟩
    exact ⟨rfl, by simp, by simp, rfl, rfl, by decide, trivial⟩
  constructor
  · exact ⟨⟨client, hc, hb⟩, hchange {} .zeros none resetting .still 5
      ⟨[ascii "GET", ascii "k"], by decide, by decide⟩ client hc hb (by decide)⟩
  · exact hobserve 5 guessing guarded guarded rfl rfl halike

/-- When the client quits, the replicas lose it. -/
theorem unauthenticated_quit_leaves_replicas :
    (run resetting (boot {} .zeros none : Server Whole)).clients[(5 : ℤ)]?.any
      (fun client => !client.authenticated) = true ∧
    (run resetting (boot {} .zeros none : Server Whole)).store.defaultUserAutoAuth = false ∧
    (run resetting (boot {} .zeros none : Server Whole)).replicas.contains 5 = true ∧
    ((run resetting (boot {} .zeros none : Server Whole)).step .still
      (.request 5 ⟨[ascii "QUIT"], by decide, by decide⟩)).replicas.contains 5 = false := by
  decide

end Server

end TrueStore
