import TrueStore.Server.Agreement
import TrueStore.Server.Offsets

/-! # How a replica connects

A replica greets its primary with three requests and reads a line for each of them, asks for the
stream by `PSYNC` and reads its reply. The replica reads all of it from one connection, on which
the primary may already have sent more. Whatever the other connections do meanwhile, the replica
ends up with the offset of its registration and with the stream after it. For the system of a
primary and its replicas this is a run in which the replica joins.
-/

namespace TrueStore.Server

open RespType

variable {F : Type} [Platform F]

/-- Who is still registered was registered before, and has not been disconnected. -/
def Detaches (s s' : Server F) : Prop :=
  ∀ fd ∈ s'.replicas, fd ∈ s.replicas ∧ (fd ∈ s.clients → fd ∈ s'.clients)

namespace Detaches

variable {s s₁ s₂ : Server F}

theorem refl (s : Server F) : Detaches s s := fun _ hfd => ⟨hfd, id⟩

theorem trans (h : Detaches s s₁) (h' : Detaches s₁ s₂) : Detaches s s₂ := by
  intro fd hfd
  obtain ⟨hmem, hclient⟩ := h' fd hfd
  obtain ⟨hmem', hclient'⟩ := h fd hmem
  exact ⟨hmem', hclient ∘ hclient'⟩

theorem of_eq (hr : s₁.replicas = s.replicas) (hc : s₁.clients = s.clients) : Detaches s s₁ :=
  fun _ hfd => ⟨hr ▸ hfd, fun hmem => hc ▸ hmem⟩

theorem insertClient (fd : ℤ) (client : ClientState) (s : Server F) :
    Detaches s { s with clients := s.clients.insert fd client } :=
  fun _ hfd => ⟨hfd, fun hmem => mem_clients_insert.mpr (.inr hmem)⟩

theorem closeClient (fd : ℤ) (s : Server F) : Detaches s (s.closeClient fd) := by
  intro fd' hfd
  rw [Server.closeClient, Std.ExtTreeMap.mem_erase, ne_eq, Std.compare_eq_iff_eq] at hfd
  exact ⟨hfd.2, fun hmem => mem_clients_closeClient.mpr ⟨hmem, Ne.symm hfd.1⟩⟩

theorem deliverAll (env : Env) (messages : List (ℤ × Bytes)) (s : Server F) :
    Detaches s (deliverAll env messages s) := by
  induction messages generalizing s with
  | nil => exact refl s
  | cons m messages ih =>
    obtain ⟨recipient, message⟩ := m
    unfold Server.deliverAll
    dsimp only
    split
    · split
      · exact (of_eq rfl rfl).trans (ih _)
      · exact ((of_eq rfl rfl).trans (closeClient recipient _)).trans (ih _)
    · exact ih s

theorem finish (env : Env) (fd : ℤ) (s : Server F) : Detaches s (s.finish env fd) := by
  have hdeliver : Detaches s (s.deliverMessages env) :=
    (of_eq rfl rfl).trans (deliverAll env s.store.pendingMessages _)
  unfold Server.finish
  dsimp only
  split
  · exact hdeliver.trans (closeClient fd _)
  · exact hdeliver

theorem sendToAll (env : Env) (payload : Bytes) (fds : List ℤ) (s : Server F) :
    Detaches s (sendToAll env payload fds s) := by
  induction fds generalizing s with
  | nil => exact refl s
  | cons fd fds ih =>
    unfold Server.sendToAll
    dsimp only
    split
    · exact (of_eq rfl rfl).trans (ih _)
    · apply Detaches.trans _ (ih _)
      intro fd' hfd
      exact ⟨Std.ExtTreeMap.mem_of_mem_erase hfd, id⟩

theorem propagate (env : Env) (fd : ℤ) (args : List Bytes) (s : Server F) :
    Detaches s (s.propagate env fd args) := by
  have hsend : Detaches s (s.sendToReplicas env (some fd) args) :=
    (of_eq rfl rfl).trans (sendToAll env (encode args) s.replicas.keys _)
  exact hsend.trans (insertClient fd _ _)

theorem propagateAll (env : Env) (fd : ℤ) (queue : List (List Bytes)) (s : Server F) :
    Detaches s (propagateAll env fd queue s) := by
  induction queue generalizing s with
  | nil => exact refl s
  | cons args queue ih => exact (propagate env fd args s).trans (ih _)

theorem logPending (inMulti : Bool) (s : Server F) : Detaches s (s.logPending inMulti) := by
  have happend : ∀ (queue : List (List Bytes)) (s : Server F),
      Detaches s (queue.foldl (fun s args => s.append args) s) := by
    intro queue
    induction queue with
    | nil => exact refl
    | cons args queue ih => exact fun s => (of_eq rfl rfl).trans (ih (s.append args))
  unfold Server.logPending
  cases inMulti
  · exact happend _ s
  · exact of_eq rfl rfl

theorem publish (env : Env) (fd : ℤ) (args : List Bytes) (inMulti : Bool) (reply : Bytes)
    (s : Server F) : Detaches s (s.publish env fd args inMulti reply) := by
  have hlog : Detaches s (s.logOwn args inMulti reply) := by
    unfold Server.logOwn
    split
    · exact of_eq rfl rfl
    · exact refl s
  unfold Server.publish
  dsimp only
  apply Detaches.trans _ (propagateAll env fd _ _)
  apply Detaches.trans _ (of_eq rfl rfl)
  apply Detaches.trans _ (logPending inMulti _)
  split
  · exact hlog.trans (propagate env fd args _)
  · exact hlog

theorem respond (env : Env) (fd : ℤ) (reply : Bytes) (s : Server F) :
    Detaches s (s.respond env fd reply).2 := by
  unfold Server.respond
  split
  · unfold block
    split
    · dsimp only
      split
      · exact of_eq rfl rfl
      · have hsend : Detaches s (({ s with store := { s.store with pendingBlock := none } }
            ).sendToReplicas env none [ascii "REPLCONF", ascii "GETACK", ascii "*"]) :=
          (of_eq rfl rfl).trans (sendToAll env _ s.replicas.keys _)
        exact hsend.trans (of_eq rfl rfl)
    · exact of_eq rfl rfl
  · split
    · exact refl s
    · dsimp only
      split
      · exact of_eq rfl rfl
      · exact (of_eq rfl rfl).trans (closeClient fd _)

theorem serveWaiter (env : Env) (w : Waiter) (s : Server F) :
    Detaches s (s.serveWaiter env w).2 := by
  have hfold : ∀ (queue : List (List Bytes)) (s : Server F),
      Detaches s (queue.foldl (fun s args => (s.append args).propagate env w.fd args) s) := by
    intro queue
    induction queue with
    | nil => exact refl
    | cons args queue ih =>
      exact fun s => ((of_eq rfl rfl).trans (propagate env w.fd args (s.append args))).trans (ih _)
  unfold Server.serveWaiter
  split
  · split
    · exact of_eq rfl rfl
    · exact refl s
  · split
    · exact refl s
    · rename_i key value store _
      have hpop : Detaches s { s with
          store := { store with pendingPropagations := [] }
          calls := s.calls ++ [Call.pop s.store.toKeyspace key] } := of_eq rfl rfl
      exact (hpop.trans (hfold store.pendingPropagations _)).trans (of_eq rfl rfl)
  · split
    · exact refl s
    · exact of_eq rfl rfl

theorem serveAll (env : Env) (ws : List Waiter) (s : Server F) :
    Detaches s (serveAll env ws s).2 := by
  induction ws generalizing s with
  | nil => exact refl s
  | cons w ws ih => exact (serveWaiter env w s).trans (ih _)

theorem expireAll (env : Env) (ws : List Waiter) (s : Server F) :
    Detaches s (expireAll env ws s) := by
  induction ws generalizing s with
  | nil => exact refl s
  | cons w ws ih =>
    unfold Server.expireAll
    split
    · split
      · exact (of_eq rfl rfl).trans (ih _)
      · exact (of_eq rfl rfl).trans (ih _)
    · exact ih s

theorem round (env : Env) (s : Server F) :
    Detaches s ((s.serveWaiters env).expireWaiters env) := by
  have hserve : Detaches s (s.serveWaiters env) :=
    (serveAll env s.waiters s).trans (of_eq rfl rfl)
  exact (hserve.trans (expireAll env _ _)).trans (of_eq rfl rfl)

end Detaches

def Attached (s : Server F) : Prop := ∀ fd ∈ s.replicas, fd ∈ s.clients

theorem Detaches.attached {s s' : Server F} (h : Detaches s s') (ha : s.Attached) :
    s'.Attached := fun fd hfd => (h fd hfd).2 (ha fd (h fd hfd).1)

theorem attached_command {s : Server F} (ha : s.Attached) (env : Env) (fd : ℤ)
    (args : List Bytes) : (s.command env fd args).Attached := by
  unfold command
  split
  · exact ha
  · rename_i client hclient
    have hconnected : fd ∈ s.clients := by
      rw [Std.ExtTreeMap.mem_iff_isSome_getElem?, hclient]
      rfl
    split
    · unfold acknowledge
      split
      · intro fd' hfd
        dsimp only at hfd
        split at hfd
        · rw [Std.ExtTreeMap.mem_insert, Std.compare_eq_iff_eq] at hfd
          rcases hfd with rfl | hfd
          · exact hconnected
          · exact ha fd' hfd
        · exact ha fd' hfd
      · exact ha
    · have hdetaches : Detaches s (s.handle env 0 fd args).2 :=
        fun _ hfd => ⟨hfd, fun hmem => mem_clients_insert.mpr (.inr hmem)⟩
      have hhandle := hdetaches.attached ha
      have hregister : ((s.handle env 0 fd args).2.register fd args client.inMulti
          (s.handle env 0 fd args).1).Attached := by
        unfold register
        split
        · intro fd' hfd
          rw [Std.ExtTreeMap.mem_insertIfNew, Std.compare_eq_iff_eq] at hfd
          rcases hfd with rfl | hfd
          · exact mem_clients_insert.mpr (.inl rfl)
          · exact hhandle fd' hfd
        · exact hhandle
      have hpublish := (Detaches.publish env fd args client.inMulti (s.handle env 0 fd args).1
        _).attached hregister
      have hrespond := (Detaches.respond env fd (s.handle env 0 fd args).1 _).attached hpublish
      dsimp only
      split
      · exact (Detaches.finish env fd _).attached hrespond
      · exact hrespond

theorem attached_step {s : Server F} (ha : s.Attached) (hm : s.masterFd = none) (env : Env)
    (event : Event) : (s.step env event).Attached := by
  unfold step
  split
  · exact ha
  · cases event with
    | accept fd =>
      dsimp only
      unfold accept
      split
      · exact ha
      · exact (Detaches.insertClient fd _ s).attached ha
    | request fd r =>
      dsimp only
      split
      · exact ha
      · exact attached_command ha env fd r.args
    | hangup fd =>
      dsimp only
      split
      · exact (Detaches.closeClient fd s).attached ha
      · exact ha
    | chunk bytes => simpa [fromMaster, hm] using ha
    | masterClosed => simpa [Server.masterClosed, hm] using ha
    | round => exact (Detaches.round env s).attached ha

end TrueStore.Server

namespace TrueStore.Cluster

open RespType Server

variable {F : Type} [Platform F]

/-- The requests that a replica with some port sends before its `PSYNC`. -/
def greetings (port : ℤ) : List (List Bytes) :=
  [[ascii "PING"], [ascii "REPLCONF", ascii "listening-port", decimalInt port],
    [ascii "REPLCONF", ascii "capa", ascii "psync2"]]

/-- `connect_to_master`: a line for each of the greetings, and the reply to `PSYNC`. -/
def connectToMaster (input : Bytes) : Option (ℤ × Bytes) :=
  let pong := readLine input
  let listening := readLine pong.2
  let capa := readLine listening.2
  if pong.1 = [] ∨ listening.1 = [] ∨ capa.1 = [] then none
  else handshake capa.2

theorem connectToMaster_lines {lines : List Bytes} (hlength : lines.length = 3)
    (hlines : ∀ line ∈ lines, 13 ∉ line) (rest : Bytes) :
    connectToMaster ((lines.map (· ++ crlf)).flatten ++ rest) = handshake rest := by
  obtain ⟨pong, listening, capa, rfl⟩ := List.length_eq_three.mp hlength
  have hpong : 13 ∉ pong := hlines pong (by simp)
  have hlistening : 13 ∉ listening := hlines listening (by simp)
  have hcapa : 13 ∉ capa := hlines capa (by simp)
  have hinput : ([pong, listening, capa].map (· ++ crlf)).flatten ++ rest =
      pong ++ (crlf ++ (listening ++ (crlf ++ (capa ++ (crlf ++ rest))))) := by simp
  have hne : ∀ line : Bytes, line ++ crlf ≠ [] := by simp [crlf]
  unfold connectToMaster
  rw [hinput, readLine_append hpong]
  dsimp only
  rw [readLine_append hlistening]
  dsimp only
  rw [readLine_append hcapa]
  dsimp only
  rw [if_neg (by simp [hne])]

section Run

variable {config : Config} {replid : ReplId} {s s₁ s₂ : Server F} {link : ℤ}

theorem Primary.any (h : Primary Loggable config replid s) (env : Env) (event : Event) :
    Primary Loggable config replid (s.step env event) := by
  cases hl : event.isLocal with
  | true =>
    exact h.step kinds_loggable env event hl
      (carries_of_requests event.carries_anything fun r _ => loggable_request r)
  | false =>
    rw [step_chunk_of_masterless h.masterFd env hl]
    exact h

theorem primary_run (h : Primary Loggable config replid s) (events : List (Env × Event)) :
    Primary Loggable config replid (run events s) :=
  run_preserves (fun _ env event h => h.any env event) events h

theorem Primary.grows (h : Primary Loggable config replid s) (env : Env) (event : Event) :
    ∃ items new, (s.step env event).stream = s.stream ++ items ∧
      (s.step env event).sends = s.sends ++ new := by
  cases hl : event.isLocal with
  | true =>
    have hs := h.settled kinds_loggable
    obtain ⟨items, hitems, -⟩ := streams_step kinds_loggable.pops hs env
      (carries_of_requests event.carries_anything fun r _ => loggable_request r) hl
    obtain ⟨_, hanswered, -⟩ := answered_step h.tracked hs.block hs.pending env hl
      fun _ _ _ _ _ _ => trivial
    obtain ⟨new, hnew, -⟩ := hanswered.sends
    exact ⟨items, new, hitems, hnew⟩
  | false =>
    rw [step_chunk_of_masterless h.masterFd env hl]
    exact ⟨[], [], by simp, by simp⟩

theorem grows_run (h : Primary Loggable config replid s) (events : List (Env × Event)) :
    ∃ items new, (run events s).stream = s.stream ++ items ∧
      (run events s).sends = s.sends ++ new := by
  induction events generalizing s with
  | nil => exact ⟨[], [], by simp [run], by simp [run]⟩
  | cons e events ih =>
    obtain ⟨items, new, hstream, hsends⟩ := h.grows e.1 e.2
    obtain ⟨items', new', hstream', hsends'⟩ := ih (h.any e.1 e.2)
    refine ⟨items ++ items', new ++ new', ?_, ?_⟩
    · rw [← List.append_assoc, ← hstream]
      exact hstream'
    · rw [← List.append_assoc, ← hsends]
      exact hsends'

theorem sent_cons (h : Primary Loggable config replid s) (e : Env × Event)
    (events : List (Env × Event)) :
    sent s (run (e :: events) s) =
      sent s (s.step e.1 e.2) ++ sent (s.step e.1 e.2) (run events (s.step e.1 e.2)) := by
  obtain ⟨-, new, -, hsends⟩ := h.grows e.1 e.2
  obtain ⟨-, new', -, hsends'⟩ := grows_run (h.any e.1 e.2) events
  have hall : (run (e :: events) s).sends = s.sends ++ (new ++ new') := by
    rw [← List.append_assoc, ← hsends]
    exact hsends'
  rw [sent_eq hsends, sent_eq hsends', sent_eq hall]

theorem sent_append (h : Primary Loggable config replid s)
    (events events' : List (Env × Event)) :
    sent s (run (events ++ events') s) =
      sent s (run events s) ++ sent (run events s) (run events' (run events s)) := by
  induction events generalizing s with
  | nil => simp [run, sent]
  | cons e events ih =>
    rw [List.cons_append, sent_cons h, sent_cons h, ih (h.any e.1 e.2), List.append_assoc]
    rfl

def eventsOn (link : ℤ) (events : List (Env × Event)) : List Event :=
  (events.map Prod.snd).filter fun event => event.fd? = some link

theorem mem_eventsOn {events : List (Env × Event)} {e : Env × Event} (he : e ∈ events)
    (hfd : e.2.fd? = some link) : e.2 ∈ eventsOn link events :=
  List.mem_filter.mpr ⟨List.mem_map_of_mem he, by simpa using hfd⟩

theorem fd_ne_of_eventsOn_nil {events : List (Env × Event)} (hnone : eventsOn link events = [])
    {e : Env × Event} (he : e ∈ events) : e.2.fd? ≠ some link := by
  intro hfd
  have hmem := mem_eventsOn he hfd
  rw [hnone] at hmem
  cases hmem

theorem Primary.feeds (h : Primary Loggable config replid s) (ha : s.Apart link) (env : Env)
    {event : Event} (hfd : event.fd? ≠ some link) : Feeds link s (s.step env event) := by
  cases hl : event.isLocal with
  | true => exact feeds_step ha h.numbered env hl hfd
  | false =>
    rw [step_chunk_of_masterless h.masterFd env hl]
    exact .refl s

theorem feeds_run (h : Primary Loggable config replid s) (ha : s.Apart link)
    {events : List (Env × Event)} (hnone : eventsOn link events = [])
    (hl : Lossless link (sent s (run events s))) :
    ∃ items, (run events s).stream = s.stream ++ items ∧ Spares link s (run events s) ∧
      payloadsTo link (sent s (run events s)) =
        if s.replicas.contains link then items.map (encode ·.args) else [] := by
  induction events generalizing s with
  | nil =>
    refine ⟨[], by simp [run], ⟨ha, rfl, rfl, rfl, fun _ => rfl, rfl, rfl⟩, ?_⟩
    have hsent : sent s (run [] s) = [] := sent_same rfl
    rw [hsent]
    split <;> rfl
  | cons e events ih =>
    obtain ⟨hfd, hnone⟩ : e.2.fd? ≠ some link ∧ eventsOn link events = [] := by
      simpa [eventsOn] using hnone
    rw [sent_cons h] at hl ⊢
    obtain ⟨hl, hl'⟩ := Lossless.append.mp hl
    obtain ⟨items, new, hstream, hsends, hfeed⟩ := h.feeds ha e.1 hfd
    rw [sent_eq hsends] at hl ⊢
    obtain ⟨hspares, hpayloads⟩ := hfeed hl ha
    obtain ⟨items', hstream', hspares', hpayloads'⟩ := ih (h.any e.1 e.2) hspares.apart hnone hl'
    refine ⟨items ++ items', ?_, hspares.trans hspares', ?_⟩
    · rw [← List.append_assoc, ← hstream]
      exact hstream'
    · have hreplica : (s.step e.1 e.2).replicas.contains link = s.replicas.contains link := by
        rw [Std.ExtTreeMap.contains_eq_isSome_getElem?, hspares.replica,
          ← Std.ExtTreeMap.contains_eq_isSome_getElem?]
      rw [payloadsTo_append, hpayloads, hpayloads', hreplica]
      split
      · rw [List.map_append]
      · rfl

end Run

section Requests

variable {config : Config} {replid : ReplId} {s : Server F} {link : ℤ} {client : ClientState}
  {args : List Bytes} {name : CommandName} {port : ℤ}

theorem Unused.dispatched (hu : Unused link client s) (hauth : client.authenticated = true)
    (hname : commandName (upperName args) = some name) (hargs : args ≠ [])
    (clock : ℕ → Readings) :
    handleCommand clock args s.store client = dispatchCommand (clock 0) args s.store client := by
  have hcontrol := not_mem_controlCommands_of_commandName hname
  simp only [handleCommand, refusal_of_free hauth hu.subscriptions hargs,
    runCommand_of_not_control hcontrol, hu.inMulti, Bool.false_eq_true, if_false]

theorem Unused.greeted (hu : Unused link client s) (hauth : client.authenticated = true)
    (hargs : args ∈ greetings port) (clock : ℕ → Readings) :
    ∃ line, 13 ∉ line ∧
      handleCommand clock args s.store client = (line ++ crlf, s.store, client) := by
  have hreplconf : ∀ rest, commandName (upperName (ascii "REPLCONF" :: rest)) = some .replconf :=
    fun rest => by
      have hname : commandName (upperName [ascii "REPLCONF"]) = some .replconf := by decide
      exact hname
  simp only [greetings, List.mem_cons, List.not_mem_nil, or_false] at hargs
  rcases hargs with rfl | rfl | rfl
  · have hname : commandName (upperName [ascii "PING"]) = some .ping := by decide
    refine ⟨ascii "+PONG", by decide, ?_⟩
    rw [hu.dispatched hauth hname (by simp)]
    simp only [dispatchCommand, hname, ping, hu.subscriptions]
    rfl
  · refine ⟨ascii "+OK", by decide, ?_⟩
    rw [hu.dispatched hauth (hreplconf _) (by simp)]
    simp only [dispatchCommand, hreplconf]
    rfl
  · refine ⟨ascii "+OK", by decide, ?_⟩
    rw [hu.dispatched hauth (hreplconf _) (by simp)]
    simp only [dispatchCommand, hreplconf]
    rfl

theorem ackText_of_mem_greetings (hargs : args ∈ greetings port) (client : ClientState)
    (s : Server F) : s.ackText args client = none := by
  have hlistening : toUpper (ascii "listening-port") ≠ ascii "ACK" := by decide
  have hcapa : toUpper (ascii "capa") ≠ ascii "ACK" := by decide
  simp only [greetings, List.mem_cons, List.not_mem_nil, or_false] at hargs
  rcases hargs with rfl | rfl | rfl
  · rfl
  · simp [ackText, hlistening]
  · simp [ackText, hcapa]

theorem upperName_of_mem_greetings (hargs : args ∈ greetings port) :
    isWriteCommand (upperName args) = false ∧ upperName args ≠ ascii "PSYNC" := by
  simp only [greetings, List.mem_cons, List.not_mem_nil, or_false] at hargs
  rcases hargs with rfl | rfl | rfl
  · decide
  · show isWriteCommand (upperName [ascii "REPLCONF"]) = false ∧
      upperName [ascii "REPLCONF"] ≠ ascii "PSYNC"
    decide
  · decide

theorem Primary.request (h : Primary Loggable config replid s) (env : Env) (link : ℤ)
    (r : Request) : s.step env (.request link r) = s.command env link r.args := by
  simp [Server.step, h.halted, h.masterFd]

/-- Before its `PSYNC` the replica hears a line for each of its requests and nothing else. -/
theorem greeted_run (h : Primary Loggable config replid s) (hu : Unused link client s)
    (hauth : client.authenticated = true) (hr : s.replicas[link]? = none)
    {events : List (Env × Event)} {rs : List Request}
    (hrs : ∀ r ∈ rs, r.args ∈ greetings port)
    (hon : eventsOn link events = rs.map (Event.request link))
    (hl : Lossless link (sent s (run events s))) :
    Unused link client (run events s) ∧ (run events s).replicas[link]? = none ∧
      ∃ lines : List Bytes, lines.length = rs.length ∧ (∀ line ∈ lines, 13 ∉ line) ∧
        payloadsTo link (sent s (run events s)) = lines.map (· ++ crlf) := by
  induction events generalizing s rs with
  | nil =>
    have hsent : sent s (run [] s) = [] := sent_same rfl
    have hnil : rs = [] := (List.map_eq_nil_iff.mp hon.symm)
    exact ⟨hu, hr, [], by simp [hnil], by simp, by rw [hsent]; rfl⟩
  | cons e events ih =>
    obtain ⟨env, event⟩ := e
    rw [sent_cons h] at hl ⊢
    obtain ⟨hl, hl'⟩ := Lossless.append.mp hl
    rw [payloadsTo_append]
    by_cases hfd : event.fd? = some link
    · have hcons : event :: eventsOn link events = rs.map (Event.request link) := by
        simpa [eventsOn, hfd] using hon
      obtain ⟨r, rs, rfl, rfl, hrest⟩ := List.map_eq_cons_iff.mp hcons.symm
      rw [List.forall_mem_cons] at hrs
      obtain ⟨line, hline, hreply⟩ := hu.greeted hauth hrs.1 (env.clock 0)
      obtain ⟨hw, hpsync⟩ := upperName_of_mem_greetings hrs.1
      obtain ⟨-, hidle⟩ := hu.idle (h.settled kinds_loggable)
        (ackText_of_mem_greetings hrs.1 client s) hreply hw (by simp [crlf])
      rw [h.request env link r] at hl
      obtain ⟨hpayloads, hunused, hreplica⟩ := hidle hl
      have hanswered : (s.answered env link r.args client.inMulti).replicas = s.replicas := by
        unfold answered register
        rw [if_neg fun hname => hpsync hname.1]
        rfl
      rw [← h.request env link r] at hpayloads hunused hreplica
      rw [hanswered, hr] at hreplica
      obtain ⟨hunused', hr', lines, hlength, hlines, hpayloads'⟩ :=
        ih (h.any env _) hunused hreplica hrs.2 hrest.symm hl'
      refine ⟨hunused', hr', line :: lines, by simp [hlength], ?_, ?_⟩
      · exact List.forall_mem_cons.mpr ⟨hline, hlines⟩
      · rw [hpayloads, hpayloads']
        rfl
    · have hrest : eventsOn link events = rs.map (Event.request link) := by
        simpa [eventsOn, hfd] using hon
      obtain ⟨items, new, -, hsends, hfeed⟩ := h.feeds hu.apart env hfd
      rw [sent_eq hsends] at hl ⊢
      obtain ⟨hspares, hpayloads⟩ := hfeed hl hu.apart
      have hunused : Unused link client (s.step env event) :=
        ⟨hspares.apart, hspares.client.trans hu.connected, hu.subscriptions, hu.inMulti, hu.stays⟩
      obtain ⟨hunused', hr', lines, hlength, hlines, hpayloads'⟩ :=
        ih (h.any env event) hunused (hspares.replica.trans hr) hrs hrest hl'
      refine ⟨hunused', hr', lines, hlength, hlines, ?_⟩
      have hcontains : s.replicas.contains link = false := by
        rw [Std.ExtTreeMap.contains_eq_isSome_getElem?, hr]
        rfl
      rw [hpayloads, hcontains, hpayloads']
      rfl

theorem registered_psync (h : Primary Loggable config replid s) (hu : Unused link client s)
    (hauth : client.authenticated = true) (hr : s.replicas[link]? = none) (env : Env)
    {r : Request} (hargs : r.args = psync)
    (hl : Lossless link (sent s (s.step env (.request link r)))) :
    (s.step env (.request link r)).stream = s.stream ∧
      Unused link client (s.step env (.request link r)) ∧
      (s.step env (.request link r)).replicas[link]? = some s.store.masterReplOffset ∧
      payloadsTo link (sent s (s.step env (.request link r))) =
        [(s.store.handlePsync psync).1] := by
  have hname : commandName (upperName psync) = some .psync := by decide
  have hreply : handleCommand (env.clock 0) psync s.store client =
      ((s.store.handlePsync psync).1, s.store, client) := by
    rw [hu.dispatched hauth hname (by simp [psync])]
    simp only [dispatchCommand, hname]
    rfl
  have hne : (s.store.handlePsync psync).1 ≠ [] := by
    simp [Store.handlePsync, RespType.toBytes]
  have hack : s.ackText psync client = none := by
    have hreplconf : toUpper (ascii "PSYNC") ≠ ascii "REPLCONF" := by decide
    simp [ackText, psync, hreplconf]
  obtain ⟨hstream, hidle⟩ := hu.idle (h.settled kinds_loggable) hack hreply (by decide) hne
  rw [h.request env link r, hargs] at hl ⊢
  obtain ⟨hpayloads, hunused, hreplica⟩ := hidle hl
  refine ⟨hstream, hunused, ?_, hpayloads⟩
  have hget : s.clients.getD link {} = client := by
    simp [Std.ExtTreeMap.getD_eq_getD_getElem?, hu.connected]
  have hanswered : (s.answered env link psync client.inMulti).replicas =
      s.replicas.insertIfNew link s.store.masterReplOffset := by
    have herror : isError (s.store.handlePsync psync).1 = false := rfl
    unfold answered register
    rw [if_pos]
    · simp [handle, hget, hreply]
    · simp only [handle, hget, hreply, hu.inMulti, herror]
      exact ⟨by decide, rfl, hne, rfl⟩
  have hnot : link ∉ s.replicas := by
    rw [Std.ExtTreeMap.mem_iff_isSome_getElem?, hr]
    simp
  rw [hreplica, hanswered, Std.ExtTreeMap.getElem?_insertIfNew, if_pos ⟨by simp, hnot⟩]

theorem Primary.accepted (h : Primary Loggable config replid s) (hs : s.Agrees)
    (ha : s.Attached) (hw : s.Waiting) (env : Env) (hnew : link ∉ s.clients)
    (hmessages : ∀ m ∈ s.store.pendingMessages, m.1 ≠ link)
    (hauto : s.store.defaultUserAutoAuth = true) :
    Unused link { fd := link, authenticated := true } (s.step env (.accept link)) ∧
      (s.step env (.accept link)).replicas[link]? = none ∧
      (s.step env (.accept link)).stream = s.stream := by
  have hstep : s.step env (.accept link) = { s with
      clients := s.clients.insert link { fd := link, authenticated := true }
      joined := s.joined.insert link s.stream.length } := by
    simp only [Server.step, h.halted, Bool.false_eq_true, if_false, Server.accept]
    rw [if_neg (by simpa using hnew), hauto]
  rw [hstep]
  refine ⟨⟨⟨?_, hmessages, ?_⟩, by simp, rfl, rfl, rfl⟩, ?_, rfl⟩
  · rintro w hw' rfl
    exact hnew (hw w hw')
  · intro channel hsub
    obtain ⟨client, hclient, -⟩ := (hs.subscribers channel link).mp hsub
    rw [Std.ExtTreeMap.mem_iff_isSome_getElem?, hclient] at hnew
    exact hnew rfl
  · by_contra hsome
    apply hnew
    apply ha
    rw [Std.ExtTreeMap.mem_iff_isSome_getElem?]
    exact Option.isSome_iff_ne_none.mpr hsome

theorem exists_split {events : List (Env × Event)} {xs : List Event} {x : Event}
    (h : eventsOn link events = xs ++ [x]) :
    ∃ earlier env later, events = earlier ++ (env, x) :: later ∧ eventsOn link earlier = xs ∧
      eventsOn link later = [] := by
  induction events generalizing xs with
  | nil => simp [eventsOn] at h
  | cons e events ih =>
    obtain ⟨env, event⟩ := e
    by_cases hfd : event.fd? = some link
    · have hcons : event :: eventsOn link events = xs ++ [x] := by simpa [eventsOn, hfd] using h
      cases xs with
      | nil =>
        obtain ⟨rfl, hnone⟩ := List.cons.inj hcons
        exact ⟨[], env, events, rfl, rfl, hnone⟩
      | cons y xs =>
        obtain ⟨rfl, hxs⟩ := List.cons.inj hcons
        obtain ⟨earlier, env', later, rfl, hearlier, hlater⟩ := ih hxs
        exact ⟨(env, event) :: earlier, env', later, rfl, by simpa [eventsOn, hfd] using hearlier,
          hlater⟩
    · obtain ⟨earlier, env', later, rfl, hearlier, hlater⟩ := ih (by simpa [eventsOn, hfd] using h)
      exact ⟨(env, event) :: earlier, env', later, rfl, by simpa [eventsOn, hfd] using hearlier,
        hlater⟩

end Requests

section Joins

variable {P Q : List Bytes → Prop} {config : Config} {replid : ReplId} {sys : Cluster F}
  {link port : ℤ} {client : ClientState}

/-- The events of the primary's own clients. -/
def Around (P : List Bytes → Prop) (sys : Cluster F) (event : Event) : Prop :=
  event.isLocal = true ∧ event.Carries P ∧ ∀ fd, event.fd? = some fd → sys.peers fd = none

theorem Around.move {event : Event} (h : sys.Around P event) (s : Server F) :
    (sys.move s).Around P event := by
  obtain ⟨hlocal, hcarries, hnone⟩ := h
  exact ⟨hlocal, hcarries, fun fd hfd => by simp [Cluster.move, hnone fd hfd]⟩

theorem move_self (sys : Cluster F) : sys.move sys.primary = sys := by
  have hsent : sent sys.primary sys.primary = [] := sent_same rfl
  have hpeers : (sys.move sys.primary).peers = sys.peers := by
    funext link
    simp [move, hsent, payloadsTo]
  calc sys.move sys.primary = ⟨sys.primary, (sys.move sys.primary).peers⟩ := rfl
    _ = sys := by rw [hpeers]

theorem move_move (sys : Cluster F) {s₁ s₂ : Server F}
    (h : sent sys.primary s₂ = sent sys.primary s₁ ++ sent s₁ s₂) :
    (sys.move s₁).move s₂ = sys.move s₂ := by
  have hpeers : ((sys.move s₁).move s₂).peers = (sys.move s₂).peers := by
    funext link
    simp only [move, h, payloadsTo_append, List.flatten_append, Option.map_map]
    congr 1
    funext q
    simp
  calc (sys.move s₁).move s₂ = ⟨s₂, ((sys.move s₁).move s₂).peers⟩ := rfl
    _ = sys.move s₂ := by rw [hpeers]; rfl

theorem setPeer_move {s : Server F} {q : Peer F} :
    (sys.setPeer link (some q)).move s = (sys.move s).setPeer link (some
      { q with down := q.down ++ (payloadsTo link (sent sys.primary s)).flatten }) := by
  have hpeers : ((sys.setPeer link (some q)).move s).peers = ((sys.move s).setPeer link (some
      { q with down := q.down ++ (payloadsTo link (sent sys.primary s)).flatten })).peers := by
    funext other
    by_cases ho : other = link
    · subst ho
      simp [move, setPeer]
    · simp [move, setPeer, Function.update_of_ne ho]
  calc (sys.setPeer link (some q)).move s = ⟨s, ((sys.setPeer link (some q)).move s).peers⟩ := rfl
    _ = _ := by rw [hpeers]; rfl

theorem Delivers.of_append {s₁ s₂ : Server F} (hd : sys.Delivers s₂)
    (h : sent sys.primary s₂ = sent sys.primary s₁ ++ sent s₁ s₂) :
    sys.Delivers s₁ ∧ (sys.move s₁).Delivers s₂ := by
  constructor
  · intro link hlink
    have hl := hd link hlink
    rw [h] at hl
    exact (Lossless.append.mp hl).1
  · intro link hlink
    have hl := hd link (by simpa [move] using hlink)
    rw [h] at hl
    exact (Lossless.append.mp hl).2

theorem steps_primary (sys : Cluster F) (h : Primary Loggable config replid sys.primary)
    {events : List (Env × Event)} (haround : ∀ e ∈ events, sys.Around P e.2)
    (hd : sys.Delivers (run events sys.primary)) :
    Relation.ReflTransGen (Step P Q) sys (sys.move (run events sys.primary)) := by
  induction events generalizing sys with
  | nil =>
    change Relation.ReflTransGen (Step P Q) sys (sys.move sys.primary)
    rw [move_self]
  | cons e events ih =>
    rw [List.forall_mem_cons] at haround
    obtain ⟨⟨hl, he, hfd⟩, haround⟩ := haround
    have hsent := sent_cons h e events
    obtain ⟨hd₁, hd₂⟩ := hd.of_append hsent
    have hstep : Step P Q sys (sys.move (sys.primary.step e.1 e.2)) := .primary e.1 hl hfd he hd₁
    have hrest := ih (sys.move (sys.primary.step e.1 e.2)) (h.any e.1 e.2)
      (fun e' he' => (haround e' he').move _) hd₂
    have hmove := move_move sys hsent
    change Relation.ReflTransGen (Step P Q) _
      ((sys.move (sys.primary.step e.1 e.2)).move (run (e :: events) sys.primary)) at hrest
    rw [hmove] at hrest
    exact .head hstep hrest

/-- The `PSYNC` of a replica on a connection that is not in use. -/
theorem step_joined (sys : Cluster F) (h : Primary Loggable config replid sys.primary)
    (hu : Unused link client sys.primary) (hauth : client.authenticated = true)
    (hr : sys.primary.replicas[link]? = none) (hpeer : sys.peers link = none) (env : Env)
    {r : Request} (hargs : r.args = psync)
    (hd : sys.Delivers (sys.primary.step env (.request link r)))
    (hl : Lossless link (sent sys.primary (sys.primary.step env (.request link r))))
    (hsmall : Small sys.primary) (own : Config) (ownId : ReplId) (fd : ℤ) :
    Step P Q sys ((sys.move (sys.primary.step env (.request link r))).setPeer link (some
      { server := boot own ownId (some (fd, ((streamBytes sys.primary.stream).length : ℤ)))
        fd
        since := sys.primary.stream.length
        down := [] })) := by
  obtain ⟨hstream, -, -, hpayloads⟩ := registered_psync h hu hauth hr env hargs hl
  have hreplid : 13 ∉ sys.primary.store.masterReplid := by
    rw [h.masterReplid]
    exact not_mem_replid replid
  have hshake : handshake (payloadsTo link
      (sent sys.primary (sys.primary.step env (.request link r)))).flatten =
        some (((streamBytes sys.primary.stream).length : ℤ), []) := by
    rw [hpayloads, List.flatten_singleton, ← List.append_nil (Prod.fst _),
      handshake_psync hreplid, initialOffset_fullresync h.tracked.offset hsmall]
  have hjoined := Step.join (P := P) (Q := Q) env own ownId fd hpeer hargs hu hd hl hshake
  rw [hstream] at hjoined
  exact hjoined

/-- A replica is sent the stream while it reads nothing. -/
theorem steps_fed (sys : Cluster F) (h : Primary Loggable config replid sys.primary)
    (hu : Unused link client sys.primary) (hc : sys.primary.replicas.contains link = true)
    {events : List (Env × Event)} (hnone : eventsOn link events = [])
    (haround : ∀ e ∈ events, sys.Around P e.2) (hd : sys.Delivers (run events sys.primary))
    (hl : Lossless link (sent sys.primary (run events sys.primary))) (q : Peer F) :
    ∃ items, (run events sys.primary).stream = sys.primary.stream ++ items ∧
      payloadsTo link (sent sys.primary (run events sys.primary)) = items.map (encode ·.args) ∧
      (run events sys.primary).replicas[link]? = sys.primary.replicas[link]? ∧
      Relation.ReflTransGen (Step P Q) (sys.setPeer link (some q))
        ((sys.move (run events sys.primary)).setPeer link (some
          { q with down := q.down ++ streamBytes items })) := by
  obtain ⟨items, hstream, hspares, hpayloads⟩ := feeds_run h hu.apart hnone hl
  rw [hc, if_pos rfl] at hpayloads
  refine ⟨items, hstream, hpayloads, hspares.replica, ?_⟩
  have hbytes : streamBytes items = (payloadsTo link (sent sys.primary
      (run events sys.primary))).flatten := by
    rw [hpayloads]
    rfl
  rw [hbytes, ← setPeer_move]
  have haround' : ∀ e ∈ events, (sys.setPeer link (some q)).Around P e.2 := by
    intro e he
    obtain ⟨hlocal, hcarries, hfd⟩ := haround e he
    refine ⟨hlocal, hcarries, fun other ho => ?_⟩
    have hne : other ≠ link := by
      rintro rfl
      exact fd_ne_of_eventsOn_nil hnone he ho
    exact (Function.update_of_ne hne _ _).trans (hfd other ho)
  have hdelivers : (sys.setPeer link (some q)).Delivers (run events sys.primary) := by
    intro other ho
    by_cases hne : other = link
    · rw [hne]
      exact hl
    · exact hd other (by simpa [setPeer, Function.update_of_ne hne] using ho)
  exact steps_primary (sys.setPeer link (some q)) h haround' hdelivers

/-- The greetings of a replica. -/
theorem steps_greeted (h : Primary Loggable config replid sys.primary)
    (hpeer : sys.peers link = none) {events : List (Env × Event)} {rs : List Request}
    (hrs : ∀ r ∈ rs, r.args ∈ greetings port)
    (hon : eventsOn link events = rs.map (Event.request link))
    (hgreet : ∀ args ∈ greetings port, P args)
    (haround : ∀ e ∈ events, e.2.fd? ≠ some link → sys.Around P e.2)
    (hd : sys.Delivers (run events sys.primary)) :
    Relation.ReflTransGen (Step P Q) sys (sys.move (run events sys.primary)) := by
  refine steps_primary sys h (fun e he => ?_) hd
  by_cases hfd : e.2.fd? = some link
  · have hmem := mem_eventsOn he hfd
    rw [hon] at hmem
    obtain ⟨r, hr, hevent⟩ := List.mem_map.mp hmem
    rw [← hevent]
    exact ⟨rfl, hgreet _ (hrs r hr), fun fd hfd => by cases hfd; exact hpeer⟩
  · exact haround e he hfd

/-- The handshake on a connection that is not in use. -/
theorem connected_steps (sys : Cluster F) (h : Primary Loggable config replid sys.primary)
    (hu : Unused link client sys.primary) (hauth : client.authenticated = true)
    (hr : sys.primary.replicas[link]? = none) (hpeer : sys.peers link = none)
    {events : List (Env × Event)} {rs : List Request}
    (hrs : rs.map Request.args = greetings port ++ [psync])
    (hon : eventsOn link events = rs.map (Event.request link))
    (hgreet : ∀ args ∈ greetings port, P args)
    (haround : ∀ e ∈ events, e.2.fd? ≠ some link → sys.Around P e.2)
    (hd : sys.Delivers (run events sys.primary))
    (hl : Lossless link (sent sys.primary (run events sys.primary)))
    (hsmall : Small (run events sys.primary)) (own : Config) (ownId : ReplId) (fd : ℤ) :
    ∃ earlier later, (run events sys.primary).stream = earlier ++ later ∧
      sys.primary.stream <+: earlier ∧
      connectToMaster (payloadsTo link (sent sys.primary (run events sys.primary))).flatten =
        some (((streamBytes earlier).length : ℤ), streamBytes later) ∧
      (run events sys.primary).replicas[link]? = some ((streamBytes earlier).length : ℤ) ∧
      Relation.ReflTransGen (Step P Q) sys
        ((sys.move (run events sys.primary)).setPeer link (some
          { server := boot own ownId (some (fd, ((streamBytes earlier).length : ℤ)))
            fd
            since := earlier.length
            down := streamBytes later })) := by
  obtain ⟨gs, ps, rfl, hgreetings, hpsync⟩ := List.map_eq_append_iff.mp hrs
  obtain ⟨r, rfl, hargs⟩ := List.map_eq_singleton_iff.mp hpsync
  rw [List.map_append] at hon
  obtain ⟨first, env, last, rfl, hfirst, hlast⟩ := exists_split hon
  have hmem : ∀ g ∈ gs, g.args ∈ greetings port := by
    intro g hg
    rw [← hgreetings]
    exact List.mem_map_of_mem hg
  -- the run in three parts
  obtain ⟨s₁, hs₁⟩ : ∃ s₁, s₁ = run first sys.primary := ⟨_, rfl⟩
  obtain ⟨s₂, hs₂⟩ : ∃ s₂, s₂ = s₁.step env (.request link r) := ⟨_, rfl⟩
  have hrun : run (first ++ (env, .request link r) :: last) sys.primary = run last s₂ := by
    rw [hs₂, hs₁]
    exact run_append _ _ _
  have h₁ : Primary Loggable config replid s₁ := hs₁ ▸ primary_run h first
  have h₂ : Primary Loggable config replid s₂ := hs₂ ▸ h₁.any env (.request link r)
  have hsent₂ : sent sys.primary s₂ = sent sys.primary s₁ ++ sent s₁ s₂ := by
    have hsent := sent_append h first [(env, .request link r)]
    rw [run_append, ← hs₁] at hsent
    rw [hs₂]
    exact hsent
  have hsent₃ : sent sys.primary (run last s₂) =
      sent sys.primary s₂ ++ sent s₂ (run last s₂) := by
    have hsent := sent_append h first ((env, .request link r) :: last)
    rw [hrun, ← hs₁, sent_cons h₁] at hsent
    change _ = _ ++ (sent s₁ (s₁.step env (.request link r)) ++
      sent (s₁.step env (.request link r)) (run last (s₁.step env (.request link r)))) at hsent
    rw [hsent, hs₂, ← hs₂, hsent₂, List.append_assoc]
  rw [hrun] at hd hl hsmall ⊢
  obtain ⟨hd₂, hd₃⟩ := hd.of_append hsent₃
  obtain ⟨hd₁, hd₂⟩ := hd₂.of_append hsent₂
  rw [hsent₃, hsent₂] at hl
  obtain ⟨hl, hl₃⟩ := Lossless.append.mp hl
  obtain ⟨hl₁, hl₂⟩ := Lossless.append.mp hl
  -- the greetings
  obtain ⟨items, -, hitems, -⟩ := grows_run h first
  rw [hs₁] at hd₁ hl₁
  obtain ⟨hunused₁, hr₁, lines, hlength, hlines, hpayloads₁⟩ :=
    greeted_run h hu hauth hr hmem hfirst hl₁
  have hgreeted := steps_greeted (Q := Q) h hpeer hmem hfirst hgreet
    (fun e he => haround e (List.mem_append_left _ he)) hd₁
  rw [← hs₁] at hunused₁ hr₁ hpayloads₁ hgreeted hitems
  have hthree : lines.length = 3 := by
    rw [hlength, ← List.length_map Request.args, hgreetings]
    rfl
  -- the `PSYNC`
  rw [hs₂] at hl₂ hd₂
  obtain ⟨hstream₂, hunused₂, hr₂, hpayloads₂⟩ :=
    registered_psync h₁ hunused₁ hauth hr₁ env hargs hl₂
  rw [← hs₂] at hstream₂ hunused₂ hr₂ hpayloads₂
  have hcontains : s₂.replicas.contains link = true := by
    rw [Std.ExtTreeMap.contains_eq_isSome_getElem?, hr₂]
    rfl
  have hreplid : 13 ∉ s₁.store.masterReplid := by
    rw [h₁.masterReplid]
    exact not_mem_replid replid
  -- the stream
  have haround₃ : ∀ e ∈ last, (sys.move s₂).Around P e.2 := by
    intro e he
    have hmem : e ∈ first ++ (env, .request link r) :: last :=
      List.mem_append_right _ (List.mem_cons_of_mem _ he)
    exact (haround e hmem (fd_ne_of_eventsOn_nil hlast he)).move s₂
  obtain ⟨later, hlater, hpayloads₃, hreplica, hfed⟩ := steps_fed (P := P) (Q := Q)
    (sys.move s₂) h₂ hunused₂ hcontains hlast haround₃ hd₃ hl₃
    { server := boot own ownId (some (fd, ((streamBytes s₁.stream).length : ℤ)))
      fd
      since := s₁.stream.length
      down := [] }
  change (run last s₂).stream = s₂.stream ++ later at hlater
  rw [hstream₂] at hlater
  have hsmall₁ : Small s₁ := Small.of_append hsmall hlater
  have hjoined := step_joined (P := P) (Q := Q) (sys.move s₁) h₁ hunused₁ hauth hr₁
    (by simp [move, hpeer]) env hargs hd₂ hl₂ hsmall₁ own ownId fd
  change Step P Q _ (((sys.move s₁).move (s₁.step env (.request link r))).setPeer link _) at hjoined
  rw [← hs₂, move_move sys hsent₂] at hjoined
  change Relation.ReflTransGen (Step P Q) _ (((sys.move s₂).move (run last s₂)).setPeer link _)
    at hfed
  rw [move_move sys hsent₃] at hfed
  refine ⟨s₁.stream, later, hlater, ?_, ?_, ?_, (hgreeted.tail hjoined).trans hfed⟩
  · rw [hitems]
    exact List.prefix_append _ _
  · change payloadsTo link (sent s₂ (run last s₂)) = _ at hpayloads₃
    rw [hsent₃, hsent₂, payloadsTo_append, payloadsTo_append, hpayloads₁, hpayloads₂,
      List.flatten_append, List.flatten_append, List.append_assoc,
      connectToMaster_lines hthree hlines, List.flatten_singleton, hpayloads₃,
      handshake_psync hreplid, initialOffset_fullresync h₁.tracked.offset hsmall₁]
    rfl
  · exact hreplica.trans (hr₂.trans (congrArg some h₁.tracked.offset))

end Joins

/-- A replica connects to a primary that has run for any time, greets it and asks for the stream.
If the default user needs no password, no message is parked for the descriptor and nothing is lost,
then whatever the other connections do, the replica starts from the offset of its registration, the
bytes that are left for it to read are the stream after it, and the primary counts the offset as
acknowledged. For the system all of this is one run, in which the replica joins by its `PSYNC`. -/
theorem handshake_joins {P Q : List Bytes → Prop} {config : Config} {replid : ReplId}
    {sys : Cluster F} (hrun : Relation.ReflTransGen (Step P Q) (start config replid) sys)
    (own : Config) (ownId : ReplId) (env : Env) (fd link port : ℤ) (rs : List Request)
    (during : List (Env × Event)) :
    let accepted := sys.primary.step env (.accept link)
    let t := run during accepted
    sys.peers link = none → link ∉ sys.primary.clients →
    (∀ m ∈ sys.primary.store.pendingMessages, m.1 ≠ link) →
    sys.primary.store.defaultUserAutoAuth = true →
    rs.map Request.args = greetings port ++ [psync] →
    eventsOn link during = rs.map (Event.request link) →
    (∀ args ∈ greetings port, P args) →
    (∀ e ∈ during, e.2.fd? ≠ some link → sys.Around P e.2) →
    sys.Delivers t → Lossless link (sent accepted t) → Small t →
    ∃ earlier later, t.stream = earlier ++ later ∧ sys.primary.stream <+: earlier ∧
      connectToMaster (payloadsTo link (sent accepted t)).flatten =
        some (((streamBytes earlier).length : ℤ), streamBytes later) ∧
      t.replicas[link]? = some ((streamBytes earlier).length : ℤ) ∧
      Relation.ReflTransGen (Step P Q) sys ((sys.move t).setPeer link (some
        { server := boot own ownId (some (fd, ((streamBytes earlier).length : ℤ)))
          fd
          since := earlier.length
          down := streamBytes later })) := by
  intro accepted t hpeer hnew hmessages hauto hrs hon hgreet haround hd hl hsmall
  have hinv : Inv Loggable Loggable config replid sys :=
    inv_of_steps kinds_loggable (fun r _ => loggable_request r) (fun r _ => loggable_request r) hrun
  obtain ⟨events, hevents, -⟩ := hinv.primary.run
  have hattached : sys.primary.Attached := by
    have hrun : sys.primary.Attached ∧ Primary Loggable config replid sys.primary := by
      rw [hevents]
      apply run_preserves (I := fun s : Server F => s.Attached ∧ Primary Loggable config replid s)
      · rintro s env event ⟨ha, h⟩
        exact ⟨attached_step ha h.masterFd env event, h.any env event⟩
      · exact ⟨fun fd hfd => by simp [Server.start] at hfd, .start config replid⟩
    exact hrun.1
  have hboot : (boot config replid none : Server F).Agrees := agrees_start config replid
  have hagrees : sys.primary.Holds Agrees := by
    rw [hevents]
    exact stable_agrees.holds_run hboot events
  obtain ⟨hunused, hreplica, hstream⟩ :=
    hinv.primary.accepted hagrees.holds hattached hagrees.waiting env hnew hmessages hauto
  have hsent : sent sys.primary t = sent sys.primary accepted ++ sent accepted t :=
    sent_cons hinv.primary (env, .accept link) during
  obtain ⟨hd₁, hd₂⟩ := hd.of_append hsent
  have haccept : Step P Q sys (sys.move accepted) :=
    .primary env rfl (fun fd hfd => by cases hfd; exact hpeer) trivial hd₁
  have hpeer₁ : (sys.move accepted).peers link = none := by simp [move, hpeer]
  obtain ⟨earlier, later, hlater, hearlier, hconnect, hregistered, hsteps⟩ :=
    connected_steps (sys.move accepted) (hinv.primary.any env (.accept link)) hunused rfl
      hreplica hpeer₁ hrs hon hgreet
      (fun e he hfd => (haround e he hfd).move accepted) hd₂ hl hsmall own ownId fd
  refine ⟨earlier, later, hlater, hstream ▸ hearlier, hconnect, hregistered, ?_⟩
  have hmove := move_move sys hsent
  change Relation.ReflTransGen (Step P Q) (sys.move accepted)
    (((sys.move accepted).move t).setPeer link _) at hsteps
  rw [hmove] at hsteps
  exact .head haccept hsteps

theorem fits_requests : ∀ args ∈ greetings 6380 ++ [psync],
    args.length ≤ maxSize ∧ (encode args).length < 2 ^ 63 := by decide +kernel

def asking : List Request :=
  (greetings 6380 ++ [psync]).attach.map fun args => .of args.1 (fits_requests args.1 args.2)

def chatting : List (Env × Event) :=
  asking.flatMap fun r => [(.still, .request 5 r), (.still, .request 6 setting)]

theorem around_chatting : ∀ e ∈ chatting, e.2.fd? ≠ some 5 →
    (serve (.accept 6) (start {} .zeros)).Around Ordinary e.2 := by
  have hset : Ordinary setting.args := by decide +kernel
  intro e he hfd
  obtain ⟨r, -, he⟩ := List.mem_flatMap.mp he
  rcases List.mem_cons.mp he with rfl | he
  · exact absurd rfl hfd
  · rw [List.mem_singleton.mp he]
    exact ⟨rfl, hset, fun _ _ => rfl⟩

theorem handshake_joins_chatting :
    ∃ (sys : Cluster Whole) (q : Peer Whole),
      Relation.ReflTransGen (Step Ordinary Anything) (start {} .zeros) sys ∧
      sys.peers 5 = some q ∧ q.server.replicaOffset = 81 ∧ q.down = encode setting.args ∧
      sys.primary.replicas[(5 : ℤ)]? = some 81 := by
  have hvisit : Step Ordinary Anything (start {} .zeros) (serve (.accept 6) (start {} .zeros)) :=
    step_serve (.accept 6) rfl (fun _ _ => rfl) trivial (by decide +kernel)
  let accepted := (serve (.accept 6) (start {} .zeros)).primary.step .still (.accept 5)
  have hsmall : Small (run chatting accepted) :=
    show (streamBytes (run chatting accepted).stream).length < 2 ^ 63 by decide +kernel
  obtain ⟨earlier, later, hstream, -, -, hregistered, hsteps⟩ := handshake_joins (.single hvisit)
    {} .zeros .still 7 5 6380 asking chatting rfl (by decide +kernel) (by decide +kernel)
    (by decide +kernel) (by decide +kernel) rfl (by decide +kernel) around_chatting
    (fun link h => by cases h) (Lossless.of_all (by decide +kernel)) hsmall
  have hoffset : (run chatting accepted).replicas[(5 : ℤ)]? = some 81 := by decide +kernel
  have hbytes : streamBytes (run chatting accepted).stream =
      (List.replicate 4 (encode setting.args)).flatten := by decide +kernel
  have hlength : ((streamBytes earlier).length : ℤ) = 81 :=
    Option.some.inj (hregistered.symm.trans hoffset)
  refine ⟨_, _, hsteps.head hvisit, setPeer_self _, hlength, ?_, hoffset⟩
  change streamBytes later = _
  have hparts : streamBytes earlier ++ streamBytes later =
      (List.replicate 4 (encode setting.args)).flatten := by
    rw [← streamBytes_append, ← hstream]
    exact hbytes
  have hdrop := congrArg (List.drop 81) hparts
  rw [List.drop_left' (by omega)] at hdrop
  exact hdrop.trans (by decide +kernel)

end TrueStore.Cluster
