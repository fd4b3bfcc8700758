import TrueStore.Server.Messages

/-! # What goes down a connection

A connection that neither subscribes nor waits for anything is sent the stream if it belongs to a
replica, and nothing otherwise, whatever the other connections do. As long as no `send_all` to it
fails, the loop leaves it alone in every other respect.
-/

namespace TrueStore.Server

open RespType

variable {F : Type} [Platform F]

/-- What the calls of `send_all` to one connection send, in order. -/
def payloadsTo (peer : ℤ) (sends : List Sent) : List Bytes :=
  (sends.filter (·.fd = peer)).map (·.payload)

theorem payloadsTo_append (peer : ℤ) (sends sends' : List Sent) :
    payloadsTo peer (sends ++ sends') = payloadsTo peer sends ++ payloadsTo peer sends' := by
  simp [payloadsTo]

theorem payloadsTo_of_ne {peer : ℤ} {sent : Sent} (h : sent.fd ≠ peer) :
    payloadsTo peer [sent] = [] := by
  simp [payloadsTo, h]

theorem payloadsTo_self {peer : ℤ} {sent : Sent} (h : sent.fd = peer) :
    payloadsTo peer [sent] = [sent.payload] := by
  simp [payloadsTo, h]

/-- No call of `send_all` to the connection fails. -/
def Lossless (peer : ℤ) (sends : List Sent) : Prop := ∀ m ∈ sends, m.fd = peer → m.delivered = true

theorem Lossless.append {peer : ℤ} {sends sends' : List Sent} :
    Lossless peer (sends ++ sends') ↔ Lossless peer sends ∧ Lossless peer sends' := by
  simp only [Lossless, List.mem_append, or_imp, forall_and]

structure Apart (peer : ℤ) (s : Server F) : Prop where
  waiting : ∀ w ∈ s.waiters, w.fd ≠ peer
  messages : ∀ m ∈ s.store.pendingMessages, m.1 ≠ peer
  subscribed : ∀ channel, peer ∉ s.store.subscribersOf channel

/-- The loop leaves the connection alone. -/
structure Spares (peer : ℤ) (s s' : Server F) : Prop where
  apart : s'.Apart peer
  client : s'.clients[peer]? = s.clients[peer]?
  replica : s'.replicas[peer]? = s.replicas[peer]?
  masterFd : s'.masterFd = s.masterFd
  buffer : s.masterFd = some peer → s'.masterBuffer = s.masterBuffer
  offset : s'.replicaOffset = s.replicaOffset
  halted : s'.halted = s.halted

theorem Spares.trans {peer : ℤ} {s s₁ s₂ : Server F} (h : Spares peer s s₁)
    (h' : Spares peer s₁ s₂) : Spares peer s s₂ where
  apart := h'.apart
  client := h'.client.trans h.client
  replica := h'.replica.trans h.replica
  masterFd := h'.masterFd.trans h.masterFd
  buffer hm := (h'.buffer (h.masterFd.trans hm)).trans (h.buffer hm)
  offset := h'.offset.trans h.offset
  halted := h'.halted.trans h.halted

/-- The connection is spared, and receives the items of the stream if it is a replica's. -/
def Feeds (peer : ℤ) (s s' : Server F) : Prop :=
  ∃ items new, s'.stream = s.stream ++ items ∧ s'.sends = s.sends ++ new ∧
    (Lossless peer new → s.Apart peer → Spares peer s s' ∧
      payloadsTo peer new =
        if s.replicas.contains peer then items.map (encode ·.args) else [])

namespace Feeds

variable {peer : ℤ} {s s₁ s₂ : Server F}

theorem trans (h : Feeds peer s s₁) (h' : Feeds peer s₁ s₂) : Feeds peer s s₂ := by
  obtain ⟨items, new, hstream, hsends, hfeed⟩ := h
  obtain ⟨items', new', hstream', hsends', hfeed'⟩ := h'
  refine ⟨items ++ items', new ++ new', ?_, ?_, fun hl ha => ?_⟩
  · rw [hstream', hstream, List.append_assoc]
  · rw [hsends', hsends, List.append_assoc]
  · obtain ⟨hspares, hpayloads⟩ := hfeed (Lossless.append.mp hl).1 ha
    obtain ⟨hspares', hpayloads'⟩ := hfeed' (Lossless.append.mp hl).2 hspares.apart
    refine ⟨hspares.trans hspares', ?_⟩
    have hreplica : s₁.replicas.contains peer = s.replicas.contains peer := by
      rw [Std.ExtTreeMap.contains_eq_isSome_getElem?, hspares.replica,
        ← Std.ExtTreeMap.contains_eq_isSome_getElem?]
    rw [payloadsTo_append, hpayloads, hpayloads', hreplica]
    split
    · rw [List.map_append]
    · rfl

theorem of_spares (hstream : s₁.stream = s.stream) (hsends : s₁.sends = s.sends)
    (h : s.Apart peer → Spares peer s s₁) : Feeds peer s s₁ := by
  refine ⟨[], [], by simp [hstream], by simp [hsends], fun _ ha => ⟨h ha, ?_⟩⟩
  split <;> rfl

theorem of_eq (hstream : s₁.stream = s.stream) (hsends : s₁.sends = s.sends)
    (hclients : s₁.clients = s.clients) (hreplicas : s₁.replicas = s.replicas)
    (hmaster : s₁.masterFd = s.masterFd ∧ s₁.masterBuffer = s.masterBuffer)
    (hoffset : s₁.replicaOffset = s.replicaOffset) (hhalted : s₁.halted = s.halted)
    (hapart : s.Apart peer → s₁.Apart peer) : Feeds peer s s₁ :=
  of_spares hstream hsends fun ha => ⟨hapart ha, by rw [hclients], by rw [hreplicas], hmaster.1,
    fun _ => hmaster.2, hoffset, hhalted⟩

theorem refl (s : Server F) : Feeds peer s s :=
  of_eq rfl rfl rfl rfl ⟨rfl, rfl⟩ rfl rfl id

theorem send (env : Env) {fd : ℤ} (h : fd ≠ peer) (payload : Bytes) (purpose : Purpose)
    (s : Server F) : Feeds peer s (s.send env fd payload purpose).2 := by
  refine ⟨[], _, by simp [Server.send], rfl, fun _ ha => ⟨?_, ?_⟩⟩
  · exact ⟨⟨ha.waiting, ha.messages, ha.subscribed⟩, rfl, rfl, rfl, fun _ => rfl, rfl, rfl⟩
  · rw [payloadsTo_of_ne h]
    split <;> rfl

theorem closeClient {fd : ℤ} (h : fd ≠ peer) (s : Server F) : Feeds peer s (s.closeClient fd) := by
  refine of_spares rfl rfl fun ha => ⟨⟨?_, ha.messages, fun channel hc => ?_⟩, ?_, ?_, rfl, ?_, rfl,
    rfl⟩
  · exact fun w hw => ha.waiting w (List.mem_of_mem_filter hw)
  · rw [Server.closeClient, Store.mem_subscribersOf_removeSubscriber] at hc
    exact ha.subscribed channel hc.1
  · simp [Server.closeClient, Std.ExtTreeMap.getElem?_erase, h]
  · simp [Server.closeClient, Std.ExtTreeMap.getElem?_erase, h]
  · intro hm
    have hne : s.masterFd ≠ some fd := by simpa [hm] using Ne.symm h
    exact if_neg hne

theorem deliverAll (env : Env) {messages : List (ℤ × Bytes)} (h : ∀ m ∈ messages, m.1 ≠ peer)
    (s : Server F) : Feeds peer s (deliverAll env messages s) := by
  induction messages generalizing s with
  | nil => exact refl s
  | cons m messages ih =>
    obtain ⟨recipient, message⟩ := m
    have hne : recipient ≠ peer := h _ List.mem_cons_self
    have hrest := fun s => ih (fun m hm => h m (List.mem_cons_of_mem _ hm)) s
    unfold Server.deliverAll
    dsimp only
    split
    · have hsend := send env hne message .message s
      split
      · exact hsend.trans (hrest _)
      · exact (hsend.trans (closeClient hne _)).trans (hrest _)
    · exact hrest s

/-- A later step may rely on the connection still being apart. -/
theorem andThen (h : Feeds peer s s₁)
    (hgrows : ∃ items new, s₂.stream = s₁.stream ++ items ∧ s₂.sends = s₁.sends ++ new)
    (h' : s₁.Apart peer → Feeds peer s₁ s₂) : Feeds peer s s₂ := by
  by_cases ha : s₁.Apart peer
  · exact h.trans (h' ha)
  · obtain ⟨items, new, hstream, hsends, hfeed⟩ := h
    obtain ⟨items', new', hstream', hsends'⟩ := hgrows
    refine ⟨items ++ items', new ++ new', ?_, ?_, fun hl hs => absurd ?_ ha⟩
    · rw [hstream', hstream, List.append_assoc]
    · rw [hsends', hsends, List.append_assoc]
    · exact (hfeed (Lossless.append.mp hl).1 hs).1.apart

theorem deliverMessages (env : Env) (ha : s.Apart peer) :
    Feeds peer s (s.deliverMessages env) := by
  have htake : Feeds peer s { s with store := { s.store with pendingMessages := [] } } :=
    of_eq rfl rfl rfl rfl ⟨rfl, rfl⟩ rfl rfl fun ha => ⟨ha.waiting, by simp, ha.subscribed⟩
  exact htake.trans (deliverAll env ha.messages _)

theorem finish (env : Env) {fd : ℤ} (hfd : fd ≠ peer) (ha : s.Apart peer) :
    Feeds peer s (s.finish env fd) := by
  unfold Server.finish
  dsimp only
  split
  · exact (deliverMessages env ha).trans (closeClient hfd _)
  · exact deliverMessages env ha

theorem grows_finish (env : Env) (fd : ℤ) (s : Server F) :
    ∃ items new, (s.finish env fd).stream = s.stream ++ items ∧
      (s.finish env fd).sends = s.sends ++ new := by
  obtain ⟨new, hnew, -⟩ := (Sends.deliverAll env s.store.pendingMessages
    { s with store := { s.store with pendingMessages := [] } }).sends
  have hframe := frame_finish (P := Anything) env fd s
  refine ⟨[], new, hframe.stream, ?_⟩
  rw [← hnew]
  unfold Server.finish Server.deliverMessages
  dsimp only
  split <;> rfl

def Reaches (peer : ℤ) (payloads : List Bytes) (s s' : Server F) : Prop :=
  s'.stream = s.stream ∧ ∃ new, s'.sends = s.sends ++ new ∧
    (Lossless peer new → s.Apart peer → Spares peer s s' ∧ payloadsTo peer new = payloads)

theorem Reaches.trans {payloads payloads' : List Bytes} (h : Reaches peer payloads s s₁)
    (h' : Reaches peer payloads' s₁ s₂) : Reaches peer (payloads ++ payloads') s s₂ := by
  obtain ⟨hstream, new, hsends, hfeed⟩ := h
  obtain ⟨hstream', new', hsends', hfeed'⟩ := h'
  refine ⟨hstream'.trans hstream, new ++ new', ?_, fun hl ha => ?_⟩
  · rw [hsends', hsends, List.append_assoc]
  · obtain ⟨hspares, hpayloads⟩ := hfeed (Lossless.append.mp hl).1 ha
    obtain ⟨hspares', hpayloads'⟩ := hfeed' (Lossless.append.mp hl).2 hspares.apart
    exact ⟨hspares.trans hspares', by rw [payloadsTo_append, hpayloads, hpayloads']⟩

theorem reaches_one (env : Env) (payload : Bytes) (fd : ℤ) (s : Server F) :
    Reaches peer (if fd = peer then [payload] else []) s
      (if (s.send env fd payload .stream).1 then (s.send env fd payload .stream).2
        else { (s.send env fd payload .stream).2 with
          replicas := (s.send env fd payload .stream).2.replicas.erase fd }) := by
  have hpayloads : payloadsTo peer [(⟨fd, payload, .stream, env.sendOk s.sends.length⟩ : Sent)] =
      if fd = peer then [payload] else [] := by
    split
    · rename_i he
      exact payloadsTo_self he
    · rename_i hne
      exact payloadsTo_of_ne hne
  by_cases hok : (s.send env fd payload .stream).1 = true
  · rw [if_pos hok]
    exact ⟨rfl, _, rfl, fun _ ha => ⟨⟨⟨ha.waiting, ha.messages, ha.subscribed⟩, rfl, rfl, rfl,
      fun _ => rfl, rfl, rfl⟩, hpayloads⟩⟩
  · rw [if_neg hok]
    refine ⟨rfl, _, rfl, fun hl ha => ⟨⟨⟨ha.waiting, ha.messages, ha.subscribed⟩, rfl, ?_, rfl,
      fun _ => rfl, rfl, rfl⟩, hpayloads⟩⟩
    have hne : fd ≠ peer := fun he => hok (hl _ List.mem_cons_self he)
    simp [Server.send, Std.ExtTreeMap.getElem?_erase, hne]

theorem reaches_sendToAll (peer : ℤ) (env : Env) (payload : Bytes) {fds : List ℤ} (h : fds.Nodup)
    (s : Server F) :
    Reaches peer (if peer ∈ fds then [payload] else []) s (Server.sendToAll env payload fds s) := by
  induction fds generalizing s with
  | nil =>
    refine ⟨rfl, [], by simp [Server.sendToAll], fun _ ha => ⟨?_, rfl⟩⟩
    exact ⟨ha, rfl, rfl, rfl, fun _ => rfl, rfl, rfl⟩
  | cons fd fds ih =>
    obtain ⟨hnot, hrest⟩ := List.nodup_cons.mp h
    have hboth := (reaches_one env payload fd s).trans (ih hrest _)
    have hsplit : (if peer ∈ fd :: fds then [payload] else []) =
        (if fd = peer then [payload] else []) ++ if peer ∈ fds then [payload] else [] := by
      by_cases he : fd = peer
      · subst he
        simp [hnot]
      · simp [he, Ne.symm he]
    rw [hsplit]
    exact hboth

theorem sendToReplicas (env : Env) (client : Option ℤ) (args : List Bytes) (s : Server F) :
    Feeds peer s (s.sendToReplicas env client args) := by
  obtain ⟨hstream, new, hsends, hfeed⟩ := reaches_sendToAll peer env (encode args)
    s.replicas.nodup_keys { s with
      store := { s.store with
        masterReplOffset := s.store.masterReplOffset + (encode args).length }
      stream := s.stream ++ [⟨client, args⟩] }
  refine ⟨[⟨client, args⟩], new, hstream, hsends, fun hl ha => ?_⟩
  obtain ⟨hspares, hpayloads⟩ := hfeed hl ⟨ha.waiting, ha.messages, ha.subscribed⟩
  refine ⟨⟨hspares.apart, hspares.client, hspares.replica, hspares.masterFd, hspares.buffer,
    hspares.offset, hspares.halted⟩, ?_⟩
  rw [hpayloads]
  simp [Std.ExtTreeMap.mem_keys, Std.ExtTreeMap.contains_iff_mem]

theorem insertClient {fd : ℤ} (h : fd ≠ peer) (client : ClientState) (s : Server F) :
    Feeds peer s { s with clients := s.clients.insert fd client } :=
  of_spares rfl rfl fun ha => ⟨⟨ha.waiting, ha.messages, ha.subscribed⟩,
    by simp [Std.ExtTreeMap.getElem?_insert, h], rfl, rfl, fun _ => rfl, rfl, rfl⟩

theorem propagate (env : Env) {fd : ℤ} (h : fd ≠ peer) (args : List Bytes) (s : Server F) :
    Feeds peer s (s.propagate env fd args) :=
  (sendToReplicas env (some fd) args s).trans (insertClient h _ _)

theorem propagateAll (env : Env) {fd : ℤ} (h : fd ≠ peer) (queue : List (List Bytes))
    (s : Server F) : Feeds peer s (propagateAll env fd queue s) := by
  induction queue generalizing s with
  | nil => exact refl s
  | cons args queue ih => exact (propagate env h args s).trans (ih _)

theorem append (args : List Bytes) (s : Server F) : Feeds peer s (s.append args) :=
  of_eq rfl rfl rfl rfl ⟨rfl, rfl⟩ rfl rfl fun ha => ⟨ha.waiting, ha.messages, ha.subscribed⟩

theorem propagatePopped (env : Env) {fd : ℤ} (h : fd ≠ peer) (queue : List (List Bytes))
    (s : Server F) :
    Feeds peer s (queue.foldl (fun s args => (s.append args).propagate env fd args) s) := by
  induction queue generalizing s with
  | nil => exact refl s
  | cons args queue ih => exact ((append args s).trans (propagate env h args _)).trans (ih _)

theorem logPending (inMulti : Bool) (s : Server F) : Feeds peer s (s.logPending inMulti) := by
  have happend : ∀ (queue : List (List Bytes)) (s : Server F),
      Feeds peer s (queue.foldl (fun s args => s.append args) s) := by
    intro queue
    induction queue with
    | nil => exact fun s => refl s
    | cons args queue ih => exact fun s => (append args s).trans (ih _)
  unfold Server.logPending
  cases inMulti
  · exact happend _ s
  · exact of_eq rfl rfl rfl rfl ⟨rfl, rfl⟩ rfl rfl fun ha =>
      ⟨ha.waiting, ha.messages, ha.subscribed⟩

theorem publish (env : Env) {fd : ℤ} (h : fd ≠ peer) (args : List Bytes) (inMulti : Bool)
    (reply : Bytes) (s : Server F) : Feeds peer s (s.publish env fd args inMulti reply) := by
  have hlog : Feeds peer s (s.logOwn args inMulti reply) := by
    unfold logOwn
    split
    · exact append args s
    · exact refl s
  have hown : Feeds peer s
      (if !inMulti && isWriteCommand (upperName args) && !isError reply then
        (s.logOwn args inMulti reply).propagate env fd args else s.logOwn args inMulti reply) := by
    split
    · exact hlog.trans (propagate env h args _)
    · exact hlog
  have hcleared : ∀ s : Server F,
      Feeds peer s { s with store := { s.store with pendingPropagations := [] } } := fun s =>
    of_eq rfl rfl rfl rfl ⟨rfl, rfl⟩ rfl rfl fun ha => ⟨ha.waiting, ha.messages, ha.subscribed⟩
  exact ((hown.trans (logPending inMulti _)).trans (hcleared _)).trans (propagateAll env h _ _)

theorem register {fd : ℤ} (h : fd ≠ peer) (args : List Bytes) (inMulti : Bool) (reply : Bytes)
    (s : Server F) : Feeds peer s (s.register fd args inMulti reply) := by
  unfold Server.register
  split
  · exact of_spares rfl rfl fun ha => ⟨⟨ha.waiting, ha.messages, ha.subscribed⟩, rfl,
      by simp [Std.ExtTreeMap.getElem?_insertIfNew, h], rfl, fun _ => rfl, rfl, rfl⟩
  · exact refl s

theorem acknowledge {fd : ℤ} (h : fd ≠ peer) (text : Bytes) (s : Server F) :
    Feeds peer s (s.acknowledge fd text) := by
  unfold Server.acknowledge
  split
  · refine of_spares rfl rfl fun ha => ⟨⟨ha.waiting, ha.messages, ha.subscribed⟩, rfl, ?_, rfl,
      fun _ => rfl, rfl, rfl⟩
    dsimp only
    split
    · simp [Std.ExtTreeMap.getElem?_insert, h]
    · rfl
  · exact refl s

theorem addWaiter {w : Waiter} (h : w.fd ≠ peer) (s : Server F) :
    Feeds peer s { s with waiters := s.waiters ++ [w] } := by
  refine of_eq rfl rfl rfl rfl ⟨rfl, rfl⟩ rfl rfl fun ha => ⟨?_, ha.messages, ha.subscribed⟩
  intro w' hw
  rcases List.mem_append.mp hw with hw | hw
  · exact ha.waiting w' hw
  · rwa [List.mem_singleton.mp hw]

theorem block (env : Env) {fd : ℤ} (h : fd ≠ peer) (b : BlockRequest F) (s : Server F) :
    Feeds peer s (s.block env fd b) := by
  unfold Server.block
  split
  · dsimp only
    split
    · exact send env h _ _ s
    · exact (sendToReplicas env none _ s).trans (addWaiter (by exact h) _)
  · exact addWaiter (by exact h) s

theorem respond (env : Env) {fd : ℤ} (h : fd ≠ peer) (reply : Bytes) (s : Server F) :
    Feeds peer s (s.respond env fd reply).2 := by
  unfold Server.respond
  split
  · have htake : Feeds peer s { s with store := { s.store with pendingBlock := none } } :=
      of_eq rfl rfl rfl rfl ⟨rfl, rfl⟩ rfl rfl fun ha => ⟨ha.waiting, ha.messages, ha.subscribed⟩
    exact htake.trans (block env h _ _)
  · split
    · exact refl s
    · have hsend := send env h reply .reply s
      dsimp only
      split
      · exact hsend
      · exact hsend.trans (closeClient h _)

theorem handle (env : Env) (number : ℕ) {fd : ℤ} (h : fd ≠ peer) (args : List Bytes)
    (hnum : (s.clients.getD fd {}).fd = fd) : Feeds peer s (s.handle env number fd args).2 := by
  refine of_spares rfl rfl fun ha => ⟨⟨ha.waiting, ?_, fun channel hc => ?_⟩, ?_, rfl, rfl,
    fun _ => rfl, rfl, rfl⟩
  · intro m hm
    simp only [Server.handle, pendingMessages_handleCommand, List.mem_append, parked,
      List.mem_map] at hm
    rcases hm with hm | ⟨p, hp, rfl⟩
    · exact ha.messages m hm
    · refine live_commandPublications (L := (· ≠ peer)) (env.clock number) args ?_ ?_ p hp
      · rintro channel fd' hfd' rfl
        exact ha.subscribed channel hfd'
      · rwa [hnum]
  · have hsub := resubscribes_handleCommand (env.clock number) args s.store (s.clients.getD fd {})
    exact ha.subscribed channel ((hsub.others channel peer (by rw [hnum]; exact h.symm)).mp hc)
  · simp [Server.handle, Std.ExtTreeMap.getElem?_insert, h]

theorem command (env : Env) {fd : ℤ} (h : fd ≠ peer) (args : List Bytes) (hs : s.Numbered)
    (hm : s.masterFd ≠ some fd) : Feeds peer s (s.command env fd args) := by
  unfold Server.command
  split
  · exact refl s
  rename_i client hclient
  split
  · exact acknowledge h _ s
  have hget : s.clients.getD fd {} = client := by
    simp [Std.ExtTreeMap.getD_eq_getD_getElem?, hclient]
  have hhandle : Feeds peer s (s.handle env 0 fd args).2 :=
    handle env 0 h args (by rw [hget]; exact hs fd client hclient hm)
  have hresp := ((hhandle.trans (register h args client.inMulti (s.handle env 0 fd args).1 _)).trans
    (publish env h args client.inMulti (s.handle env 0 fd args).1 _)).trans
      (respond env h (s.handle env 0 fd args).1 _)
  dsimp only
  split
  · exact hresp.andThen (grows_finish env fd _) fun ha => finish env h ha
  · exact hresp

theorem serveWaiter (env : Env) {w : Waiter} (h : w.fd ≠ peer) (s : Server F) :
    Feeds peer s (s.serveWaiter env w).2 := by
  unfold Server.serveWaiter
  split
  · split
    · exact send env h _ _ s
    · exact refl s
  · split
    · exact refl s
    · rename_i key value store hpop
      obtain ⟨-, rest, -, rfl⟩ := Store.tryBlpop_eq_some hpop
      have hpopped : Feeds peer s { s with
          store := { s.store.popped key rest with pendingPropagations := [] }
          calls := s.calls ++ [Call.pop s.store.toKeyspace key] } :=
        of_eq rfl rfl rfl rfl ⟨rfl, rfl⟩ rfl rfl fun ha =>
          ⟨ha.waiting, ha.messages, ha.subscribed⟩
      exact (hpopped.trans (propagatePopped env h _ _)).trans (send env h _ _ _)
  · split
    · exact refl s
    · exact send env h _ _ s

theorem serveAll (env : Env) {ws : List Waiter} (h : ∀ w ∈ ws, w.fd ≠ peer) (s : Server F) :
    Feeds peer s (serveAll env ws s).2 ∧ ∀ w ∈ (Server.serveAll env ws s).1, w ∈ ws := by
  induction ws generalizing s with
  | nil => exact ⟨refl s, fun w hw => hw⟩
  | cons w ws ih =>
    obtain ⟨hrest, hsub⟩ := ih (fun w' hw => h w' (List.mem_cons_of_mem _ hw)) (s.serveWaiter env w).2
    refine ⟨(serveWaiter env (h w List.mem_cons_self) s).trans hrest, fun w' hw => ?_⟩
    simp only [Server.serveAll] at hw
    split at hw
    · exact List.mem_cons_of_mem _ (hsub w' hw)
    · rcases List.mem_cons.mp hw with rfl | hw
      · exact List.mem_cons_self
      · exact List.mem_cons_of_mem _ (hsub w' hw)

theorem expireAll (env : Env) {ws : List Waiter} (h : ∀ w ∈ ws, w.fd ≠ peer) (s : Server F) :
    Feeds peer s (expireAll env ws s) := by
  induction ws generalizing s with
  | nil => exact refl s
  | cons w ws ih =>
    have hne := h w List.mem_cons_self
    have hrest := fun s => ih (fun w' hw => h w' (List.mem_cons_of_mem _ hw)) s
    unfold Server.expireAll
    split
    · split
      · exact (send env hne _ _ s).trans (hrest _)
      · exact (send env hne _ _ s).trans (hrest _)
    · exact hrest s

theorem setWaiters {ws : List Waiter} (h : ∀ w ∈ ws, w.fd ≠ peer) (s : Server F) :
    Feeds peer s { s with waiters := ws } :=
  of_eq rfl rfl rfl rfl ⟨rfl, rfl⟩ rfl rfl fun ha => ⟨h, ha.messages, ha.subscribed⟩

theorem round (env : Env) (ha : s.Apart peer) :
    Feeds peer s ((s.serveWaiters env).expireWaiters env) := by
  obtain ⟨hserve, hsub⟩ := serveAll env ha.waiting s
  have hkept : ∀ w ∈ (s.serveWaiters env).waiters, w.fd ≠ peer := fun w hw =>
    ha.waiting w (hsub w hw)
  have hserved : Feeds peer s (s.serveWaiters env) := hserve.trans (setWaiters hkept _)
  refine (hserved.trans (expireAll env hkept _)).trans (setWaiters ?_ _)
  exact fun w hw => hkept w (List.mem_of_mem_filter hw)

end Feeds

def Event.fd? : Event → Option ℤ
  | .accept fd | .request fd _ | .hangup fd => some fd
  | _ => none

theorem feeds_step {peer : ℤ} {s : Server F} (ha : s.Apart peer) (hs : s.Numbered) (env : Env)
    {event : Event} (hl : event.isLocal = true) (hfd : event.fd? ≠ some peer) :
    Feeds peer s (s.step env event) := by
  unfold step
  split
  · exact .refl s
  · cases event with
    | accept fd =>
      have hne : fd ≠ peer := fun he => hfd (congrArg some he)
      dsimp only
      unfold Server.accept
      split
      · exact .refl s
      · exact .of_spares rfl rfl fun ha => ⟨⟨ha.waiting, ha.messages, ha.subscribed⟩,
          by simp [Std.ExtTreeMap.getElem?_insert, hne], rfl, rfl, fun _ => rfl, rfl, rfl⟩
    | request fd r =>
      have hne : fd ≠ peer := fun he => hfd (congrArg some he)
      dsimp only
      split
      · exact .refl s
      · rename_i hm
        exact .command env hne r.args hs hm
    | hangup fd =>
      have hne : fd ≠ peer := fun he => hfd (congrArg some he)
      dsimp only
      split
      · exact .closeClient hne s
      · exact .refl s
    | chunk bytes => cases hl
    | masterClosed => cases hl
    | round => exact .round env ha

end TrueStore.Server
