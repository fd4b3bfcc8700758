import TrueStore.Server.Runs

/-! # Connections along a run

Around the commands themselves the event loop only closes connections and notes offsets. A
property of the connections therefore holds along every run as soon as these few operations
keep it.
-/

namespace TrueStore.Server

variable {F : Type} [Platform F]

def Waiting (s : Server F) : Prop := ∀ w ∈ s.waiters, w.fd ∈ s.clients

/-- The operations on connections keep a property. -/
structure Stable (I : Server F → Prop) : Prop where
  keep : ∀ {s s' : Server F}, I s → s'.clients = s.clients → s'.masterFd = s.masterFd →
    s'.store.subscribers = s.store.subscribers → I s'
  close : ∀ {s : Server F} (fd : ℤ), I s → I (s.closeClient fd)
  offset : ∀ {s : Server F} {fd : ℤ} {client : ClientState} (n : ℤ),
    s.clients[fd]? = some client → I s →
    I { s with clients := s.clients.insert fd { client with replOffset := n } }
  handle : ∀ {s : Server F} (env : Env) (number : ℕ) {fd : ℤ} (args : List Bytes),
    fd ∈ s.clients → s.store.pendingBlock = none → I s → I (s.handle env number fd args).2
  accept : ∀ {s : Server F} (fd : ℤ), I s → I (s.accept fd)
  unlink : ∀ {s : Server F} {fd : ℤ}, s.masterFd = some fd → I s →
    I { s.closeClient fd with masterFd := none }

structure Gentle (I : Server F → Prop) : Prop where
  keep : ∀ {s s' : Server F}, I s → s'.clients = s.clients → s'.masterFd = s.masterFd →
    s'.store.subscribers = s.store.subscribers → I s'
  close : ∀ {s : Server F} (fd : ℤ), I s → I (s.closeClient fd)
  offset : ∀ {s : Server F} {fd : ℤ} {client : ClientState} (n : ℤ),
    s.clients[fd]? = some client → I s →
    I { s with clients := s.clients.insert fd { client with replOffset := n } }

theorem Stable.gentle {I : Server F → Prop} (hI : Stable I) : Gentle I :=
  ⟨hI.keep, hI.close, hI.offset⟩

theorem mem_clients_closeClient {s : Server F} {fd fd' : ℤ} :
    fd' ∈ (s.closeClient fd).clients ↔ fd' ∈ s.clients ∧ fd' ≠ fd := by
  rw [closeClient, Std.ExtTreeMap.mem_erase, ne_eq, Std.compare_eq_iff_eq, and_comm, ne_comm]

theorem mem_clients_insert {s : Server F} {fd fd' : ℤ} {client : ClientState} :
    fd' ∈ s.clients.insert fd client ↔ fd = fd' ∨ fd' ∈ s.clients := by
  rw [Std.ExtTreeMap.mem_insert, Std.compare_eq_iff_eq]

theorem clients_sendToAll (env : Env) (payload : Bytes) (fds : List ℤ) (s : Server F) :
    (sendToAll env payload fds s).clients = s.clients := by
  induction fds generalizing s with
  | nil => rfl
  | cons fd fds ih =>
    unfold sendToAll
    rw [ih]
    split <;> rfl

/-- A property of the connections, and that waiting clients have one. -/
structure Holds (I : Server F → Prop) (s : Server F) : Prop where
  holds : I s
  waiting : s.Waiting

variable {I : Server F → Prop}

theorem Holds.handle {s : Server F} (h : s.Holds I) {env : Env} {number : ℕ} {fd : ℤ}
    {args : List Bytes} (hhandle : I (s.handle env number fd args).2) :
    (s.handle env number fd args).2.Holds I ∧ fd ∈ (s.handle env number fd args).2.clients :=
  ⟨⟨hhandle, fun w hw => mem_clients_insert.mpr (.inr (h.waiting w hw))⟩,
    mem_clients_insert.mpr (.inl rfl)⟩

namespace Gentle

variable (hI : Gentle I)

section Parts

variable {s : Server F}

include hI

theorem holds_keep {s' : Server F} (h : s.Holds I) (hc : s'.clients = s.clients)
    (hm : s'.masterFd = s.masterFd) (hs : s'.store.subscribers = s.store.subscribers)
    (hw : ∀ w ∈ s'.waiters, w ∈ s.waiters ∨ w.fd ∈ s.clients) : s'.Holds I where
  holds := hI.keep h.holds hc hm hs
  waiting w hm' := by
    rw [hc]
    exact (hw w hm').elim (h.waiting w) id

theorem holds_send (env : Env) (fd : ℤ) (payload : Bytes) (purpose : Purpose) (h : s.Holds I) :
    (s.send env fd payload purpose).2.Holds I :=
  hI.holds_keep h rfl rfl rfl fun _ hw => .inl hw

theorem holds_close (fd : ℤ) (h : s.Holds I) : (s.closeClient fd).Holds I where
  holds := hI.close fd h.holds
  waiting w hw := by
    simp only [closeClient, List.mem_filter, decide_eq_true_eq] at hw
    exact mem_clients_closeClient.mpr ⟨h.waiting w hw.1, hw.2⟩

theorem holds_deliverAll (env : Env) (messages : List (ℤ × Bytes)) (h : s.Holds I) :
    (deliverAll env messages s).Holds I := by
  induction messages generalizing s with
  | nil => exact h
  | cons m messages ih =>
    obtain ⟨recipient, message⟩ := m
    unfold deliverAll
    dsimp only
    split
    · have hsend := hI.holds_send env recipient message .message h
      split
      · exact ih hsend
      · exact ih (hI.holds_close recipient hsend)
    · exact ih h

theorem holds_finish (env : Env) (fd : ℤ) (h : s.Holds I) : (s.finish env fd).Holds I := by
  have htake : ({ s with store := { s.store with pendingMessages := [] } }).Holds I :=
    hI.holds_keep h rfl rfl rfl fun _ hw => .inl hw
  have hdeliver := hI.holds_deliverAll env s.store.pendingMessages htake
  unfold finish deliverMessages
  dsimp only
  split
  · exact hI.holds_close fd hdeliver
  · exact hdeliver

theorem holds_sendToAll (env : Env) (payload : Bytes) (fds : List ℤ) (h : s.Holds I) :
    (sendToAll env payload fds s).Holds I ∧ (sendToAll env payload fds s).clients = s.clients := by
  induction fds generalizing s with
  | nil => exact ⟨h, rfl⟩
  | cons fd fds ih =>
    have hsend := hI.holds_send env fd payload .stream h
    unfold sendToAll
    dsimp only
    split
    · exact ih hsend
    · exact ih (hI.holds_keep hsend rfl rfl rfl fun _ hw => .inl hw)

theorem holds_sendToReplicas (env : Env) (client : Option ℤ) (args : List Bytes) (h : s.Holds I) :
    (s.sendToReplicas env client args).Holds I ∧
      (s.sendToReplicas env client args).clients = s.clients :=
  hI.holds_sendToAll env _ _ (hI.holds_keep h rfl rfl rfl fun _ hw => .inl hw)

theorem holds_propagate (env : Env) {fd : ℤ} (args : List Bytes) (h : s.Holds I)
    (hfd : fd ∈ s.clients) : (s.propagate env fd args).Holds I := by
  obtain ⟨hsend, hclients⟩ := hI.holds_sendToReplicas env (some fd) args h
  obtain ⟨client, hc⟩ : ∃ client, (s.sendToReplicas env (some fd) args).clients[fd]? =
      some client := by
    rw [← Option.isSome_iff_exists, ← Std.ExtTreeMap.mem_iff_isSome_getElem?, hclients]
    exact hfd
  unfold propagate
  simp only [Std.ExtTreeMap.getD_eq_getD_getElem?, hc, Option.getD_some]
  exact ⟨hI.offset _ hc hsend.holds, fun w hw => mem_clients_insert.mpr (.inr (hsend.waiting w hw))⟩

omit hI in
theorem mem_propagate (env : Env) (fd : ℤ) (args : List Bytes) (s : Server F) {fd' : ℤ}
    (h : fd' ∈ s.clients) : fd' ∈ (s.propagate env fd args).clients := by
  refine mem_clients_insert.mpr (.inr ?_)
  rw [sendToReplicas, clients_sendToAll]
  exact h

theorem holds_propagateAll (env : Env) {fd : ℤ} (queue : List (List Bytes)) (hfd : fd ∈ s.clients)
    (h : s.Holds I) :
    (propagateAll env fd queue s).Holds I ∧ fd ∈ (propagateAll env fd queue s).clients := by
  induction queue generalizing s with
  | nil => exact ⟨h, hfd⟩
  | cons args queue ih => exact ih (mem_propagate env fd args s hfd) (hI.holds_propagate env args h hfd)

theorem holds_logPending (inMulti : Bool) (h : s.Holds I) :
    (s.logPending inMulti).Holds I ∧ (s.logPending inMulti).clients = s.clients := by
  have happend : ∀ (queue : List (List Bytes)) {s : Server F}, s.Holds I →
      (queue.foldl (fun s args => s.append args) s).Holds I ∧
        (queue.foldl (fun s args => s.append args) s).clients = s.clients := by
    intro queue
    induction queue with
    | nil => exact fun h => ⟨h, rfl⟩
    | cons args queue ih =>
      exact fun h => ih (hI.holds_keep h rfl rfl rfl fun _ hw => .inl hw)
  unfold logPending
  cases inMulti
  · exact happend _ h
  · exact ⟨hI.holds_keep h rfl rfl rfl fun _ hw => .inl hw, rfl⟩

theorem holds_publish (env : Env) {fd : ℤ} (args : List Bytes) (inMulti : Bool) (reply : Bytes)
    (hfd : fd ∈ s.clients) (h : s.Holds I) :
    (s.publish env fd args inMulti reply).Holds I ∧
      fd ∈ (s.publish env fd args inMulti reply).clients := by
  have hlog : (s.logOwn args inMulti reply).Holds I ∧ fd ∈ (s.logOwn args inMulti reply).clients := by
    unfold logOwn
    split
    · exact ⟨hI.holds_keep h rfl rfl rfl fun _ hw => .inl hw, hfd⟩
    · exact ⟨h, hfd⟩
  obtain ⟨hown, hown'⟩ : (if !inMulti && isWriteCommand (upperName args) && !isError reply then
        (s.logOwn args inMulti reply).propagate env fd args
        else s.logOwn args inMulti reply).Holds I ∧
      fd ∈ (if !inMulti && isWriteCommand (upperName args) && !isError reply then
        (s.logOwn args inMulti reply).propagate env fd args
        else s.logOwn args inMulti reply).clients := by
    split
    · exact ⟨hI.holds_propagate env args hlog.1 hlog.2, mem_propagate env fd args _ hlog.2⟩
    · exact hlog
  obtain ⟨hpend, hpend'⟩ := hI.holds_logPending inMulti hown
  refine hI.holds_propagateAll env _ ?_ (hI.holds_keep hpend rfl rfl rfl fun _ hw => .inl hw)
  rw [hpend']
  exact hown'

theorem holds_block (env : Env) {fd : ℤ} (b : BlockRequest F) (hfd : fd ∈ s.clients)
    (h : s.Holds I) : (s.block env fd b).Holds I := by
  have hadd : ∀ {s : Server F} (w : Waiter), w.fd ∈ s.clients → s.Holds I →
      ({ s with waiters := s.waiters ++ [w] }).Holds I := by
    intro s w hw h
    refine hI.holds_keep h rfl rfl rfl fun w' hm => ?_
    rcases List.mem_append.mp hm with hm | hm
    · exact .inl hm
    · exact .inr (List.mem_singleton.mp hm ▸ hw)
  unfold block
  split
  · dsimp only
    split
    · exact hI.holds_send env fd _ _ h
    · obtain ⟨hsend, hclients⟩ := hI.holds_sendToReplicas env none
        [ascii "REPLCONF", ascii "GETACK", ascii "*"] h
      exact hadd _ (hclients ▸ hfd) hsend
  · exact hadd _ hfd h

theorem holds_respond (env : Env) {fd : ℤ} (reply : Bytes) (hfd : fd ∈ s.clients)
    (h : s.Holds I) : (s.respond env fd reply).2.Holds I := by
  unfold respond
  split
  · exact hI.holds_block env _ hfd (hI.holds_keep h rfl rfl rfl fun _ hw => .inl hw)
  · split
    · exact h
    · have hsend := hI.holds_send env fd reply .reply h
      dsimp only
      split
      · exact hsend
      · exact hI.holds_close fd hsend

theorem holds_command (env : Env) {fd : ℤ} {args : List Bytes}
    (hkeeps : fd ∈ s.clients → I (s.handle env 0 fd args).2) (h : s.Holds I) :
    (s.command env fd args).Holds I := by
  unfold command
  split
  · exact h
  rename_i client hclient
  have hfd : fd ∈ s.clients := by
    rw [Std.ExtTreeMap.mem_iff_isSome_getElem?, hclient]
    rfl
  split
  · unfold acknowledge
    split
    · exact hI.holds_keep h rfl rfl rfl fun _ hw => .inl hw
    · exact h
  · obtain ⟨hhandle, hfd'⟩ := h.handle (hkeeps hfd)
    have hreg : ((s.handle env 0 fd args).2.register fd args client.inMulti
          (s.handle env 0 fd args).1).Holds I ∧
        fd ∈ ((s.handle env 0 fd args).2.register fd args client.inMulti
          (s.handle env 0 fd args).1).clients := by
      unfold register
      split
      · exact ⟨hI.holds_keep hhandle rfl rfl rfl fun _ hw => .inl hw, hfd'⟩
      · exact ⟨hhandle, hfd'⟩
    obtain ⟨hpub, hpub'⟩ := hI.holds_publish env args client.inMulti
      (s.handle env 0 fd args).1 hreg.2 hreg.1
    have hresp := hI.holds_respond env (s.handle env 0 fd args).1 hpub' hpub
    dsimp only
    split
    · exact hI.holds_finish env fd hresp
    · exact hresp

theorem holds_serveWaiter (env : Env) {w : Waiter} (hw : w.fd ∈ s.clients) (h : s.Holds I) :
    (s.serveWaiter env w).2.Holds I ∧
      ∀ fd ∈ s.clients, fd ∈ (s.serveWaiter env w).2.clients := by
  have hfold : ∀ (queue : List (List Bytes)) {s : Server F}, s.Holds I → w.fd ∈ s.clients →
      (queue.foldl (fun s args => (s.append args).propagate env w.fd args) s).Holds I ∧
      ∀ fd ∈ s.clients,
        fd ∈ (queue.foldl (fun s args => (s.append args).propagate env w.fd args) s).clients := by
    intro queue
    induction queue with
    | nil => exact fun h _ => ⟨h, fun _ hfd => hfd⟩
    | cons args queue ih =>
      intro s h hw
      have happend : (s.append args).Holds I :=
        hI.holds_keep h rfl rfl rfl fun _ hw => .inl hw
      obtain ⟨h₁, h₂⟩ := ih (hI.holds_propagate env args happend hw)
        (mem_propagate env w.fd args (s.append args) hw)
      exact ⟨h₁, fun fd hfd => h₂ fd (mem_propagate env w.fd args (s.append args) hfd)⟩
  unfold serveWaiter
  split
  · split
    · exact ⟨hI.holds_send env _ _ _ h, fun _ hfd => hfd⟩
    · exact ⟨h, fun _ hfd => hfd⟩
  · split
    · exact ⟨h, fun _ hfd => hfd⟩
    · rename_i key value store hpop
      obtain ⟨-, rest, -, rfl⟩ := Store.tryBlpop_eq_some hpop
      have hpopped : ({ s with
          store := { s.store.popped key rest with pendingPropagations := [] }
          calls := s.calls ++ [Call.pop s.store.toKeyspace key] }).Holds I :=
        hI.holds_keep h rfl rfl rfl fun _ hw => .inl hw
      obtain ⟨h₁, h₂⟩ := hfold (s.store.popped key rest).pendingPropagations hpopped hw
      exact ⟨hI.holds_send env _ _ _ h₁, h₂⟩
  · split
    · exact ⟨h, fun _ hfd => hfd⟩
    · exact ⟨hI.holds_send env _ _ _ h, fun _ hfd => hfd⟩

theorem holds_serveAll (env : Env) {ws : List Waiter} (hws : ∀ w ∈ ws, w.fd ∈ s.clients)
    (h : s.Holds I) :
    (serveAll env ws s).2.Holds I ∧ (∀ fd ∈ s.clients, fd ∈ (serveAll env ws s).2.clients) ∧
      ∀ w ∈ (serveAll env ws s).1, w ∈ ws := by
  induction ws generalizing s with
  | nil => exact ⟨h, fun _ hfd => hfd, fun _ hw => hw⟩
  | cons w ws ih =>
    obtain ⟨h₁, hkeep⟩ := hI.holds_serveWaiter env (hws w List.mem_cons_self) h
    obtain ⟨h₂, hkeep', hsub⟩ := ih (s := (s.serveWaiter env w).2)
      (fun w' hw => hkeep _ (hws w' (List.mem_cons_of_mem _ hw))) h₁
    refine ⟨h₂, fun fd hfd => hkeep' fd (hkeep fd hfd), fun w' hw => ?_⟩
    simp only [serveAll] at hw
    split at hw
    · exact List.mem_cons_of_mem _ (hsub w' hw)
    · rcases List.mem_cons.mp hw with rfl | hw
      · exact List.mem_cons_self
      · exact List.mem_cons_of_mem _ (hsub w' hw)

theorem holds_expireAll (env : Env) (ws : List Waiter) (h : s.Holds I) :
    (expireAll env ws s).Holds I ∧ (expireAll env ws s).clients = s.clients := by
  induction ws generalizing s with
  | nil => exact ⟨h, rfl⟩
  | cons w ws ih =>
    unfold expireAll
    split
    · split
      · exact ih (hI.holds_send env _ _ _ h)
      · exact ih (hI.holds_send env _ _ _ h)
    · exact ih h

theorem holds_round (env : Env) (h : s.Holds I) :
    ((s.serveWaiters env).expireWaiters env).Holds I := by
  obtain ⟨hserve, hkeep, hsub⟩ := hI.holds_serveAll env h.waiting h
  have hserve' : (s.serveWaiters env).Holds I :=
    ⟨hI.keep hserve.holds rfl rfl rfl, fun w hw => hkeep _ (h.waiting w (hsub w hw))⟩
  obtain ⟨hexpire, hclients⟩ := hI.holds_expireAll env (s.serveWaiters env).waiters hserve'
  refine ⟨hI.keep hexpire.holds rfl rfl rfl, fun w hw => ?_⟩
  simp only [expireWaiters, hclients]
  exact hserve'.waiting w (List.mem_of_mem_filter hw)

end Parts

end Gentle

namespace Stable

variable (hI : Stable I)

section Parts

variable {s : Server F}

include hI

theorem holds_obey (env : Env) (number : ℕ) {fd : ℤ} (args : List Bytes) (hfd : fd ∈ s.clients)
    (hb : s.store.pendingBlock = none) (h : s.Holds I) :
    (s.obey env number fd args).Holds I ∧ fd ∈ (s.obey env number fd args).clients := by
  obtain ⟨hhandle, hfd'⟩ := h.handle (hI.handle env number args hfd hb h.holds)
  unfold obey logOwn
  dsimp only
  split
  · have happend : ((s.handle env number fd args).2.append args).Holds I :=
      hI.gentle.holds_keep hhandle rfl rfl rfl fun _ hw => .inl hw
    obtain ⟨hlog, hclients⟩ := hI.gentle.holds_logPending (s.clients.getD fd {}).inMulti happend
    exact ⟨hI.gentle.holds_keep hlog rfl rfl rfl fun _ hw => .inl hw, hclients ▸ hfd'⟩
  · obtain ⟨hlog, hclients⟩ := hI.gentle.holds_logPending (s.clients.getD fd {}).inMulti hhandle
    exact ⟨hI.gentle.holds_keep hlog rfl rfl rfl fun _ hw => .inl hw, hclients ▸ hfd'⟩

omit hI in
theorem masterFd_replicate (env : Env) (fd : ℤ) (args : List Bytes) (consumed : ℕ)
    (st : ℕ × Server F) :
    (replicate env fd args consumed st).1.2.masterFd = st.2.masterFd := by
  have hpend : ∀ (inMulti : Bool) (s : Server F),
      (s.logPending inMulti).masterFd = s.masterFd := by
    intro inMulti s
    obtain ⟨_, -, hframe⟩ := frame_logPending (P := Anything) inMulti s
    exact hframe.masterFd
  unfold replicate
  dsimp only
  split
  · rfl
  · unfold obey logOwn
    dsimp only
    rw [hpend]
    split <;> rfl

theorem holds_replicate {st : ℕ × Server F} {env : Env} {fd : ℤ} (args : List Bytes)
    (consumed : ℕ) (hb : st.2.store.pendingBlock = none) (h : st.2.Holds I)
    (hfd : fd ∈ st.2.clients) :
    (replicate env fd args consumed st).1.2.Holds I ∧
      fd ∈ (replicate env fd args consumed st).1.2.clients := by
  unfold replicate
  dsimp only
  split
  · have hsend := hI.gentle.holds_send env fd
      (encode [ascii "REPLCONF", ascii "ACK", decimalInt st.2.replicaOffset])
      (.ack st.2.replicaOffset) h
    exact ⟨hI.gentle.holds_keep hsend rfl rfl rfl fun _ hw => .inl hw, hfd⟩
  · obtain ⟨hobey, hfd'⟩ := hI.holds_obey env st.1 args hfd hb h
    exact ⟨hI.gentle.holds_keep hobey rfl rfl rfl fun _ hw => .inl hw, hfd'⟩

theorem holds_unlink {fd : ℤ} (hm : s.masterFd = some fd) (h : s.Holds I) :
    ({ s.closeClient fd with masterFd := none }).Holds I :=
  ⟨hI.unlink hm h.holds, (hI.gentle.holds_close fd h).waiting⟩

theorem holds_fromMaster (env : Env) (chunk : Bytes) (hl : s.Logged Anything Always)
    (h : s.Holds I) : (s.fromMaster env chunk).Holds I := by
  unfold fromMaster
  split
  · exact h
  · rename_i fd hm
    split
    · exact h
    · rename_i hfd
      have hfd : fd ∈ s.clients := by simpa using hfd
      let J : ℕ × Server F → Prop := fun st =>
        st.2.Logged Anything Always ∧ st.2.masterFd = some fd ∧ st.2.Holds I ∧ fd ∈ st.2.clients
      have hfeed : J _ := Framing.consume_preserves (parseCommand unlimited) (replicate env fd)
        (fun args n st hst => ⟨hst.1.replicate env fd args n,
          (masterFd_replicate env fd args n st).trans hst.2.1,
          hI.holds_replicate args n hst.1.settled.block hst.2.2.1 hst.2.2.2⟩)
        (s.masterBuffer ++ chunk).length (show J (0, s) from ⟨hl, hm, h, hfd⟩) (s.masterBuffer ++ chunk)
      obtain ⟨-, hm', hholds, -⟩ := hfeed
      dsimp only
      split
      · exact hI.gentle.holds_keep hholds rfl rfl rfl fun _ hw => .inl hw
      · exact hI.gentle.holds_keep (hI.holds_unlink hm' hholds) rfl rfl rfl fun _ hw => .inl hw
      · exact hI.gentle.holds_keep hholds rfl rfl rfl fun _ hw => .inl hw

theorem holds_accept (fd : ℤ) (h : s.Holds I) : (s.accept fd).Holds I := by
  refine ⟨hI.accept fd h.holds, ?_⟩
  unfold Server.accept
  split
  · exact h.waiting
  · exact fun w hw => mem_clients_insert.mpr (.inr (h.waiting w hw))

theorem holds_step (env : Env) (event : Event) (hl : s.Logged Anything Always) (h : s.Holds I) :
    (s.step env event).Holds I := by
  unfold step
  split
  · exact h
  · cases event with
    | accept fd => exact hI.holds_accept fd h
    | request fd r =>
      dsimp only
      split
      · exact h
      · exact hI.gentle.holds_command env
          (fun hfd => hI.handle env 0 r.args hfd hl.settled.block h.holds) h
    | hangup fd =>
      dsimp only
      split
      · exact hI.gentle.holds_close fd h
      · exact h
    | chunk bytes => exact hI.holds_fromMaster env bytes hl h
    | masterClosed =>
      dsimp only
      unfold masterClosed
      split
      · exact h
      · rename_i hm
        split
        · exact h
        · exact hI.holds_unlink hm h
    | round => exact hI.gentle.holds_round env h

theorem holds_run {config : Config} {replid : ReplId} {link : Option (ℤ × ℤ)}
    (h : I (boot config replid link)) (events : List (Env × Event)) :
    (run events (boot config replid link)).Holds I := by
  have hboot : (boot config replid link : Server F).Holds I := by
    refine ⟨h, fun w hw => ?_⟩
    cases link <;> cases hw
  exact (run_preserves (I := fun s => s.Logged Anything Always ∧ s.Holds I)
    (fun s env event hs => ⟨hs.1.step env event, hI.holds_step env event hs.1 hs.2⟩) events
    ⟨logged_boot config replid link, hboot⟩).2

end Parts

end Stable

/-- A client other than the primary knows its own descriptor. -/
def Numbered (s : Server F) : Prop :=
  ∀ (fd : ℤ) (client : ClientState), s.clients[fd]? = some client → s.masterFd ≠ some fd →
    client.fd = fd

theorem Numbered.insert {s s' : Server F} (h : s.Numbered) {fd : ℤ} {client : ClientState}
    (hc : s'.clients = s.clients.insert fd client) (hm : s'.masterFd = s.masterFd)
    (hfd : s.masterFd ≠ some fd → client.fd = fd) : s'.Numbered := by
  intro fd' client' hc' hm'
  rw [hc, Std.ExtTreeMap.getElem?_insert] at hc'
  rw [hm] at hm'
  split at hc'
  · rename_i he
    obtain rfl := Std.compare_eq_iff_eq.mp he
    cases hc'
    exact hfd hm'
  · exact h fd' client' hc' hm'

theorem stable_numbered : Stable (Numbered (F := F)) where
  keep h hc hm _ := by
    intro fd client hfd hne
    rw [hc] at hfd
    rw [hm] at hne
    exact h fd client hfd hne
  close closing h := by
    intro fd client hc hm
    rw [closeClient, Std.ExtTreeMap.getElem?_erase] at hc
    split at hc
    · cases hc
    · exact h fd client hc hm
  offset {s fd client} n hc h := h.insert rfl rfl fun hm => h fd client hc hm
  handle {s} env number fd args hfd hb h := by
    obtain ⟨client, hc⟩ : ∃ client, s.clients[fd]? = some client := by
      rwa [← Option.isSome_iff_exists, ← Std.ExtTreeMap.mem_iff_isSome_getElem?]
    have hget : s.clients.getD fd {} = client := by
      simp [Std.ExtTreeMap.getD_eq_getD_getElem?, hc]
    refine h.insert rfl rfl fun hm => ?_
    rw [(kept_handleCommand (env.clock number) args hb _).1.fd, hget]
    exact h fd client hc hm
  accept fd h := by
    unfold Server.accept
    split
    · exact h
    · exact h.insert rfl rfl fun _ => rfl
  unlink {s fd} hm h := by
    intro fd' client hc _
    rw [closeClient, Std.ExtTreeMap.getElem?_erase] at hc
    split at hc
    · cases hc
    · rename_i hne
      refine h fd' client hc fun he => hne ?_
      rw [hm, Option.some.injEq] at he
      exact Std.compare_eq_iff_eq.mpr he

theorem numbered_boot (config : Config) (replid : ReplId) (link : Option (ℤ × ℤ)) :
    (boot config replid link : Server F).Numbered := by
  have hstart : (start config replid : Server F).Numbered := by
    intro fd client hc _
    simp [start] at hc
  cases link with
  | none => exact hstart
  | some link =>
    obtain ⟨fd, offset⟩ := link
    intro fd' client hc hm
    simp only [boot, follow, Std.ExtTreeMap.getElem?_insert] at hc
    split at hc
    · rename_i he
      obtain rfl := Std.compare_eq_iff_eq.mp he
      exact absurd rfl hm
    · simp [start] at hc

def asks (fd : ℤ) (args : List Bytes) (h : args.length ≤ maxSize ∧ (encode args).length < 2 ^ 63) :
    Env × Event :=
  (.still, .request fd (.of args h))

end TrueStore.Server
