import TrueStore.Command.Interleaving
import TrueStore.Invariants.Subscriptions
import TrueStore.Server.Sending

/-! # Published messages

`PUBLISH` leaves its messages in the store under descriptor numbers, and the event loop sends
them when it has answered the request. As long as it gets that far after every request that
published something, a message only goes to a connection that was subscribed at that time.
-/

namespace TrueStore

open RespType

variable {F : Type} [Platform F]

def dispatchPublications (args : List Bytes) (store : Store F) : List (ℤ × Bytes × Bytes) :=
  match commandName (upperName args), args with
  | some .publish, [_, channel, text] =>
    (store.subscribersOf channel).toList.map fun fd =>
      (fd, channel, (array [ascii "message", channel, text]).toBytes)
  | _, _ => []

def execPublications : (ℕ → Readings) → List (List Bytes) → Store F → ClientState →
    List (ℤ × Bytes × Bytes)
  | _, [], _, _ => []
  | clock, args :: queue, store, client =>
    let r := execQueued (clock 0) args store client
    dispatchPublications args store ++ execPublications (fun i => clock (i + 1)) queue r.2.1 r.2.2

def commandPublications (clock : ℕ → Readings) (args : List Bytes) (store : Store F)
    (client : ClientState) : List (ℤ × Bytes × Bytes) :=
  if (refusal args store client).isSome then []
  else if upperName args = ascii "EXEC" ∧ client.inMulti then
    let d := watchedDirty (clock 0) client.watched store.toKeyspace
    if d.1 then []
    else execPublications (fun i => clock (i + 1)) client.queued { store with toKeyspace := d.2 }
      client.leaveMulti
  else if upperName args ∈ controlCommands ∨ client.inMulti then []
  else dispatchPublications args store

def parked (publications : List (ℤ × Bytes × Bytes)) : List (ℤ × Bytes) :=
  publications.map fun p => (p.1, p.2.2)

theorem parked_append (ps ps' : List (ℤ × Bytes × Bytes)) :
    parked (ps ++ ps') = parked ps ++ parked ps' := by
  simp [parked]

namespace Store

theorem pendingMessages_subscribeAll (channels : List Bytes) (store : Store F)
    (client : ClientState) :
    (subscribeAll channels store client).2.1.pendingMessages = store.pendingMessages := by
  induction channels generalizing store client with
  | nil => rfl
  | cons channel channels ih => exact ih _ _

theorem pendingMessages_unsubscribeAll (channels : List Bytes) (store : Store F)
    (client : ClientState) :
    (unsubscribeAll channels store client).2.1.pendingMessages = store.pendingMessages := by
  induction channels generalizing store client with
  | nil => rfl
  | cons channel channels ih => exact ih _ _

end Store

theorem pendingMessages_dispatchCommand (clock : Readings) (args : List Bytes) (store : Store F)
    (client : ClientState) :
    (dispatchCommand clock args store client).2.1.pendingMessages =
      store.pendingMessages ++ parked (dispatchPublications args store) := by
  by_cases hp : commandName (upperName args) = some .publish
  · simp only [dispatchCommand, dispatchPublications, hp]
    split
    · rw [Store.handlePublish_eq]
      simp [parked, List.map_map, Function.comp_def]
    · rename_i hargs
      unfold Store.handlePublish
      split
      · exact absurd rfl (hargs _ _ _ rfl)
      · simp [parked]
  · have hnil : dispatchPublications args store = [] := by
      unfold dispatchPublications
      split
      · exact absurd ‹_› hp
      · rfl
    rw [hnil, parked, List.map_nil, List.append_nil]
    by_cases hs : commandName (upperName args) = some .subscribe
    · simp only [dispatchCommand, hs, Store.handleSubscribe]
      split
      · exact Store.pendingMessages_subscribeAll _ _ _
      · rfl
    by_cases hu : commandName (upperName args) = some .unsubscribe
    · simp only [dispatchCommand, hu, Store.handleUnsubscribe]
      split
      · rfl
      · exact Store.pendingMessages_unsubscribeAll _ _ _
    · exact (subscribers_dispatchCommand clock store client hs hu).2.2 hp

theorem pendingMessages_execQueue (clock : ℕ → Readings) (queue : List (List Bytes))
    (store : Store F) (client : ClientState) :
    (execQueue clock queue store client).2.1.pendingMessages =
      store.pendingMessages ++ parked (execPublications clock queue store client) := by
  induction queue generalizing clock store client with
  | nil => simp [execQueue, execPublications, parked]
  | cons args queue ih =>
    have hone : (execQueued (clock 0) args store client).2.1.pendingMessages =
        store.pendingMessages ++ parked (dispatchPublications args store) := by
      rw [← pendingMessages_dispatchCommand (clock 0) args store client]
      unfold execQueued
      dsimp only
      repeat' split
      all_goals rfl
    simp only [execQueue, execPublications, parked_append]
    rw [ih, hone, List.append_assoc]

theorem commandPublications_of_control {clock : ℕ → Readings} {args : List Bytes} {store : Store F}
    {client : ClientState} (hn : upperName args ∈ controlCommands)
    (hx : ¬(upperName args = ascii "EXEC" ∧ client.inMulti = true)) :
    commandPublications clock args store client = [] := by
  unfold commandPublications
  simp [hx, hn]

theorem pendingMessages_runCommand (clock : ℕ → Readings) {args : List Bytes} {store : Store F}
    {client : ClientState} (hr : refusal args store client = none) :
    (runCommand clock args store client).2.1.pendingMessages =
      store.pendingMessages ++ parked (commandPublications clock args store client) := by
  by_cases hctl : upperName args ∈ controlCommands
  · by_cases hx : upperName args = ascii "EXEC" ∧ client.inMulti = true
    · obtain ⟨hname, hin⟩ := hx
      have hrun : runCommand clock args store client = execTransaction clock store client := by
        unfold runCommand
        simp only [hname, hin, show ascii "EXEC" ≠ ascii "QUIT" by decide,
          show ascii "EXEC" ≠ ascii "RESET" by decide, show ascii "EXEC" ≠ ascii "MULTI" by decide,
          show ascii "EXEC" ≠ ascii "WATCH" by decide, show ascii "EXEC" ≠ ascii "UNWATCH" by decide,
          show ascii "EXEC" ≠ ascii "DISCARD" by decide, or_self, if_false, if_true, Bool.not_true,
          Bool.false_eq_true]
      rw [hrun]
      unfold commandPublications execTransaction
      simp only [hr, hname, hin, Option.isSome_none, Bool.false_eq_true, if_false, and_self, if_true]
      split
      · simp [parked]
      · exact pendingMessages_execQueue _ _ _ _
    · rw [commandPublications_of_control hctl hx, parked, List.map_nil, List.append_nil]
      unfold runCommand
      dsimp only
      repeat' split
      all_goals try rfl
      · rename_i hname hin
        exact absurd ⟨hname, by simpa using hin⟩ hx
      · simp only [controlCommands, List.map_cons, List.map_nil, List.mem_cons, List.not_mem_nil,
          or_false] at hctl
        tauto
  · rw [runCommand_of_not_control hctl]
    unfold commandPublications
    have hx : ¬(upperName args = ascii "EXEC" ∧ client.inMulti = true) := by
      rintro ⟨hname, -⟩
      exact hctl (hname ▸ by decide)
    simp only [hr, hx, hctl, Option.isSome_none, Bool.false_eq_true, if_false, false_or]
    split
    · simp [parked]
    · exact pendingMessages_dispatchCommand _ _ _ _

theorem pendingMessages_handleCommand (clock : ℕ → Readings) (args : List Bytes) (store : Store F)
    (client : ClientState) :
    (handleCommand clock args store client).2.1.pendingMessages =
      store.pendingMessages ++ parked (commandPublications clock args store client) := by
  unfold handleCommand
  split
  · rename_i hr
    simp [commandPublications, hr, parked]
  · exact pendingMessages_runCommand clock ‹_›

theorem live_dispatchPublications {L : ℤ → Prop} {store : Store F}
    (hs : ∀ channel, ∀ fd ∈ store.subscribersOf channel, L fd) (args : List Bytes) :
    ∀ p ∈ dispatchPublications args store, L p.1 := by
  unfold dispatchPublications
  split
  · intro p hp
    obtain ⟨fd, hfd, rfl⟩ := List.mem_map.mp hp
    exact hs _ fd (Std.ExtTreeSet.mem_toList.mp hfd)
  · simp

theorem Resubscribes.live {L : ℤ → Prop} {store store' : Store F} {client client' : ClientState}
    (h : Resubscribes store store' client client')
    (hs : ∀ channel, ∀ fd ∈ store.subscribersOf channel, L fd) (hc : L client.fd) :
    ∀ channel, ∀ fd ∈ store'.subscribersOf channel, L fd := by
  intro channel fd hfd
  by_cases he : fd = client.fd
  · exact he ▸ hc
  · exact hs channel fd ((h.others channel fd he).mp hfd)

theorem live_execPublications {L : ℤ → Prop} (clock : ℕ → Readings) (queue : List (List Bytes))
    {store : Store F} (hs : ∀ channel, ∀ fd ∈ store.subscribersOf channel, L fd)
    {client : ClientState} (hc : L client.fd) :
    ∀ p ∈ execPublications clock queue store client, L p.1 := by
  induction queue generalizing clock store client with
  | nil => simp [execPublications]
  | cons args queue ih =>
    intro p hp
    rcases List.mem_append.mp hp with hp | hp
    · exact live_dispatchPublications hs args p hp
    · have hone := resubscribes_execQueue clock [args] store client
      have hfd : L (execQueued (clock 0) args store client).2.2.fd := by
        have he : (execQueued (clock 0) args store client).2.2.fd = client.fd := hone.fd
        rwa [he]
      exact ih _ (hone.live hs hc) hfd p hp

theorem live_commandPublications {L : ℤ → Prop} (clock : ℕ → Readings) (args : List Bytes)
    {store : Store F} (hs : ∀ channel, ∀ fd ∈ store.subscribersOf channel, L fd)
    {client : ClientState} (hc : L client.fd) :
    ∀ p ∈ commandPublications clock args store client, L p.1 := by
  unfold commandPublications
  dsimp only
  repeat' split
  · simp
  · simp
  · exact live_execPublications _ _ (by exact hs) (by exact hc)
  · simp
  · exact live_dispatchPublications hs args

/-- The call of `send_all` is for a published message. -/
def Sent.isMessage (x : Sent) : Bool :=
  match x.purpose with
  | .message => true
  | _ => false

namespace Server

/-- The loop sends no message and leaves those that wait alone. -/
structure Silent (s s' : Server F) : Prop where
  messages : s'.store.pendingMessages = s.store.pendingMessages
  sends : ∃ new, s'.sends = s.sends ++ new ∧ ∀ x ∈ new, x.isMessage = false

namespace Silent

variable {s s₁ s₂ : Server F}

theorem trans (h : Silent s s₁) (h' : Silent s₁ s₂) : Silent s s₂ := by
  obtain ⟨new, hnew, hquiet⟩ := h.sends
  obtain ⟨new', hnew', hquiet'⟩ := h'.sends
  refine ⟨h'.messages.trans h.messages, new ++ new', by rw [hnew', hnew, List.append_assoc], ?_⟩
  intro x hx
  exact (List.mem_append.mp hx).elim (hquiet x) (hquiet' x)

theorem of_eq (hm : s₁.store.pendingMessages = s.store.pendingMessages)
    (hs : s₁.sends = s.sends) : Silent s s₁ :=
  ⟨hm, [], by simp [hs], by simp⟩

theorem refl (s : Server F) : Silent s s := of_eq rfl rfl

theorem after (h : Silent s₁ s₂) (hm : s₁.store.pendingMessages = s.store.pendingMessages)
    (hs : s₁.sends = s.sends) : Silent s s₂ :=
  (of_eq hm hs).trans h

theorem before (h : Silent s s₁) (hm : s₂.store.pendingMessages = s₁.store.pendingMessages)
    (hs : s₂.sends = s₁.sends) : Silent s s₂ :=
  h.trans (of_eq hm hs)

theorem of_sends {allowed : Purpose → Prop} (h : Sends allowed s s₁)
    (hno : ∀ p, allowed p → p ≠ .message) : Silent s s₁ := by
  obtain ⟨new, hnew, hall⟩ := h.sends
  refine ⟨h.messages, new, hnew, fun x hx => ?_⟩
  have hp := hno _ (hall x hx)
  unfold Sent.isMessage
  split
  · exact absurd ‹_› hp
  · rfl

theorem of_stream (h : Sends (· = .stream) s s₁) : Silent s s₁ :=
  of_sends h fun p hp => by simp [hp]

theorem of_replication (h : Sends (Purpose.isReplication · = true) s s₁) : Silent s s₁ :=
  of_sends h fun p hp => by rintro rfl; cases hp

theorem send (env : Env) (fd : ℤ) (payload : Bytes) (purpose : Purpose) (hp : purpose ≠ .message)
    (s : Server F) : Silent s (s.send env fd payload purpose).2 :=
  of_sends (Sends.send env fd payload purpose hp s) fun _ h => h

theorem respond (env : Env) (fd : ℤ) (reply : Bytes) (s : Server F) :
    Silent s (s.respond env fd reply).2 := by
  unfold Server.respond
  split
  · exact (of_replication (Sends.block env fd _ _)).after rfl rfl
  · split
    · exact refl s
    · have hsend := send env fd reply .reply (by simp) s
      dsimp only
      split
      · exact hsend
      · exact hsend.before rfl rfl

theorem serveWaiter (env : Env) (w : Waiter) (s : Server F) :
    Silent s (s.serveWaiter env w).2 := by
  unfold Server.serveWaiter
  split
  · split
    · exact of_replication (Sends.sendAcked env w.fd _ s)
    · exact refl s
  · split
    · exact refl s
    · rename_i key value store hpop
      obtain ⟨-, rest, -, rfl⟩ := Store.tryBlpop_eq_some hpop
      have hpopped : Silent s { s with
          store := { s.store.popped key rest with pendingPropagations := [] }
          calls := s.calls ++ [Call.pop s.store.toKeyspace key] } := of_eq rfl rfl
      exact (hpopped.trans (of_stream (Sends.propagatePopped env w.fd _ _))).trans
        (send env w.fd _ _ (by simp) _)
  · split
    · exact refl s
    · exact send env w.fd _ _ (by simp) s

theorem serveAll (env : Env) (ws : List Waiter) (s : Server F) :
    Silent s (serveAll env ws s).2 := by
  induction ws generalizing s with
  | nil => exact refl s
  | cons w ws ih => exact (serveWaiter env w s).trans (ih _)

theorem expireAll (env : Env) (ws : List Waiter) (s : Server F) :
    Silent s (expireAll env ws s) := by
  induction ws generalizing s with
  | nil => exact refl s
  | cons w ws ih =>
    unfold Server.expireAll
    split
    · split
      · exact (of_replication (Sends.sendAcked env w.fd _ s)).trans (ih _)
      · exact (send env w.fd _ _ (by simp) s).trans (ih _)
    · exact ih s

theorem round (env : Env) (s : Server F) :
    Silent s ((s.serveWaiters env).expireWaiters env) := by
  have hserve : Silent s (s.serveWaiters env) := (serveAll env s.waiters s).before rfl rfl
  exact (hserve.trans (expireAll env (s.serveWaiters env).waiters _)).before rfl rfl

end Silent

theorem sends_deliverAll (env : Env) (messages : List (ℤ × Bytes)) (s : Server F) :
    (deliverAll env messages s).store.pendingMessages = s.store.pendingMessages ∧
      ∃ new, (deliverAll env messages s).sends = s.sends ++ new ∧
        ∀ x ∈ new, (x.fd, x.payload) ∈ messages := by
  induction messages generalizing s with
  | nil => exact ⟨rfl, [], by simp [deliverAll], by simp⟩
  | cons m messages ih =>
    obtain ⟨recipient, message⟩ := m
    unfold deliverAll
    dsimp only
    split
    · obtain ⟨hmsg, new, hnew, hmem⟩ := ih (if (s.send env recipient message .message).1 = true then
        (s.send env recipient message .message).2
        else (s.send env recipient message .message).2.closeClient recipient)
      refine ⟨hmsg.trans ?_, ⟨recipient, message, .message, env.sendOk s.sends.length⟩ :: new, ?_,
        List.forall_mem_cons.mpr ⟨List.mem_cons_self,
          fun x hx => List.mem_cons_of_mem _ (hmem x hx)⟩⟩
      · split <;> rfl
      · rw [hnew]
        split <;> simp [send, closeClient]
    · obtain ⟨hmsg, new, hnew, hmem⟩ := ih s
      exact ⟨hmsg, new, hnew, fun x hx => List.mem_cons_of_mem _ (hmem x hx)⟩

theorem sends_finish (env : Env) (fd : ℤ) (s : Server F) :
    (s.finish env fd).store.pendingMessages = [] ∧
      ∃ new, (s.finish env fd).sends = s.sends ++ new ∧
        ∀ x ∈ new, (x.fd, x.payload) ∈ s.store.pendingMessages := by
  have h := sends_deliverAll env s.store.pendingMessages
    { s with store := { s.store with pendingMessages := [] } }
  unfold finish deliverMessages
  dsimp only
  split
  · exact h
  · exact h

def published (env : Env) (event : Event) (s : Server F) : List (ℤ × Bytes × Bytes) :=
  match event with
  | .request fd r =>
    match s.clients[fd]? with
    | none => []
    | some client =>
      if s.halted ∨ s.masterFd = some fd ∨ (s.ackText r.args client).isSome then []
      else commandPublications (env.clock 0) r.args s.store client
  | _ => []

/-- How many calls of `send_all` come before the reply to a request. -/
def replyNumber (env : Env) (fd : ℤ) (args : List Bytes) (s : Server F) : ℕ :=
  let inMulti := (s.clients.getD fd {}).inMulti
  let r := s.handle env 0 fd args
  ((r.2.register fd args inMulti r.1).publish env fd args inMulti r.1).sends.length

/-- A request publishes something, and the reply to it cannot be sent. -/
def strands (env : Env) (event : Event) (s : Server F) : Bool :=
  match event with
  | .request fd r => published env event s ≠ [] ∧ !env.sendOk (s.replyNumber env fd r.args)
  | _ => false

/-- All that a step does with messages. -/
structure Delivers (env : Env) (event : Event) (s s' : Server F) : Prop where
  none_left : s'.store.pendingMessages = []
  sends : ∃ new, s'.sends = s.sends ++ new ∧ ∀ x ∈ new, x.isMessage = true →
    (x.fd, x.payload) ∈ parked (published env event s)

theorem Silent.delivers {s s' : Server F} (h : Silent s s') (hs : s.store.pendingMessages = [])
    (env : Env) (event : Event) : Delivers env event s s' := by
  obtain ⟨new, hnew, hquiet⟩ := h.sends
  refine ⟨h.messages.trans hs, new, hnew, fun x hx hm => ?_⟩
  rw [hquiet x hx] at hm
  cases hm

theorem delivers_of_eq {s s' : Server F} (hs : s.store.pendingMessages = []) (env : Env)
    (event : Event) (hm : s'.store.pendingMessages = s.store.pendingMessages)
    (he : s'.sends = s.sends) : Delivers env event s s' :=
  (Silent.of_eq hm he).delivers hs env event

theorem respond_fails {env : Env} {fd : ℤ} {reply : Bytes} {s : Server F}
    (h : (s.respond env fd reply).1 = false) : env.sendOk s.sends.length = false := by
  unfold respond at h
  split at h
  · cases h
  · split at h
    · cases h
    · dsimp only [send] at h
      split at h
      · rename_i hs
        rw [hs] at h
        cases h
      · rename_i hs
        simpa using hs

theorem delivers_request {env : Env} {fd : ℤ} {r : Request} {s : Server F}
    (hs : s.store.pendingMessages = []) (hh : s.halted = false) (hm : s.masterFd ≠ some fd)
    (hstrand : strands env (.request fd r) s = false) :
    Delivers env (.request fd r) s (s.command env fd r.args) := by
  have hrefl : Delivers env (.request fd r) s s := (Silent.refl s).delivers hs env _
  unfold command
  split
  · exact hrefl
  rename_i client hclient
  have hget : s.clients.getD fd {} = client := by
    simp [Std.ExtTreeMap.getD_eq_getD_getElem?, hclient]
  split
  · unfold acknowledge
    split
    · exact delivers_of_eq hs env _ rfl rfl
    · exact hrefl
  rename_i hack
  have hpub : published env (.request fd r) s =
      commandPublications (env.clock 0) r.args s.store client := by
    simp [published, hclient, hh, hm, hack]
  have hhandle : (s.handle env 0 fd r.args).2.store.pendingMessages =
      parked (published env (.request fd r) s) := by
    rw [hpub]
    simp only [handle, hget, pendingMessages_handleCommand, hs, List.nil_append]
  have hpubl := Silent.of_stream ((Sends.register fd r.args client.inMulti
    (s.handle env 0 fd r.args).1 (s.handle env 0 fd r.args).2).trans
      (.publish env fd r.args client.inMulti (s.handle env 0 fd r.args).1 _))
  have hresp := hpubl.trans (.respond env fd (s.handle env 0 fd r.args).1 _)
  obtain ⟨new, hnew, hquiet⟩ := hresp.sends
  dsimp only
  split
  · obtain ⟨hleft, new', hnew', hmem⟩ := sends_finish env fd
      (((s.handle env 0 fd r.args).2.register fd r.args client.inMulti
        (s.handle env 0 fd r.args).1).publish env fd r.args client.inMulti
        (s.handle env 0 fd r.args).1 |>.respond env fd (s.handle env 0 fd r.args).1).2
    refine ⟨hleft, new ++ new', ?_, fun x hx hmsg => ?_⟩
    · rw [hnew', hnew, List.append_assoc]
      rfl
    · rcases List.mem_append.mp hx with hx | hx
      · rw [hquiet x hx] at hmsg
        cases hmsg
      · rw [← hhandle, ← hresp.messages]
        exact hmem x hx
  · rename_i hfail
    have hnone : published env (.request fd r) s = [] := by
      by_contra hne
      have hnumber := respond_fails (by simpa using hfail)
      simp [strands, hne, replyNumber, hget, hnumber] at hstrand
    refine ⟨?_, new, ?_, fun x hx hmsg => ?_⟩
    · rw [hresp.messages, hhandle, hnone]
      rfl
    · rw [hnew]
      rfl
    · rw [hquiet x hx] at hmsg
      cases hmsg

theorem delivers_step {env : Env} {event : Event} {s : Server F} (hm : s.masterFd = none)
    (hs : s.store.pendingMessages = []) (hstrand : strands env event s = false) :
    Delivers env event s (s.step env event) := by
  have hrefl : Delivers env event s s := (Silent.refl s).delivers hs env event
  unfold step
  split
  · exact hrefl
  · rename_i hh
    cases event with
    | accept fd =>
      dsimp only
      unfold accept
      split
      · exact hrefl
      · exact delivers_of_eq hs env _ rfl rfl
    | request fd r =>
      dsimp only
      rw [if_neg (by simp [hm])]
      exact delivers_request hs (by simpa using hh) (by simp [hm]) hstrand
    | hangup fd =>
      dsimp only
      split
      · exact delivers_of_eq hs env _ rfl rfl
      · exact hrefl
    | chunk bytes =>
      simp only [fromMaster, hm]
      exact hrefl
    | masterClosed =>
      simp only [masterClosed, hm]
      exact hrefl
    | round => exact (Silent.round env s).delivers hs env _

/-- Every message of the run goes to a connection that was subscribed to its channel when an
earlier event of the run, or the same one, published it, and that has been open ever since. -/
def ReachesSubscribers (events : List (Env × Event)) (s : Server F) : Prop :=
  ∀ j < events.length,
    ∀ x ∈ (run (events.take (j + 1)) s).sends.drop (run (events.take j) s).sends.length,
      x.isMessage = true →
      ∃ i ≤ j, ∃ env event channel, events[i]? = some (env, event) ∧
        (x.fd, channel, x.payload) ∈ published env event (run (events.take i) s) ∧
        ∀ k, i ≤ k → k ≤ j → x.fd ∈ (run (events.take k) s).clients

theorem run_append (events events' : List (Env × Event)) (s : Server F) :
    run (events ++ events') s = run events' (run events s) := by
  induction events generalizing s with
  | nil => rfl
  | cons e events ih => exact ih _

theorem run_take_succ {events : List (Env × Event)} {j : ℕ} {env : Env} {event : Event}
    (h : events[j]? = some (env, event)) (s : Server F) :
    run (events.take (j + 1)) s = (run (events.take j) s).step env event := by
  rw [List.take_add_one, h, run_append]
  rfl

theorem Agrees.run (config : Config) (replid : ReplId) (events : List (Env × Event)) :
    (run events (start config replid : Server F)).Agrees := by
  have hstart : (boot config replid none : Server F).Agrees := agrees_start config replid
  exact (stable_agrees.holds_run hstart events).holds

theorem mem_clients_of_published {s : Server F} (h : s.Agrees) {env : Env} {event : Event} :
    ∀ p ∈ published env event s, p.1 ∈ s.clients := by
  have hmem : ∀ (fd : ℤ) (client : ClientState), s.clients[fd]? = some client →
      fd ∈ s.clients := by
    intro fd client hc
    rw [Std.ExtTreeMap.mem_iff_isSome_getElem?, hc]
    rfl
  cases event with
  | request fd r =>
    simp only [published]
    rcases hc : s.clients[fd]? with _ | client
    · simp
    · dsimp only
      split
      · simp
      · refine live_commandPublications _ _ (fun channel fd' hfd => ?_) ?_
        · obtain ⟨client', hc', -⟩ := (h.subscribers channel fd').mp hfd
          exact hmem fd' client' hc'
        · rw [h.fds fd client hc]
          exact hmem fd client hc
  | _ => simp [published]

/-- If no reply to a request that published something fails to be sent, then messages only reach
connections that were subscribed. -/
theorem messages_reach_subscribers (config : Config) (replid : ReplId)
    (events : List (Env × Event))
    (h : ∀ (j : ℕ) (env : Env) (event : Event), events[j]? = some (env, event) →
      strands env event (run (events.take j) (start config replid : Server F)) = false) :
    ReachesSubscribers events (start config replid : Server F) := by
  have hempty : ∀ j ≤ events.length,
      (run (events.take j) (start config replid : Server F)).store.pendingMessages = [] := by
    intro j
    induction j with
    | zero => exact fun _ => rfl
    | succ j ih =>
      intro hj
      have he : events[j]? = some events[j] := List.getElem?_eq_getElem hj
      rw [run_take_succ he]
      exact (delivers_step (Agrees.run config replid _).masterFd (ih (Nat.le_of_succ_le hj))
        (h j _ _ he)).none_left
  intro j hj x hx hmsg
  have he : events[j]? = some (events[j].1, events[j].2) := List.getElem?_eq_getElem hj
  have hagrees : (run (events.take j) (start config replid : Server F)).Agrees :=
    .run config replid _
  obtain ⟨-, new, hnew, hmem⟩ := delivers_step hagrees.masterFd (hempty j hj.le) (h j _ _ he)
  rw [run_take_succ he, hnew, List.drop_left] at hx
  obtain ⟨p, hp, hpeq⟩ := List.mem_map.mp (hmem x hx hmsg)
  obtain ⟨hfd, hpayload⟩ := Prod.mk.inj hpeq
  refine ⟨j, le_rfl, events[j].1, events[j].2, p.2.1, he, ?_, fun k hk hk' => ?_⟩
  · rw [← hfd, ← hpayload]
    exact hp
  · obtain rfl := le_antisymm hk' hk
    rw [← hfd]
    exact mem_clients_of_published hagrees p hp

def publishing : List (Env × Event) :=
  [(.still, .accept 5), (.still, .accept 6), asks 6 [ascii "SUBSCRIBE", ascii "c"] (by decide),
    asks 5 [ascii "PUBLISH", ascii "c", ascii "hi"] (by decide)]

theorem messages_reach_subscribers_publishing :
    ((run publishing (start {} .zeros : Server Whole)).sends.any Sent.isMessage) = true ∧
      ReachesSubscribers publishing (start {} .zeros : Server Whole) := by
  refine ⟨by decide, messages_reach_subscribers {} .zeros publishing fun j env event h => ?_⟩
  match j with
  | 0 | 1 | 2 | 3 =>
    cases h
    decide
  | j + 4 => cases h

/-- The publisher is gone before the loop gets to the message; the subscriber hangs up as well,
and a new connection gets its descriptor. -/
def stranding : List (Env × Event) :=
  [(.still, .accept 5), (.still, .accept 6), asks 6 [ascii "SUBSCRIBE", ascii "c"] (by decide),
    ({ Env.still with sendOk := fun _ => false }, (asks 5 [ascii "PUBLISH", ascii "c", ascii "hi"]
      (by decide)).2),
    (.still, .hangup 6), (.still, .accept 6), asks 6 [ascii "PING"] (by decide)]

/-- The new connection receives a message that was published before it existed. -/
theorem message_reaches_stranger :
    ¬ReachesSubscribers stranding (start {} .zeros : Server Whole) := by
  intro h
  have hsent : ((run (stranding.take 7) (start {} .zeros : Server Whole)).sends.drop
      (run (stranding.take 6) (start {} .zeros : Server Whole)).sends.length).any
        (fun x => x.isMessage && x.fd = 6) = true := by decide
  obtain ⟨x, hx, hmsg⟩ := List.any_eq_true.mp hsent
  rw [Bool.and_eq_true, decide_eq_true_eq] at hmsg
  obtain ⟨i, hi, env, event, channel, he, hpub, hlive⟩ := h 6 (by decide) x hx hmsg.1
  rcases Nat.lt_or_ge i 6 with hlt | hge
  · -- the descriptor was not in use after the hang-up
    have hgone : (6 : ℤ) ∉ (run (stranding.take 5) (start {} .zeros : Server Whole)).clients := by
      decide
    exact hgone (hmsg.2 ▸ hlive 5 (Nat.le_of_lt_succ hlt) (by decide))
  · obtain rfl := le_antisymm hi hge
    cases he
    have hnone : published .still (.request 6 ⟨[ascii "PING"], by decide, by decide⟩)
        (run (stranding.take 6) (start {} .zeros : Server Whole)) = [] := by decide
    exact absurd (hnone ▸ hpub) List.not_mem_nil

end Server

end TrueStore
