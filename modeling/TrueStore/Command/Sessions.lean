import TrueStore.Command.Effects

/-! # What a dispatched command can do to the store and the client

Apart from the data commands and the pop of `BLPOP`, no command touches the data, and one that
fails touches nothing at all.
-/

namespace TrueStore

open RespType

variable {F : Type} [Platform F]

/-- A command that leaves the data alone. Only authentication and the subscriptions of the
client can change. -/
structure Aside (store store' : Store F) (client client' : ClientState) : Prop where
  data : store'.toKeyspace = store.toKeyspace
  propagations : store'.pendingPropagations = store.pendingPropagations
  offset : store'.masterReplOffset = store.masterReplOffset
  replid : store'.masterReplid = store.masterReplid
  client : client' = { client with
    authenticated := client'.authenticated
    subscriptions := client'.subscriptions }

theorem Aside.trans {s s' s'' : Store F} {c c' c'' : ClientState} (h : Aside s s' c c')
    (h' : Aside s' s'' c' c'') : Aside s s'' c c'' where
  data := h'.data.trans h.data
  propagations := h'.propagations.trans h.propagations
  offset := h'.offset.trans h.offset
  replid := h'.replid.trans h.replid
  client := by rw [h'.client, h.client]

def Unchanged (store store' : Store F) (client client' : ClientState) : Prop :=
  store' = { store with pendingBlock := store'.pendingBlock } ∧ client' = client

structure Apart (store : Store F) (client : ClientState) (r : Bytes × Store F × ClientState) :
    Prop where
  aside : Aside store r.2.1 client r.2.2
  error : isError r.1 = true → Unchanged store r.2.1 client r.2.2
  block : store.pendingBlock = none → r.2.1.pendingBlock ≠ none → r.1 = []

namespace Apart

variable {store : Store F} {client : ClientState}

theorem same (reply : Bytes) : Apart store client (reply, store, client) where
  aside := ⟨rfl, rfl, rfl, rfl, rfl⟩
  error _ := ⟨rfl, rfl⟩
  block h h' := absurd h h'

theorem unblocked (reply : Bytes) :
    Apart store client (reply, { store with pendingBlock := none }, client) where
  aside := ⟨rfl, rfl, rfl, rfl, rfl⟩
  error _ := ⟨rfl, rfl⟩
  block _ h' := absurd rfl h'

theorem blocked (b : Option (BlockRequest F)) :
    Apart store client ([], { store with pendingBlock := b }, client) where
  aside := ⟨rfl, rfl, rfl, rfl, rfl⟩
  error _ := ⟨rfl, rfl⟩
  block _ _ := rfl

end Apart

/-- A command that never fails and never blocks. -/
structure Quiet (store : Store F) (client : ClientState) (r : Bytes × Store F × ClientState) :
    Prop where
  aside : Aside store r.2.1 client r.2.2
  reply : isError r.1 = false
  block : r.2.1.pendingBlock = store.pendingBlock

theorem Quiet.same {store : Store F} {client : ClientState} {reply : Bytes}
    (h : isError reply = false) : Quiet store client (reply, store, client) :=
  ⟨⟨rfl, rfl, rfl, rfl, rfl⟩, h, rfl⟩

theorem Quiet.apart {store : Store F} {client : ClientState} {r : Bytes × Store F × ClientState}
    (h : Quiet store client r) : Apart store client r where
  aside := h.aside
  error h' := by simp [h.reply] at h'
  block h' h'' := absurd h' (h.block ▸ h'')

namespace Store

variable (args : List Bytes) (store : Store F) (client : ClientState)

theorem apart_handleAcl :
    Apart store client ((store.handleAcl args).1, (store.handleAcl args).2, client) := by
  unfold handleAcl
  repeat' split
  all_goals try exact .same _
  exact ⟨⟨rfl, rfl, rfl, rfl, rfl⟩, fun h => by simp at h, fun h h' => absurd h h'⟩

theorem apart_authenticate (user password : Bytes) :
    Apart store client ((store.authenticate user password client).1, store,
      (store.authenticate user password client).2) := by
  unfold authenticate
  split
  · exact .same _
  · exact ⟨⟨rfl, rfl, rfl, rfl, rfl⟩, fun h => by simp at h, fun h h' => absurd h h'⟩

theorem apart_handleAuth :
    Apart store client ((store.handleAuth args client).1, store,
      (store.handleAuth args client).2) := by
  unfold handleAuth
  repeat' split
  · exact .same _
  · exact apart_authenticate store client _ _
  · exact apart_authenticate store client _ _
  · exact .same _

theorem isError_subscriptionReply_append (kind : String) (channel : RespType) (count : ℕ)
    (rest : Bytes) : isError (subscriptionReply kind channel count ++ rest) = false := by
  simp [subscriptionReply, toBytes, arrayHeader, isError]

theorem quiet_subscribeAll (channels : List Bytes) :
    Quiet store client (subscribeAll channels store client) := by
  induction channels generalizing store client with
  | nil => exact .same rfl
  | cons channel channels ih =>
    obtain ⟨haside, -, hblock⟩ := ih (store.addSubscriber client.fd channel)
      { client with subscriptions := client.subscriptions.insert channel }
    have hone : Aside store (store.addSubscriber client.fd channel) client
        { client with subscriptions := client.subscriptions.insert channel } :=
      ⟨rfl, rfl, rfl, rfl, rfl⟩
    exact ⟨hone.trans haside, isError_subscriptionReply_append .., hblock⟩

theorem quiet_unsubscribeAll (channels : List Bytes) :
    Quiet store client (unsubscribeAll channels store client) := by
  induction channels generalizing store client with
  | nil => exact .same rfl
  | cons channel channels ih =>
    obtain ⟨haside, -, hblock⟩ := ih (store.leaveChannel client.fd channel)
      { client with subscriptions := client.subscriptions.erase channel }
    have hone : Aside store (store.leaveChannel client.fd channel) client
        { client with subscriptions := client.subscriptions.erase channel } :=
      ⟨rfl, rfl, rfl, rfl, rfl⟩
    exact ⟨hone.trans haside, isError_subscriptionReply_append .., hblock⟩

theorem apart_handleSubscribe : Apart store client (store.handleSubscribe args client) := by
  unfold handleSubscribe
  split
  · exact (quiet_subscribeAll store client _).apart
  · exact .same _

theorem apart_handleUnsubscribe : Apart store client (store.handleUnsubscribe args client) := by
  unfold handleUnsubscribe
  split
  · exact .same _
  · exact (quiet_unsubscribeAll store client _).apart

theorem apart_handlePublish :
    Apart store client ((store.handlePublish args).1, (store.handlePublish args).2, client) := by
  unfold handlePublish
  repeat' split
  · exact .same _
  · exact Quiet.apart ⟨⟨rfl, rfl, rfl, rfl, rfl⟩, by simp, rfl⟩
  · exact .same _

theorem apart_handleXread :
    Apart store client ((store.handleXread args).1, (store.handleXread args).2, client) := by
  unfold handleXread
  dsimp only
  repeat' split
  all_goals first
    | exact .unblocked _
    | exact .blocked _

theorem apart_handleWait :
    Apart store client ((store.handleWait args).1, (store.handleWait args).2, client) := by
  unfold handleWait
  split
  · split
    · exact .blocked _
    · exact .same _
  · exact .same _

theorem handleConfigGet_snd : (store.handleConfigGet args).2 = store := by
  unfold handleConfigGet
  repeat' split
  all_goals rfl

/-- The effect of a pop on the blocking path: an `LPOP` of its key is queued for propagation. -/
def popped (key : Bytes) (rest : List Bytes) : Store F :=
  { store with toKeyspace := store.storeList key rest }.queuePropagation [ascii "LPOP", key]

variable {store} in
theorem tryBlpop_eq_some {keys : List Bytes} {key value : Bytes} {s' : Store F}
    (h : store.tryBlpop keys = some (key, value, s')) :
    key ∈ keys ∧ ∃ rest, store.listAt key = value :: rest ∧ s' = store.popped key rest := by
  unfold tryBlpop at h
  obtain ⟨⟨k, v, ks'⟩, hp, he⟩ := Option.map_eq_some_iff.mp h
  cases he
  obtain ⟨hmem, hlist, hks⟩ := Keyspace.popFirst_eq_some hp
  exact ⟨hmem, _, hlist, by simp [popped, hks]⟩

theorem handleBlpop_cases :
    Apart store client ((store.handleBlpop args).1, (store.handleBlpop args).2, client) ∨
    ∃ key value rest, key ∈ args.tail.dropLast ∧ store.listAt key = value :: rest ∧
      store.handleBlpop args = ((array [key, value]).toBytes,
        { store with pendingBlock := none }.popped key rest) := by
  unfold handleBlpop
  dsimp only
  repeat' split
  · exact .inl (.unblocked _)
  · exact .inl (.unblocked _)
  · rename_i h
    obtain ⟨hmem, rest, hlist, rfl⟩ := tryBlpop_eq_some h
    exact .inr ⟨_, _, rest, hmem, hlist, rfl⟩
  · exact .inl (.blocked _)
  · exact .inl (.unblocked _)

end Store

theorem dispatchCommand_cases (clock : Readings) (args : List Bytes) (store : Store F)
    (client : ClientState) :
    (∃ command, commandName (upperName args) = some (.data command) ∧
      dispatchCommand clock args store client =
        ((command.dispatch clock args store.toKeyspace).1,
          { store with toKeyspace := (command.dispatch clock args store.toKeyspace).2 }, client)) ∨
    (commandName (upperName args) = some .blpop ∧
      ∃ key value rest, key ∈ args.tail.dropLast ∧ store.listAt key = value :: rest ∧
        dispatchCommand clock args store client = ((array [key, value]).toBytes,
          { store with pendingBlock := none }.popped key rest, client)) ∨
    (∀ command, commandName (upperName args) ≠ some (.data command)) ∧
      (isWriteCommand (upperName args) = true →
        isError (dispatchCommand clock args store client).1 = true) ∧
      Apart store client (dispatchCommand clock args store client) := by
  unfold dispatchCommand
  rcases hn : commandName (upperName args) with _ | name
  · exact .inr (.inr ⟨by simp, fun _ => rfl, .same _⟩)
  · have hw := isWriteCommand_of_commandName hn
    have hnot : name.isWrite = false →
        isWriteCommand (upperName args) = true → ∀ p : Prop, p := by
      intro h h'
      rw [hw, h] at h'
      cases h'
    cases name with
    | data command => exact .inl ⟨command, rfl, rfl⟩
    | acl => exact .inr (.inr ⟨by simp, fun h => hnot rfl h _, store.apart_handleAcl args client⟩)
    | auth => exact .inr (.inr ⟨by simp, fun h => hnot rfl h _, store.apart_handleAuth args client⟩)
    | ping => exact .inr (.inr ⟨by simp, fun h => hnot rfl h _, .same _⟩)
    | subscribe =>
      exact .inr (.inr ⟨by simp, fun h => hnot rfl h _, store.apart_handleSubscribe args client⟩)
    | unsubscribe =>
      exact .inr (.inr ⟨by simp, fun h => hnot rfl h _, store.apart_handleUnsubscribe args client⟩)
    | publish =>
      exact .inr (.inr ⟨by simp, fun h => hnot rfl h _, store.apart_handlePublish args client⟩)
    | echo => exact .inr (.inr ⟨by simp, fun h => hnot rfl h _, .same _⟩)
    | xread => exact .inr (.inr ⟨by simp, fun h => hnot rfl h _, store.apart_handleXread args client⟩)
    | info => exact .inr (.inr ⟨by simp, fun h => hnot rfl h _, .same _⟩)
    | replconf => exact .inr (.inr ⟨by simp, fun h => hnot rfl h _, .same _⟩)
    | psync => exact .inr (.inr ⟨by simp, fun h => hnot rfl h _, .same _⟩)
    | wait => exact .inr (.inr ⟨by simp, fun h => hnot rfl h _, store.apart_handleWait args client⟩)
    | config =>
      refine .inr (.inr ⟨by simp, fun h => hnot rfl h _, ?_⟩)
      dsimp only
      rw [store.handleConfigGet_snd args]
      exact .same _
    | blpop =>
      rcases store.handleBlpop_cases args client with h | ⟨key, value, rest, hmem, hlist, h⟩
      · exact .inr (.inr ⟨by simp, fun h => hnot rfl h _, h⟩)
      · refine .inr (.inl ⟨rfl, key, value, rest, hmem, hlist, ?_⟩)
        dsimp only
        rw [h]

theorem evicts_watchKeys (keys : List Bytes) (clock : Readings) (ks : Keyspace F) :
    Keyspace.Evicts clock ks (watchKeys clock keys ks).2 := by
  induction keys generalizing clock ks with
  | nil => exact .refl _
  | cons key keys ih =>
    simp only [watchKeys, Keyspace.peek_snd]
    exact .step 0 key (ih clock.later _).of_later

theorem evicts_watchedDirty (watched : List (Bytes × Option Bytes)) (clock : Readings)
    (ks : Keyspace F) : Keyspace.Evicts clock ks (watchedDirty clock watched ks).2 := by
  induction watched generalizing clock ks with
  | nil => exact .refl _
  | cons w watched ih =>
    simp only [watchedDirty, Keyspace.peek_snd]
    split
    · exact .single clock ks 0 w.1
    · exact .step 0 w.1 (ih clock.later _).of_later

/-- What the commands around transactions do, apart from `EXEC`: the data only sees keys expire,
and the queue is kept or emptied. -/
structure Steered (clock : Readings) (args : List Bytes) (store : Store F) (client : ClientState)
    (r : Bytes × Store F × ClientState) : Prop where
  name : upperName args ∈ controlCommands
  reply : isError r.1 = false ∧ r.1 ≠ []
  data : Keyspace.Evicts clock store.toKeyspace r.2.1.toKeyspace
  block : r.2.1.pendingBlock = store.pendingBlock
  propagations : r.2.1.pendingPropagations = store.pendingPropagations
  offset : r.2.1.masterReplOffset = store.masterReplOffset
  replid : r.2.1.masterReplid = store.masterReplid
  fd : r.2.2.fd = client.fd
  clientOffset : r.2.2.replOffset = client.replOffset
  queue : r.2.2.queued = client.queued ∨ r.2.2.queued = []

def ClientState.enqueue (client : ClientState) (args : List Bytes) : ClientState :=
  { client with queued := client.queued ++ [args] }

theorem isError_of_refusal {args : List Bytes} {store : Store F} {client : ClientState}
    {reply : Bytes} (h : refusal args store client = some reply) : isError reply = true := by
  unfold refusal at h
  dsimp only at h
  repeat' split at h
  all_goals cases h
  all_goals rfl

theorem args_ne_nil_of_refusal {args : List Bytes} {store : Store F} {client : ClientState}
    (h : refusal args store client = none) : args ≠ [] := by
  rintro rfl
  cases h

end TrueStore
