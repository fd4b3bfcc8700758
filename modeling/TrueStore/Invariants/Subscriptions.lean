import TrueStore.Server.Connections
import TrueStore.Store.Subscribers

/-! # Subscriptions from both sides

A client knows its channels and a channel knows its subscribers. Whatever happens, the two agree
between commands, so `PUBLISH` reaches each live subscriber once.
-/

namespace TrueStore

open RespType

variable {F : Type} [Platform F]

/-- What a command of a client does to the subscriptions, seen from both sides. -/
structure Resubscribes (store store' : Store F) (client client' : ClientState) : Prop where
  fd : client'.fd = client.fd
  others : ∀ (channel : Bytes) (fd : ℤ), fd ≠ client.fd →
    (fd ∈ store'.subscribersOf channel ↔ fd ∈ store.subscribersOf channel)
  own : (∀ channel, client.fd ∈ store.subscribersOf channel ↔ channel ∈ client.subscriptions) →
    ∀ channel, client.fd ∈ store'.subscribersOf channel ↔ channel ∈ client'.subscriptions
  noEmpty : store.NoEmptyChannel → store'.NoEmptyChannel

namespace Resubscribes

variable {store store₁ store₂ : Store F} {client client₁ client₂ : ClientState}

theorem of_eq (hs : store₁.subscribers = store.subscribers) (hfd : client₁.fd = client.fd)
    (hc : client₁.subscriptions = client.subscriptions) :
    Resubscribes store store₁ client client₁ where
  fd := hfd
  others channel fd _ := by rw [Store.subscribersOf, Store.subscribersOf, hs]
  own h channel := by
    rw [hc, Store.subscribersOf, hs]
    exact h channel
  noEmpty h channel fds hf := h channel fds (hs ▸ hf)

theorem refl (store : Store F) (client : ClientState) : Resubscribes store store client client :=
  .of_eq rfl rfl rfl

theorem trans (h : Resubscribes store store₁ client client₁)
    (h' : Resubscribes store₁ store₂ client₁ client₂) : Resubscribes store store₂ client client₂ where
  fd := h'.fd.trans h.fd
  others channel fd hne :=
    (h'.others channel fd (by rwa [h.fd])).trans (h.others channel fd hne)
  own hown channel := by
    have h₁ := h'.own (by rw [h.fd]; exact h.own hown) channel
    rwa [h.fd] at h₁
  noEmpty hn := h'.noEmpty (h.noEmpty hn)

end Resubscribes

namespace Store

variable (store : Store F) (client : ClientState)

theorem resubscribes_subscribeAll (channels : List Bytes) :
    Resubscribes store (subscribeAll channels store client).2.1 client
      (subscribeAll channels store client).2.2 := by
  induction channels generalizing store client with
  | nil => exact .refl store client
  | cons channel channels ih =>
    have hone : Resubscribes store (store.addSubscriber client.fd channel) client
        { client with subscriptions := client.subscriptions.insert channel } := by
      refine ⟨rfl, fun channel' fd hne => ?_, fun hown channel' => ?_,
        noEmptyChannel_addSubscriber⟩
      · rw [mem_subscribersOf_addSubscriber]
        exact or_iff_left fun h => hne h.1
      · rw [mem_subscribersOf_addSubscriber, hown, Std.ExtTreeSet.mem_insert,
          Std.compare_eq_iff_eq, or_comm, eq_comm (a := channel)]
        simp
    exact hone.trans (ih _ _)

theorem resubscribes_unsubscribeAll (channels : List Bytes) :
    Resubscribes store (unsubscribeAll channels store client).2.1 client
      (unsubscribeAll channels store client).2.2 := by
  induction channels generalizing store client with
  | nil => exact .refl store client
  | cons channel channels ih =>
    have hone : Resubscribes store (store.leaveChannel client.fd channel) client
        { client with subscriptions := client.subscriptions.erase channel } := by
      refine ⟨rfl, fun channel' fd hne => ?_, fun hown channel' => ?_, noEmptyChannel_leaveChannel⟩
      · rw [mem_subscribersOf_leaveChannel]
        exact and_iff_left fun _ => hne
      · rw [mem_subscribersOf_leaveChannel, hown, Std.ExtTreeSet.mem_erase, and_comm]
        simp [eq_comm (a := channel)]
    exact hone.trans (ih _ _)

theorem resubscribes_handleSubscribe (args : List Bytes) :
    Resubscribes store (store.handleSubscribe args client).2.1 client
      (store.handleSubscribe args client).2.2 := by
  unfold handleSubscribe
  split
  · exact resubscribes_subscribeAll store client _
  · exact .refl store client

theorem resubscribes_handleUnsubscribe (args : List Bytes) :
    Resubscribes store (store.handleUnsubscribe args client).2.1 client
      (store.handleUnsubscribe args client).2.2 := by
  unfold handleUnsubscribe
  split
  · exact .refl store client
  · exact resubscribes_unsubscribeAll store client _

theorem resubscribes_removeSubscriber (authenticated closeAfterReply : Bool) :
    Resubscribes store (store.removeSubscriber client.fd) client
      { client.leaveMulti with subscriptions := ∅, authenticated, closeAfterReply } := by
  refine ⟨rfl, fun channel fd hne => ?_, fun _ channel => ?_,
    fun _ => noEmptyChannel_removeSubscriber store client.fd⟩
  · rw [mem_subscribersOf_removeSubscriber]
    exact and_iff_left hne
  · rw [mem_subscribersOf_removeSubscriber]
    simp

end Store

/-- The commands that have nothing to do with subscriptions leave them alone, and only `PUBLISH`
queues messages. -/
theorem subscribers_dispatchCommand (clock : Readings) {args : List Bytes} (store : Store F)
    (client : ClientState) (hs : commandName (upperName args) ≠ some .subscribe)
    (hu : commandName (upperName args) ≠ some .unsubscribe) :
    (dispatchCommand clock args store client).2.1.subscribers = store.subscribers ∧
      (dispatchCommand clock args store client).2.2.subscriptions = client.subscriptions ∧
      (commandName (upperName args) ≠ some .publish →
        (dispatchCommand clock args store client).2.1.pendingMessages = store.pendingMessages) := by
  unfold dispatchCommand
  rcases hn : commandName (upperName args) with _ | name
  · exact ⟨rfl, rfl, fun _ => rfl⟩
  · cases name with
    | subscribe => exact absurd hn hs
    | unsubscribe => exact absurd hn hu
    | acl =>
      dsimp only
      unfold Store.handleAcl
      repeat' split
      all_goals exact ⟨rfl, rfl, fun _ => rfl⟩
    | auth =>
      dsimp only
      unfold Store.handleAuth Store.authenticate
      repeat' split
      all_goals exact ⟨rfl, rfl, fun _ => rfl⟩
    | publish =>
      dsimp only
      unfold Store.handlePublish
      repeat' split
      all_goals exact ⟨rfl, rfl, fun h => absurd rfl h⟩
    | blpop =>
      dsimp only
      unfold Store.handleBlpop
      dsimp only
      repeat' split
      all_goals try exact ⟨rfl, rfl, fun _ => rfl⟩
      rename_i hpop
      obtain ⟨-, rest, -, rfl⟩ := Store.tryBlpop_eq_some hpop
      exact ⟨rfl, rfl, fun _ => rfl⟩
    | xread =>
      dsimp only
      unfold Store.handleXread
      dsimp only
      repeat' split
      all_goals exact ⟨rfl, rfl, fun _ => rfl⟩
    | wait =>
      dsimp only
      unfold Store.handleWait
      repeat' split
      all_goals exact ⟨rfl, rfl, fun _ => rfl⟩
    | config =>
      dsimp only
      rw [store.handleConfigGet_snd args]
      exact ⟨rfl, rfl, fun _ => rfl⟩
    | ping | echo | info | replconf | psync | data _ => exact ⟨rfl, rfl, fun _ => rfl⟩

theorem resubscribes_dispatchCommand (clock : Readings) (args : List Bytes) (store : Store F)
    (client : ClientState) :
    Resubscribes store (dispatchCommand clock args store client).2.1 client
      (dispatchCommand clock args store client).2.2 := by
  by_cases hs : commandName (upperName args) = some .subscribe
  · simp only [dispatchCommand, hs]
    exact store.resubscribes_handleSubscribe client args
  by_cases hu : commandName (upperName args) = some .unsubscribe
  · simp only [dispatchCommand, hu]
    exact store.resubscribes_handleUnsubscribe client args
  · obtain ⟨h₁, h₂, -⟩ := subscribers_dispatchCommand clock store client hs hu
    exact .of_eq h₁ (kept_dispatchCommand clock args store client).1.fd h₂

theorem resubscribes_execQueue (clock : ℕ → Readings) (queue : List (List Bytes)) (store : Store F)
    (client : ClientState) :
    Resubscribes store (execQueue clock queue store client).2.1 client
      (execQueue clock queue store client).2.2 := by
  induction queue generalizing clock store client with
  | nil => exact .refl store client
  | cons args queue ih =>
    have hone : Resubscribes store (execQueued (clock 0) args store client).2.1 client
        (execQueued (clock 0) args store client).2.2 := by
      refine (resubscribes_dispatchCommand (clock 0) args store client).trans ?_
      unfold execQueued
      dsimp only
      repeat' split
      all_goals exact .of_eq rfl rfl rfl
    exact hone.trans (ih _ _ _)

theorem resubscribes_handleCommand (clock : ℕ → Readings) (args : List Bytes) (store : Store F)
    (client : ClientState) :
    Resubscribes store (handleCommand clock args store client).2.1 client
      (handleCommand clock args store client).2.2 := by
  unfold handleCommand
  split
  · exact .refl store client
  unfold runCommand
  dsimp only
  repeat' split
  all_goals try exact .of_eq rfl rfl rfl
  · exact store.resubscribes_removeSubscriber client _ _
  · exact store.resubscribes_removeSubscriber client _ _
  · unfold execTransaction
    dsimp only
    split
    · exact .of_eq rfl rfl rfl
    · have hleave : Resubscribes store { store with
          toKeyspace := (watchedDirty (clock 0) client.watched store.toKeyspace).2 } client
          client.leaveMulti := .of_eq rfl rfl rfl
      exact hleave.trans (resubscribes_execQueue _ _ _ _)
  · exact resubscribes_dispatchCommand (clock 0) args store client

namespace Server

/-- Both sides of the subscriptions agree, on a server without a primary. -/
structure Agrees (s : Server F) : Prop where
  masterFd : s.masterFd = none
  fds : ∀ (fd : ℤ) (client : ClientState), s.clients[fd]? = some client → client.fd = fd
  subscribers : ∀ (channel : Bytes) (fd : ℤ), fd ∈ s.store.subscribersOf channel ↔
    ∃ client, s.clients[fd]? = some client ∧ channel ∈ client.subscriptions
  noEmpty : s.store.NoEmptyChannel

theorem Agrees.insert {s s' : Server F} (h : s.Agrees) {fd : ℤ} {client client' : ClientState}
    (hc : s.clients[fd]? = some client) (hr : Resubscribes s.store s'.store client client')
    (hm : s'.masterFd = s.masterFd) (hi : s'.clients = s.clients.insert fd client') : s'.Agrees where
  masterFd := hm.trans h.masterFd
  fds fd' client'' hc' := by
    rw [hi, Std.ExtTreeMap.getElem?_insert] at hc'
    split at hc'
    · rename_i he
      cases hc'
      rw [hr.fd, h.fds fd client hc]
      exact Std.compare_eq_iff_eq.mp he
    · exact h.fds fd' client'' hc'
  subscribers channel fd' := by
    have hfd := h.fds fd client hc
    rw [hi, Std.ExtTreeMap.getElem?_insert]
    split
    · rename_i he
      obtain rfl := Std.compare_eq_iff_eq.mp he
      have hown := hr.own (fun channel => by rw [hfd, h.subscribers]; simp [hc]) channel
      rw [hfd] at hown
      simp [hown]
    · rename_i he
      have hne : fd' ≠ client.fd := by
        rw [hfd]
        exact fun h => he (Std.compare_eq_iff_eq.mpr h.symm)
      rw [hr.others channel fd' hne]
      exact h.subscribers channel fd'
  noEmpty := hr.noEmpty h.noEmpty

theorem Agrees.close {s : Server F} (h : s.Agrees) (fd : ℤ) : (s.closeClient fd).Agrees where
  masterFd := h.masterFd
  fds fd' client hc := by
    rw [closeClient, Std.ExtTreeMap.getElem?_erase] at hc
    split at hc
    · cases hc
    · exact h.fds fd' client hc
  subscribers channel fd' := by
    rw [closeClient, Store.mem_subscribersOf_removeSubscriber, h.subscribers,
      Std.ExtTreeMap.getElem?_erase]
    split
    · rename_i he
      simp [Std.compare_eq_iff_eq.mp he]
    · rename_i he
      exact and_iff_left fun h => he (Std.compare_eq_iff_eq.mpr h.symm)
  noEmpty := Store.noEmptyChannel_removeSubscriber s.store fd

theorem stable_agrees : Stable (Agrees (F := F)) where
  keep {s s'} h hc hm hs := by
    have hsub : ∀ channel, s'.store.subscribersOf channel = s.store.subscribersOf channel := by
      intro channel
      rw [Store.subscribersOf, Store.subscribersOf, hs]
    refine ⟨hm.trans h.masterFd, hc ▸ h.fds, fun channel fd => ?_, fun channel fds hf => ?_⟩
    · rw [hsub, hc]
      exact h.subscribers channel fd
    · exact h.noEmpty channel fds (hs ▸ hf)
  close fd h := h.close fd
  offset {s fd client} n hc h := by
    have hr : Resubscribes s.store s.store client { client with replOffset := n } :=
      .of_eq rfl rfl rfl
    exact h.insert hc hr rfl rfl
  handle {s} env number fd args hfd _ h := by
    obtain ⟨client, hc⟩ : ∃ client, s.clients[fd]? = some client := by
      rwa [← Option.isSome_iff_exists, ← Std.ExtTreeMap.mem_iff_isSome_getElem?]
    have hget : s.clients.getD fd {} = client := by
      simp [Std.ExtTreeMap.getD_eq_getD_getElem?, hc]
    have hr := resubscribes_handleCommand (env.clock number) args s.store client
    rw [← hget] at hr hc
    exact h.insert hc hr rfl rfl
  accept {s} fd h := by
    unfold Server.accept
    split
    · exact h
    · rename_i hnot
      have hnone : s.clients[fd]? = none := by simpa using hnot
      refine ⟨h.masterFd, fun fd' client hc => ?_, fun channel fd' => ?_, h.noEmpty⟩
      · rw [Std.ExtTreeMap.getElem?_insert] at hc
        split at hc
        · rename_i he
          cases hc
          exact Std.compare_eq_iff_eq.mp he
        · exact h.fds fd' client hc
      · dsimp only
        rw [h.subscribers, Std.ExtTreeMap.getElem?_insert]
        split
        · rename_i he
          obtain rfl := Std.compare_eq_iff_eq.mp he
          simp [hnone]
        · rfl
  unlink hm h := by
    rw [h.masterFd] at hm
    cases hm

theorem agrees_start (config : Config) (replid : ReplId) :
    (start config replid : Server F).Agrees where
  masterFd := rfl
  fds fd client h := by simp [start] at h
  subscribers channel fd := by simp [start, Store.init, Store.subscribersOf]
  noEmpty channel fds h := by simp [start, Store.init] at h

end Server

theorem Store.handlePublish_eq {store : Store F} (name channel text : Bytes) :
    store.handlePublish [name, channel, text] =
      ((integer (store.subscribersOf channel).size).toBytes,
        { store with pendingMessages := store.pendingMessages ++
          (store.subscribersOf channel).toList.map fun fd =>
            (fd, (array [ascii "message", channel, text]).toBytes) }) := by
  unfold Store.handlePublish
  dsimp only
  cases hc : store.subscribers[channel]? with
  | none =>
    have hnil : (∅ : Std.ExtTreeSet ℤ).toList = [] := rfl
    simp [subscribersOf, Std.ExtTreeMap.getD_eq_getD_getElem?, hc, hnil]
  | some fds => simp [subscribersOf, Std.ExtTreeMap.getD_eq_getD_getElem?, hc]

namespace Server

/-- In every reachable state a descriptor is subscribed to a channel if and only if its live
client is, and no channel has an empty entry. So a `PUBLISH`, also one inside of `EXEC` after any
part of the queue, counts the live clients that are subscribed at that moment and queues one
message for each. -/
theorem subscriptions_agree (config : Config) (replid : ReplId) (events : List (Env × Event)) :
    (∀ (channel : Bytes) (fd : ℤ),
      fd ∈ (run events (start config replid : Server F)).store.subscribersOf channel ↔
        ∃ client, (run events (start config replid : Server F)).clients[fd]? = some client ∧
          channel ∈ client.subscriptions) ∧
    (run events (start config replid : Server F)).store.NoEmptyChannel ∧
    ∀ (fd : ℤ) (client : ClientState) (data : Keyspace F) (clock : ℕ → Readings)
      (queue : List (List Bytes)) (name channel text : Bytes),
      (run events (start config replid : Server F)).clients[fd]? = some client →
      let r := execQueue clock queue
        { (run events (start config replid : Server F)).store with toKeyspace := data }
        client.leaveMulti
      let clients := (run events (start config replid : Server F)).clients.insert fd r.2.2
      ∃ fds : List ℤ, fds.Nodup ∧
        (∀ fd', fd' ∈ fds ↔
          ∃ client', clients[fd']? = some client' ∧ channel ∈ client'.subscriptions) ∧
        (r.2.1.handlePublish [name, channel, text]).1 = (integer fds.length).toBytes ∧
        (r.2.1.handlePublish [name, channel, text]).2.pendingMessages =
          r.2.1.pendingMessages ++
            fds.map fun fd' => (fd', (array [ascii "message", channel, text]).toBytes) := by
  have hstart : (boot config replid none : Server F).Agrees := agrees_start config replid
  have h : (run events (start config replid : Server F)).Agrees :=
    (stable_agrees.holds_run hstart events).holds
  refine ⟨h.subscribers, h.noEmpty, fun fd client data clock queue name channel text hc => ?_⟩
  intro r clients
  have hleave : Resubscribes (run events (start config replid : Server F)).store
      { (run events (start config replid : Server F)).store with toKeyspace := data } client
      client.leaveMulti := .of_eq rfl rfl rfl
  have hr : Resubscribes (run events (start config replid : Server F)).store r.2.1 client r.2.2 :=
    hleave.trans (resubscribes_execQueue clock queue _ _)
  have h' : ({ run events (start config replid : Server F) with
      store := r.2.1, clients }).Agrees := h.insert hc hr rfl rfl
  refine ⟨(r.2.1.subscribersOf channel).toList, ?_, fun fd' => ?_, ?_, ?_⟩
  · exact Std.ExtTreeSet.distinct_toList.imp fun hne he => hne (Std.compare_eq_iff_eq.mpr he)
  · rw [Std.ExtTreeSet.mem_toList]
    exact h'.subscribers channel fd'
  · rw [Store.handlePublish_eq, Std.ExtTreeSet.length_toList]
  · rw [Store.handlePublish_eq]

def subscribing : List (Env × Event) :=
  [(.still, .accept 5), (.still, .accept 6),
    asks 6 [ascii "SUBSCRIBE", ascii "c", ascii "c", ascii "d"] (by decide)]

theorem subscriptions_agree_subscribing :
    (∃ client, (run subscribing (start {} .zeros : Server Whole)).clients[(5 : ℤ)]? =
      some client) ∧
    ∃ fds : List ℤ, fds.Nodup ∧ 6 ∈ fds ∧ 5 ∉ fds ∧
      ((run subscribing (start {} .zeros : Server Whole)).store.handlePublish
        [ascii "PUBLISH", ascii "c", ascii "hi"]).1 = (integer fds.length).toBytes := by
  obtain ⟨client, hc⟩ : ∃ client,
      (run subscribing (start {} .zeros : Server Whole)).clients[(5 : ℤ)]? = some client := ⟨_, rfl⟩
  obtain ⟨hsub, -, hpub⟩ := subscriptions_agree (F := Whole) {} .zeros subscribing
  obtain ⟨fds, hnodup, hmem, hreply, -⟩ := hpub 5 client
    (run subscribing (start {} .zeros : Server Whole)).store.toKeyspace (fun _ _ => ⟨0, 0⟩) []
    (ascii "PUBLISH") (ascii "c") (ascii "hi") hc
  refine ⟨⟨client, hc⟩, fds, hnodup, (hmem 6).mpr ?_, fun h => ?_, hreply⟩
  · obtain ⟨client', hc', hm⟩ := (hsub (ascii "c") 6).mp (by decide)
    refine ⟨client', ?_, hm⟩
    rw [Std.ExtTreeMap.getElem?_insert, if_neg (by decide)]
    exact hc'
  · obtain ⟨client', hc', hm⟩ := (hmem 5).mp h
    rw [Std.ExtTreeMap.getElem?_insert_self] at hc'
    cases hc'
    have hnone : 5 ∉ (run subscribing (start {} .zeros : Server Whole)).store.subscribersOf
      (ascii "c") := by decide
    exact hnone ((hsub (ascii "c") 5).mpr ⟨client, hc, hm⟩)

end Server

end TrueStore
