import TrueStore.Server.Links
import TrueStore.Server.Unauthenticated
import TrueStore.Aof.Recovery

/-! # The stream and its items

The stream consists of writes and of requests for acknowledgements. A request that changes nothing,
such as the `PSYNC` of a replica, is answered and otherwise leaves its connection alone.
-/

namespace TrueStore.Server

open RespType

variable {F : Type} [Platform F]

def getack : List Bytes := [ascii "REPLCONF", ascii "GETACK", ascii "*"]

/-- What the replicas are sent: a write, or the request for an acknowledgement. -/
def Streamable (P : List Bytes → Prop) (args : List Bytes) : Prop :=
  isWriteCommand (upperName args) = true ∧ P args ∨ args = getack

def Streams (P : List Bytes → Prop) (s s' : Server F) : Prop :=
  ∃ items, s'.stream = s.stream ++ items ∧ ∀ p ∈ items, Streamable P p.args

section Streams

variable {P : List Bytes → Prop} {s s₁ s₂ : Server F}

theorem Streams.trans (h : Streams P s s₁) (h' : Streams P s₁ s₂) : Streams P s s₂ := by
  obtain ⟨items, hstream, hitems⟩ := h
  obtain ⟨items', hstream', hitems'⟩ := h'
  refine ⟨items ++ items', by rw [hstream', hstream, List.append_assoc], fun p hp => ?_⟩
  exact (List.mem_append.mp hp).elim (hitems p) (hitems' p)

theorem Streams.of_eq (h : s₁.stream = s.stream) : Streams P s s₁ := ⟨[], by simp [h], by simp⟩

theorem streams_respond (env : Env) (fd : ℤ) (reply : Bytes) (s : Server F) :
    Streams P s (s.respond env fd reply).2 := by
  unfold respond
  split
  · unfold block
    split
    · dsimp only
      split
      · exact .of_eq rfl
      · refine ⟨[⟨none, getack⟩], ?_, by simp [Streamable]⟩
        exact (frame_sendToReplicas (P := P) env none getack _).stream
    · exact .of_eq rfl
  · split
    · exact .of_eq rfl
    · dsimp only
      split <;> exact .of_eq rfl

theorem streams_command (hP : PopClosed P) {args : List Bytes} (ha : P args) (hs : s.Settled P)
    (env : Env) (fd : ℤ) : Streams P s (s.command env fd args) := by
  unfold command
  split
  · exact .of_eq rfl
  rename_i client hclient
  split
  · exact .of_eq ((frame_acknowledge (P := P) fd _ s).stream.trans (List.append_nil _))
  have hget : s.clients.getD fd {} = client := by
    simp [Std.ExtTreeMap.getD_eq_getD_getElem?, hclient]
  have hclock : ∀ i, Always (env.clock 0 i) := fun _ => trivial
  obtain ⟨calls, hr⟩ := ran_handle hP ha hs hclock fd
  rw [hget] at hr
  set r := s.handle env 0 fd args
  have hreg := frame_register (P := P) fd args client.inMulti r.1 r.2
  obtain ⟨bytes, -, hpub⟩ := frame_publish (P := P) env fd args client r.1
    (r.2.register fd args client.inMulti r.1)
  rw [hreg.pending, ← hr.logged] at hpub
  have hpublished : Streams P s ((r.2.register fd args client.inMulti r.1).publish env fd args
      client.inMulti r.1) := by
    have hsame : (r.2.register fd args client.inMulti r.1).stream = s.stream :=
      hreg.stream.trans (List.append_nil _)
    refine ⟨(loggedArgs calls).map (⟨some fd, ·⟩), hpub.stream.trans ?_, fun p hp => ?_⟩
    · exact congrArg (· ++ _) hsame
    · obtain ⟨a, hmem, rfl⟩ := List.mem_map.mp hp
      refine .inl ⟨isWriteCommand_of_mem_loggedArgs hmem, ?_⟩
      obtain ⟨c, hc, rfl⟩ := List.mem_map.mp hmem
      exact (hr.fits c (List.mem_filter.mp hc).1).args
  have hresp := hpublished.trans (streams_respond env fd r.1 _)
  dsimp only
  split
  · exact hresp.trans (.of_eq ((frame_finish (P := P) env fd _).stream.trans (List.append_nil _)))
  · exact hresp

theorem streams_serveWaiter {w : Waiter}
    (hw : w.kind = .list → ∀ key ∈ w.keys, P [ascii "LPOP", key]) (hs : s.Settled P) (env : Env) :
    Streams P s (s.serveWaiter env w).2 := by
  unfold serveWaiter
  split
  · split <;> exact .of_eq rfl
  · rename_i hkind
    split
    · exact .of_eq rfl
    · rename_i key value store hpop
      obtain ⟨hmem, rest, -, rfl⟩ := Store.tryBlpop_eq_some hpop
      have hpending : (s.store.popped key rest).pendingPropagations = [[ascii "LPOP", key]] := by
        simp [Store.popped, Store.queuePropagation, hs.pending]
      dsimp only
      rw [hpending]
      refine ⟨[⟨some w.fd, [ascii "LPOP", key]⟩],
        (frame_propagate (P := P) env w.fd [ascii "LPOP", key] _).stream, ?_⟩
      rintro p hp
      rw [List.mem_singleton.mp hp]
      exact .inl ⟨isWriteCommand_lpop key, hw hkind key hmem⟩
  · split <;> exact .of_eq rfl

theorem streams_serveAll (env : Env) {ws : List Waiter}
    (hw : ∀ w ∈ ws, w.kind = .list → ∀ key ∈ w.keys, P [ascii "LPOP", key]) (hs : s.Settled P) :
    Streams P s (serveAll env ws s).2 := by
  induction ws generalizing s with
  | nil => exact .of_eq rfl
  | cons w ws ih =>
    have hone := accounted_serveWaiter (T := Always) (hw w List.mem_cons_self) hs env
    exact (streams_serveWaiter (hw w List.mem_cons_self) hs env).trans
      (ih (fun w' h => hw w' (List.mem_cons_of_mem _ h)) hone.settled)

theorem streams_step (hP : PopClosed P) (hs : s.Settled P) (env : Env) {event : Event}
    (he : event.Carries P) (hl : event.isLocal = true) : Streams P s (s.step env event) := by
  unfold step
  split
  · exact .of_eq rfl
  · cases event with
    | accept fd => exact .of_eq ((frame_accept (P := P) fd s).stream.trans (List.append_nil _))
    | request fd r =>
      dsimp only
      split
      · exact .of_eq rfl
      · exact streams_command hP he hs env fd
    | hangup fd =>
      dsimp only
      split <;> exact .of_eq rfl
    | chunk bytes => cases hl
    | masterClosed => cases hl
    | round =>
      have hexpire := frame_expireAll (P := P) env (s.serveWaiters env).waiters (s.serveWaiters env)
      exact (streams_serveAll env hs.asks.keys hs).trans
        (.of_eq (hexpire.stream.trans (List.append_nil _)))

end Streams

section Idle

variable {P : List Bytes → Prop} {s : Server F} {peer : ℤ} {client : ClientState}
  {args : List Bytes} {reply : Bytes} {env : Env}

def answered (env : Env) (peer : ℤ) (args : List Bytes) (inMulti : Bool) (s : Server F) :
    Server F :=
  (s.handle env 0 peer args).2.register peer args inMulti (s.handle env 0 peer args).1

/-- A request that changes neither the store nor its client is only answered. -/
theorem command_idle (hclient : s.clients[peer]? = some client)
    (hack : s.ackText args client = none)
    (hr : handleCommand (env.clock 0) args s.store client = (reply, s.store, client))
    (hs : s.Settled P) (hw : isWriteCommand (upperName args) = false) (hreply : reply ≠ [])
    (hclose : client.closeAfterReply = false) (ha : s.Apart peer) :
    (s.command env peer args).stream = s.stream ∧
      ∃ new, (s.command env peer args).sends = s.sends ++ new ∧
        (Lossless peer new → payloadsTo peer new = [reply] ∧
          Spares peer (s.answered env peer args client.inMulti) (s.command env peer args)) := by
  have hget : s.clients.getD peer {} = client := by
    simp [Std.ExtTreeMap.getD_eq_getD_getElem?, hclient]
  have hfst : (s.handle env 0 peer args).1 = reply := by simp [handle, hget, hr]
  set s₀ := s.answered env peer args client.inMulti with hs₀
  have hreg := frame_register (P := P) peer args client.inMulti (s.handle env 0 peer args).1
    (s.handle env 0 peer args).2
  have hstore : s₀.store = s.store ∧ s₀.sends = s.sends ∧ s₀.waiters = s.waiters ∧
      s₀.clients = s.clients.insert peer client := by
    rw [hs₀]
    unfold answered register
    split <;> simp [handle, hget, hr]
  have hstream : s₀.stream = s.stream := hreg.stream.trans (List.append_nil _)
  obtain ⟨hst, hsends, hwait, hclients⟩ := hstore
  have ha₀ : s₀.Apart peer :=
    ⟨by rw [hwait]; exact ha.waiting, by rw [hst]; exact ha.messages,
      by rw [hst]; exact ha.subscribed⟩
  have hpub : s₀.publish env peer args client.inMulti reply = s₀ :=
    publish_of_quiet env peer client.inMulti (by rw [hst]; exact hs.pending) (by simp [hw])
  have hresp : s₀.respond env peer reply =
      if (s₀.send env peer reply .reply).1 then s₀.send env peer reply .reply
      else (false, (s₀.send env peer reply .reply).2.closeClient peer) := by
    unfold respond
    rw [hst, hs.block]
    simp only [if_neg hreply]
  have hcommand : s.command env peer args =
      if (s₀.respond env peer reply).1 then (s₀.respond env peer reply).2.finish env peer
      else (s₀.respond env peer reply).2 := by
    unfold command
    simp only [hclient, hack, hfst]
    rw [hs₀] at hpub ⊢
    unfold answered at hpub ⊢
    rw [hfst] at hpub ⊢
    rw [hpub]
  rw [hcommand, hresp]
  by_cases hok : (s₀.send env peer reply .reply).1 = true
  · rw [if_pos hok, if_pos hok]
    set s₁ := (s₀.send env peer reply .reply).2 with hs₁
    have ha₁ : s₁.Apart peer := ⟨ha₀.waiting, ha₀.messages, ha₀.subscribed⟩
    obtain ⟨items, new, hitems, hnew, hfeed⟩ := Feeds.deliverMessages env ha₁
    have hnone : items = [] := by
      have h := (frame_deliverMessages (P := P) env s₁).stream
      rw [hitems] at h
      exact List.append_cancel_left h
    -- closing the connection would neither send nor stream anything
    have hsame : (s₁.finish env peer).stream = (s₁.deliverMessages env).stream ∧
        (s₁.finish env peer).sends = (s₁.deliverMessages env).sends := by
      unfold finish
      dsimp only
      split <;> exact ⟨rfl, rfl⟩
    refine ⟨?_, ⟨peer, reply, .reply, env.sendOk s₀.sends.length⟩ :: new, ?_, fun hl => ?_⟩
    · rw [hsame.1, hitems, hnone, List.append_nil]
      exact hstream
    · rw [hsame.2, hnew, ← hsends]
      simp [hs₁, send]
    · have hl' : Lossless peer new := fun m hm => hl m (List.mem_cons_of_mem _ hm)
      obtain ⟨hspares, hpayloads⟩ := hfeed hl' ha₁
      have hkept : ((s₁.deliverMessages env).clients.getD peer {}).closeAfterReply = false := by
        rw [Std.ExtTreeMap.getD_eq_getD_getElem?, hspares.client]
        simp [hs₁, send, hclients, hclose]
      have hfinish : s₁.finish env peer = s₁.deliverMessages env := by
        unfold finish
        simp only [hkept, Bool.false_eq_true, if_false]
      refine ⟨?_, ?_⟩
      · have hfirst : payloadsTo peer [(⟨peer, reply, .reply, env.sendOk s₀.sends.length⟩ : Sent)] =
            [reply] := payloadsTo_self rfl
        rw [← List.singleton_append, payloadsTo_append, hfirst, hpayloads, hnone]
        simp
      · rw [hfinish]
        exact ⟨hspares.apart, hspares.client, hspares.replica, hspares.masterFd, hspares.buffer,
          hspares.offset, hspares.halted⟩
  · rw [if_neg hok]
    refine ⟨hstream, [⟨peer, reply, .reply, env.sendOk s₀.sends.length⟩], ?_, fun hl => ?_⟩
    · rw [← hsends]
      rfl
    · exact absurd (hl _ List.mem_cons_self rfl) hok

end Idle

end TrueStore.Server
