import TrueStore.Server.Connections
import TrueStore.Server.Sending

/-! # Requests and their answers

The loop runs a request, writes it to the log and to the replicas, and only then answers it. Both
halves leave the waiting clients alone, except that a request which blocks adds one.
-/

namespace TrueStore.Server

open RespType

variable {F : Type} [Platform F]

theorem waiters_sendToAll (env : Env) (payload : Bytes) (fds : List ℤ) (s : Server F) :
    (sendToAll env payload fds s).waiters = s.waiters := by
  induction fds generalizing s with
  | nil => rfl
  | cons fd fds ih =>
    unfold sendToAll
    dsimp only
    rw [ih]
    split <;> rfl

theorem waiters_propagateAll (env : Env) (fd : ℤ) (queue : List (List Bytes)) (s : Server F) :
    (propagateAll env fd queue s).waiters = s.waiters := by
  induction queue generalizing s with
  | nil => rfl
  | cons args queue ih =>
    unfold propagateAll
    rw [ih]
    exact waiters_sendToAll _ _ _ _

theorem waiters_appendAll (queue : List (List Bytes)) (s : Server F) :
    (queue.foldl (fun s args => s.append args) s).waiters = s.waiters := by
  induction queue generalizing s with
  | nil => rfl
  | cons args queue ih => exact ih (s.append args)

theorem waiters_publish (env : Env) (fd : ℤ) (args : List Bytes) (inMulti : Bool) (reply : Bytes)
    (s : Server F) : (s.publish env fd args inMulti reply).waiters = s.waiters := by
  have hlog : (s.logOwn args inMulti reply).waiters = s.waiters := by
    unfold logOwn
    split <;> rfl
  have hown : (if !inMulti && isWriteCommand (upperName args) && !isError reply then
      (s.logOwn args inMulti reply).propagate env fd args
      else s.logOwn args inMulti reply).waiters = s.waiters := by
    split
    · exact (waiters_sendToAll _ _ _ _).trans hlog
    · exact hlog
  have hpending : ∀ s : Server F, (s.logPending inMulti).waiters = s.waiters := by
    intro s
    unfold logPending
    cases inMulti
    · exact waiters_appendAll _ s
    · rfl
  unfold publish
  dsimp only
  rw [waiters_propagateAll]
  exact (hpending _).trans hown

theorem mem_clients_propagateAll (env : Env) {fd : ℤ} (queue : List (List Bytes)) {s : Server F}
    (hfd : fd ∈ s.clients) (fd' : ℤ) :
    fd' ∈ (propagateAll env fd queue s).clients ↔ fd' ∈ s.clients := by
  have hone : ∀ (args : List Bytes) {s : Server F}, fd ∈ s.clients → ∀ fd',
      fd' ∈ (s.propagate env fd args).clients ↔ fd' ∈ s.clients := by
    intro args s hfd fd'
    rw [propagate, mem_clients_insert, sendToReplicas, clients_sendToAll]
    exact or_iff_right_of_imp fun he => he ▸ hfd
  induction queue generalizing s with
  | nil => exact Iff.rfl
  | cons args queue ih => exact (ih ((hone args hfd fd).mpr hfd)).trans (hone args hfd fd')

theorem clients_logPending (inMulti : Bool) (s : Server F) :
    (s.logPending inMulti).clients = s.clients := by
  have happend : ∀ (queue : List (List Bytes)) (s : Server F),
      (queue.foldl (fun s args => s.append args) s).clients = s.clients := by
    intro queue
    induction queue with
    | nil => exact fun s => rfl
    | cons args queue ih => exact fun s => ih (s.append args)
  unfold logPending
  cases inMulti
  · exact happend _ s
  · rfl

theorem mem_clients_publish (env : Env) {fd : ℤ} (args : List Bytes) (inMulti : Bool)
    (reply : Bytes) {s : Server F} (hfd : fd ∈ s.clients) (fd' : ℤ) :
    fd' ∈ (s.publish env fd args inMulti reply).clients ↔ fd' ∈ s.clients := by
  have hlog : (s.logOwn args inMulti reply).clients = s.clients := by
    unfold logOwn
    split <;> rfl
  have hown : ∀ fd', fd' ∈ (if !inMulti && isWriteCommand (upperName args) && !isError reply then
      (s.logOwn args inMulti reply).propagate env fd args
      else s.logOwn args inMulti reply).clients ↔ fd' ∈ s.clients := by
    intro fd'
    split
    · exact (mem_clients_propagateAll env [args] (by rwa [hlog]) fd').trans (by rw [hlog])
    · rw [hlog]
  unfold publish
  dsimp only
  rw [mem_clients_propagateAll, clients_logPending, hown]
  rw [clients_logPending]
  exact (hown fd).mpr hfd

theorem waiters_register (fd : ℤ) (args : List Bytes) (inMulti : Bool) (reply : Bytes)
    (s : Server F) : (s.register fd args inMulti reply).waiters = s.waiters := by
  unfold register
  split <;> rfl

theorem waiters_deliverAll (env : Env) (messages : List (ℤ × Bytes)) (s : Server F) :
    (deliverAll env messages s).waiters.Sublist s.waiters := by
  induction messages generalizing s with
  | nil => exact List.Sublist.refl _
  | cons m messages ih =>
    unfold deliverAll
    dsimp only
    split
    · refine (ih _).trans ?_
      split
      · exact List.Sublist.refl _
      · exact List.filter_sublist
    · exact ih s

theorem waiters_finish (env : Env) (fd : ℤ) (s : Server F) :
    (s.finish env fd).waiters.Sublist s.waiters := by
  have h : (s.deliverMessages env).waiters.Sublist s.waiters := waiters_deliverAll env _ _
  unfold finish
  dsimp only
  split
  · exact List.filter_sublist.trans h
  · exact h

/-- The server when a request has been run, logged and propagated, and is still to be answered. -/
structure Ready (s t : Server F) (r : Bytes × Store F × ClientState) (calls : List (Call F)) :
    Prop where
  answers : t.answers = s.answers
  waiters : t.waiters = s.waiters
  clients : ∀ fd, fd ∈ t.clients ↔ fd ∈ s.clients
  calls : t.calls = s.calls ++ calls
  data : t.store.toKeyspace = r.2.1.toKeyspace
  block : t.store.pendingBlock = r.2.1.pendingBlock

theorem command_ready (env : Env) {fd : ℤ} {args : List Bytes} {s : Server F} {client : ClientState}
    (hclient : s.clients[fd]? = some client) (hack : s.ackText args client = none) :
    ∃ t, Ready s t (handleCommand (env.clock 0) args s.store client)
        (commandCalls (env.clock 0) args s.store client) ∧
      s.command env fd args =
        let u := t.respond env fd (handleCommand (env.clock 0) args s.store client).1
        if u.1 then u.2.finish env fd else u.2 := by
  have hget : s.clients.getD fd {} = client := by
    simp [Std.ExtTreeMap.getD_eq_getD_getElem?, hclient]
  set r := s.handle env 0 fd args with hr
  have hreply : r.1 = (handleCommand (env.clock 0) args s.store client).1 := by
    rw [hr, handle, hget]
  have hstore : r.2.store = (handleCommand (env.clock 0) args s.store client).2.1 := by
    rw [hr, handle, hget]
  have hcalls : r.2.calls = s.calls ++ commandCalls (env.clock 0) args s.store client := by
    rw [hr, handle, hget]
  set t := (r.2.register fd args client.inMulti r.1).publish env fd args client.inMulti r.1 with ht
  have hsends : Sends (· = .stream) r.2 t :=
    (Sends.register fd args client.inMulti r.1 r.2).trans (.publish env fd args client.inMulti r.1 _)
  obtain ⟨_, -, hframe⟩ := frame_publish (P := Anything) env fd args client r.1
    (r.2.register fd args client.inMulti r.1)
  have hregister := frame_register (P := Anything) fd args client.inMulti r.1 r.2
  have hfd : fd ∈ s.clients := by
    rw [Std.ExtTreeMap.mem_iff_isSome_getElem?, hclient]
    rfl
  have hregister' : (r.2.register fd args client.inMulti r.1).clients = r.2.clients := by
    unfold register
    split <;> rfl
  have hopen : ∀ fd', fd' ∈ r.2.clients ↔ fd' ∈ s.clients := fun fd' =>
    mem_clients_insert.trans (or_iff_right_of_imp fun he => he ▸ hfd)
  refine ⟨t, ⟨hsends.answers_of_stream, ?_, fun fd' => ?_, hsends.calls.trans hcalls, ?_, ?_⟩, ?_⟩
  · rw [ht, waiters_publish, waiters_register]
    rfl
  · rw [ht, mem_clients_publish, hregister', hopen]
    rw [hregister', hopen]
    exact hfd
  · rw [← hstore]
    exact hframe.data.trans hregister.data
  · rw [← hstore]
    exact hframe.block.trans hregister.block
  · unfold command
    simp only [hclient, hack, ← hr, ← hreply, ← ht]

/-- How a request is answered: it blocks, it has no reply, or one payload is sent. -/
theorem respond_cases (env : Env) (fd : ℤ) (reply : Bytes) (t : Server F) :
    (t.respond env fd reply).2.store.toKeyspace = t.store.toKeyspace ∧
    (t.respond env fd reply).2.calls = t.calls ∧
    ((∃ b ws, t.store.pendingBlock = some b ∧ (t.respond env fd reply).2.answers = t.answers ∧
        (t.respond env fd reply).2.waiters = t.waiters ++ ws ∧ (∀ w ∈ ws, w.fd = fd) ∧
        (b.kind = .stream → ws =
          [⟨fd, .stream, b.keys, b.ids, b.count, deadlineAfter env b.timeout, 0⟩])) ∨
      (t.store.pendingBlock = none ∧ reply = [] ∧ t.respond env fd reply = (true, t)) ∨
      (t.store.pendingBlock = none ∧ (t.respond env fd reply).2.waiters.Sublist t.waiters ∧
        (t.respond env fd reply).2.answers =
          t.answers ++ [⟨fd, reply, .reply, env.sendOk t.sends.length⟩])) := by
  unfold respond
  split
  · rename_i b hb
    have hsends := Sends.block env fd b { t with store := { t.store with pendingBlock := none } }
    have hdata : ∀ s : Server F, (s.block env fd b).store.toKeyspace = s.store.toKeyspace := by
      intro s
      unfold block
      split
      · dsimp only
        split
        · rfl
        · exact (frame_sendToReplicas (P := Anything) env none _ s).data
      · rfl
    refine ⟨hdata _, hsends.calls, .inl ?_⟩
    dsimp only
    have hanswers := hsends.answers_of_replication
    unfold block at hanswers ⊢
    split
    · rename_i hk
      rw [hk] at hanswers
      dsimp only at hanswers ⊢
      split
      · rename_i hnow
        rw [if_pos hnow] at hanswers
        refine ⟨b, [], hb, hanswers, by simp [sendAcked, send], by simp, fun h => ?_⟩
        rw [hk] at h
        cases h
      · rename_i hnow
        rw [if_neg hnow] at hanswers
        refine ⟨b, [⟨fd, .wait, [], [], b.count, deadlineAfter env b.timeout,
          (t.clients.getD fd {}).replOffset⟩], hb, hanswers, ?_, by simp, fun h => ?_⟩
        · rw [sendToReplicas, waiters_sendToAll]
        · rw [hk] at h
          cases h
    · refine ⟨b, [⟨fd, b.kind, b.keys, b.ids, b.count, deadlineAfter env b.timeout, 0⟩], hb, rfl, rfl,
        by simp, fun h => ?_⟩
      rw [h]
  · rename_i hb
    split
    · rename_i hnil
      exact ⟨rfl, rfl, .inr (.inl ⟨hb, hnil, rfl⟩)⟩
    · have hanswers : (t.send env fd reply .reply).2.answers =
          t.answers ++ [⟨fd, reply, .reply, env.sendOk t.sends.length⟩] := answers_send rfl t
      dsimp only
      split
      · exact ⟨rfl, rfl, .inr (.inr ⟨hb, List.Sublist.refl _, hanswers⟩)⟩
      · exact ⟨rfl, rfl, .inr (.inr ⟨hb, List.filter_sublist, hanswers⟩)⟩

theorem data_propagatePopped (env : Env) (fd : ℤ) (queue : List (List Bytes)) (s : Server F) :
    (queue.foldl (fun s args => (s.append args).propagate env fd args) s).store.toKeyspace =
      s.store.toKeyspace := by
  induction queue generalizing s with
  | nil => rfl
  | cons args queue ih =>
    rw [List.foldl_cons, ih]
    exact (frame_propagate (P := Anything) env fd args (s.append args)).data

end TrueStore.Server
