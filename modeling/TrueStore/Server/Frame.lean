import TrueStore.Server.Basic

/-! # What the event loop leaves alone

Most of the event loop is about connections: it sends, logs, forgets a client or moves the
replication offset. None of this touches the data or what the commands left to do.
-/

namespace TrueStore

variable {F : Type} [Platform F]

def streamBytes (items : List Propagation) : Bytes := items.flatMap fun p => encode p.args

theorem streamBytes_append (items items' : List Propagation) :
    streamBytes (items ++ items') = streamBytes items ++ streamBytes items' := by
  simp [streamBytes]

namespace Server

structure Asking (P : List Bytes → Prop) (s : Server F) : Prop where
  queue : ∀ (fd : ℤ) (client : ClientState), s.clients[fd]? = some client →
    ∀ args ∈ client.queued, P args
  keys : ∀ w ∈ s.waiters, w.kind = .list → ∀ key ∈ w.keys, P [ascii "LPOP", key]

/-- The loop passes items to the replicas, adds bytes to the log and leaves the data alone. -/
structure Frame (P : List Bytes → Prop) (items : List Propagation) (bytes : Bytes)
    (s s' : Server F) : Prop where
  data : s'.store.toKeyspace = s.store.toKeyspace
  block : s'.store.pendingBlock = s.store.pendingBlock
  pending : s'.store.pendingPropagations = s.store.pendingPropagations
  calls : s'.calls = s.calls
  aof : s'.aof = if s.aofOpen then s.aof ++ bytes else s.aof
  aofOpen : s'.aofOpen = s.aofOpen
  masterFd : s'.masterFd = s.masterFd
  stream : s'.stream = s.stream ++ items
  offset : s'.store.masterReplOffset = s.store.masterReplOffset + (streamBytes items).length
  asks : s.Asking P → s'.Asking P

namespace Frame

variable {P : List Bytes → Prop} {s s₁ s₂ : Server F} {items items' : List Propagation}
  {bytes bytes' : Bytes}

theorem refl (s : Server F) : Frame P [] [] s s :=
  ⟨rfl, rfl, rfl, rfl, by simp, rfl, rfl, by simp, by simp [streamBytes], fun h => h⟩

theorem trans (h : Frame P items bytes s s₁) (h' : Frame P items' bytes' s₁ s₂) :
    Frame P (items ++ items') (bytes ++ bytes') s s₂ where
  data := h'.data.trans h.data
  block := h'.block.trans h.block
  pending := h'.pending.trans h.pending
  calls := h'.calls.trans h.calls
  aof := by
    rw [h'.aof, h.aof, h.aofOpen]
    split
    · rw [List.append_assoc]
    · rfl
  aofOpen := h'.aofOpen.trans h.aofOpen
  masterFd := h'.masterFd.trans h.masterFd
  stream := by rw [h'.stream, h.stream, List.append_assoc]
  offset := by
    rw [h'.offset, h.offset, streamBytes_append, List.length_append]
    push_cast
    ring
  asks hs := h'.asks (h.asks hs)

theorem andThen (h : Frame P items bytes s s₁) (h' : Frame P [] [] s₁ s₂) :
    Frame P items bytes s s₂ := by
  simpa using h.trans h'

end Frame

section Asking

variable {P : List Bytes → Prop} {s s' : Server F}

theorem Asking.congr (h : s.Asking P) (hc : s'.clients = s.clients) (hw : s'.waiters = s.waiters) :
    s'.Asking P :=
  ⟨hc ▸ h.queue, hw ▸ h.keys⟩

theorem Asking.insert (h : s.Asking P) (fd : ℤ) {client : ClientState}
    (hc : s'.clients = s.clients.insert fd client) (hq : ∀ args ∈ client.queued, P args)
    (hw : ∀ w ∈ s'.waiters, w ∈ s.waiters) : s'.Asking P where
  queue fd' client' h' := by
    rw [hc, Std.ExtTreeMap.getElem?_insert] at h'
    split at h'
    · cases h'
      exact hq
    · exact h.queue fd' client' h'
  keys w hm := h.keys w (hw w hm)

theorem Asking.getD (h : s.Asking P) (fd : ℤ) : ∀ args ∈ (s.clients.getD fd {}).queued, P args := by
  rw [Std.ExtTreeMap.getD_eq_getD_getElem?]
  cases hc : s.clients[fd]? with
  | none => exact fun args ha => by cases ha
  | some client => exact h.queue fd client hc

theorem Asking.closeClient (h : s.Asking P) (fd : ℤ) : (s.closeClient fd).Asking P where
  queue fd' client h' := by
    simp only [Server.closeClient, Std.ExtTreeMap.getElem?_erase] at h'
    split at h'
    · cases h'
    · exact h.queue fd' client h'
  keys w hm := h.keys w (List.mem_of_mem_filter hm)

end Asking

variable {P : List Bytes → Prop}

theorem frame_send (env : Env) (fd : ℤ) (payload : Bytes) (purpose : Purpose) (s : Server F) :
    Frame P [] [] s (s.send env fd payload purpose).2 :=
  ⟨rfl, rfl, rfl, rfl, by simp [send], rfl, rfl, by simp [send], by simp [send, streamBytes],
    fun h => h.congr rfl rfl⟩

theorem frame_sendAcked (env : Env) (fd target : ℤ) (s : Server F) :
    Frame P [] [] s (s.sendAcked env fd target) :=
  frame_send env fd _ _ s

theorem frame_replicas (s : Server F) (replicas : Std.ExtTreeMap ℤ ℤ) :
    Frame P [] [] s { s with replicas } :=
  ⟨rfl, rfl, rfl, rfl, by simp, rfl, rfl, by simp, by simp [streamBytes], fun h => h.congr rfl rfl⟩

theorem frame_closeClient (fd : ℤ) (s : Server F) : Frame P [] [] s (s.closeClient fd) :=
  ⟨rfl, rfl, rfl, rfl, by simp [closeClient], rfl, rfl, by simp [closeClient],
    by simp [closeClient, streamBytes, Store.removeSubscriber], fun h => h.closeClient fd⟩

theorem frame_deliverAll (env : Env) (messages : List (ℤ × Bytes)) (s : Server F) :
    Frame P [] [] s (deliverAll env messages s) := by
  induction messages generalizing s with
  | nil => exact .refl s
  | cons m messages ih =>
    obtain ⟨recipient, message⟩ := m
    simp only [deliverAll]
    split
    · refine .andThen ?_ (ih _)
      split
      · exact frame_send ..
      · exact (frame_send ..).andThen (frame_closeClient ..)
    · exact ih s

theorem frame_deliverMessages (env : Env) (s : Server F) : Frame P [] [] s (s.deliverMessages env) := by
  have h : Frame P [] [] s { s with store := { s.store with pendingMessages := [] } } :=
    ⟨rfl, rfl, rfl, rfl, by simp, rfl, rfl, by simp, by simp [streamBytes], fun h => h.congr rfl rfl⟩
  exact h.andThen (frame_deliverAll ..)

theorem frame_sendToAll (env : Env) (payload : Bytes) (fds : List ℤ) (s : Server F) :
    Frame P [] [] s (sendToAll env payload fds s) := by
  induction fds generalizing s with
  | nil => exact .refl s
  | cons fd fds ih =>
    refine .andThen ?_ (ih _)
    split
    · exact frame_send ..
    · exact (frame_send ..).andThen (frame_replicas ..)

theorem frame_sendToReplicas (env : Env) (client : Option ℤ) (args : List Bytes) (s : Server F) :
    Frame P [⟨client, args⟩] [] s (s.sendToReplicas env client args) := by
  have h : Frame P [⟨client, args⟩] [] s { s with
      store := { s.store with
        masterReplOffset := s.store.masterReplOffset + (encode args).length }
      stream := s.stream ++ [⟨client, args⟩] } :=
    ⟨rfl, rfl, rfl, rfl, by simp, rfl, rfl, rfl, by simp [streamBytes], fun h => h.congr rfl rfl⟩
  exact h.andThen (frame_sendToAll ..)

theorem frame_append (args : List Bytes) (s : Server F) : Frame P [] (encode args) s (s.append args) :=
  ⟨rfl, rfl, rfl, rfl, rfl, rfl, rfl, by simp [append], by simp [append, streamBytes],
    fun h => h.congr rfl rfl⟩

theorem frame_appendAll (queue : List (List Bytes)) (s : Server F) :
    Frame P [] (queue.flatMap encode) s (queue.foldl (fun s args => s.append args) s) := by
  induction queue generalizing s with
  | nil => exact .refl s
  | cons args queue ih => exact (frame_append args s).trans (ih _)

theorem frame_appendTransaction (queue : List (List Bytes)) (s : Server F) :
    Frame P [] (if queue = [] then [] else transactionBytes queue) s (s.appendTransaction queue) := by
  refine ⟨rfl, rfl, rfl, rfl, ?_, rfl, rfl, by simp [appendTransaction],
    by simp [appendTransaction, streamBytes], fun h => h.congr rfl rfl⟩
  simp only [appendTransaction]
  by_cases hq : queue = [] <;> cases s.aofOpen <;> simp [hq]

theorem frame_propagate (env : Env) (fd : ℤ) (args : List Bytes) (s : Server F) :
    Frame P [⟨some fd, args⟩] [] s (s.propagate env fd args) :=
  .andThen (frame_sendToReplicas env (some fd) args s)
    ⟨rfl, rfl, rfl, rfl, by simp [propagate], rfl, rfl, by simp [propagate],
      by simp [propagate, streamBytes],
      fun h => h.insert fd rfl (h.getD fd) fun _ hw => hw⟩

theorem frame_propagateAll (env : Env) (fd : ℤ) (queue : List (List Bytes)) (s : Server F) :
    Frame P (queue.map (⟨some fd, ·⟩)) [] s (propagateAll env fd queue s) := by
  induction queue generalizing s with
  | nil => exact .refl s
  | cons args queue ih => exact (frame_propagate env fd args s).trans (ih _)

theorem frame_expireAll (env : Env) (ws : List Waiter) (s : Server F) :
    Frame P [] [] s (expireAll env ws s) := by
  induction ws generalizing s with
  | nil => exact .refl s
  | cons w ws ih =>
    simp only [expireAll]
    split
    · refine .andThen ?_ (ih _)
      split
      · exact frame_sendAcked ..
      · exact frame_send ..
    · exact ih s

theorem frame_waiters {s : Server F} {waiters : List Waiter}
    (h : ∀ w ∈ waiters, w.kind = .list → ∀ key ∈ w.keys, P [ascii "LPOP", key]) :
    Frame P [] [] s { s with waiters } :=
  ⟨rfl, rfl, rfl, rfl, by simp, rfl, rfl, by simp, by simp [streamBytes], fun hs => ⟨hs.queue, h⟩⟩

theorem frame_expireWaiters (env : Env) {s : Server F} (h : s.Asking P) :
    Frame P [] [] s (s.expireWaiters env) :=
  (frame_expireAll env s.waiters s).andThen
    (frame_waiters fun w hw => h.keys w (List.mem_of_mem_filter hw))

theorem frame_finish (env : Env) (fd : ℤ) (s : Server F) : Frame P [] [] s (s.finish env fd) := by
  unfold finish
  dsimp only
  split
  · exact (frame_deliverMessages env s).andThen (frame_closeClient ..)
  · exact frame_deliverMessages env s

theorem frame_acknowledge (fd : ℤ) (text : Bytes) (s : Server F) :
    Frame P [] [] s (s.acknowledge fd text) := by
  unfold acknowledge
  split
  · exact frame_replicas ..
  · exact .refl s

theorem frame_register (fd : ℤ) (args : List Bytes) (inMulti : Bool) (reply : Bytes)
    (s : Server F) : Frame P [] [] s (s.register fd args inMulti reply) := by
  unfold register
  split
  · exact frame_replicas ..
  · exact .refl s

end Server

end TrueStore
