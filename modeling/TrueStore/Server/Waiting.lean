import TrueStore.Server.Streaming

/-! # Replies to `WAIT`

A connection remembers the offset behind its last write, and `WAIT` counts the replicas that have
acknowledged it. Whatever the loop does between two changes of an acknowledged offset, a reply
counts replicas that were registered then, for an offset that the client had reached when it asked.
-/

namespace TrueStore.Server

open RespType

variable {F : Type} [Platform F]

/-- The offset behind the last write of a connection that was accepted when the stream had some
length, and zero if it has not written. -/
def Written (fd : ℤ) (since : ℕ) (stream : List Propagation) (offset : ℤ) : Prop :=
  offset = 0 ∧ (∀ p ∈ stream.drop since, p.client ≠ some fd) ∨
    ∃ before p after, stream = before ++ p :: after ∧ since ≤ before.length ∧
      p.client = some fd ∧ (∀ p' ∈ after, p'.client ≠ some fd) ∧
      offset = (streamBytes (before ++ [p])).length

section Written

variable {fd : ℤ} {since : ℕ} {stream items : List Propagation} {offset : ℤ}

theorem written_fresh (fd : ℤ) (stream : List Propagation) :
    Written fd stream.length stream 0 :=
  .inl ⟨rfl, by simp⟩

theorem Written.extend (h : Written fd since stream offset) (hs : since ≤ stream.length)
    (hi : ∀ p ∈ items, p.client ≠ some fd) : Written fd since (stream ++ items) offset := by
  rcases h with ⟨hzero, hnone⟩ | ⟨before, p, after, rfl, hsince, hp, hafter, hoffset⟩
  · refine .inl ⟨hzero, ?_⟩
    rw [List.drop_append_of_le_length hs]
    exact List.forall_mem_append.mpr ⟨hnone, hi⟩
  · refine .inr ⟨before, p, after ++ items, by simp, hsince, hp, ?_, hoffset⟩
    exact List.forall_mem_append.mpr ⟨hafter, hi⟩

theorem written_last (hs : since ≤ stream.length) {p : Propagation} (hp : p.client = some fd) :
    Written fd since (stream ++ [p]) (streamBytes (stream ++ [p])).length :=
  .inr ⟨stream, p, [], rfl, hs, hp, by simp, rfl⟩

end Written

/-- The offsets that a server keeps: the bytes of the stream, the last writes of the clients, and
those for which clients wait for replicas, as they asked. -/
structure Tracked (A : ℤ → ℤ → Prop) (s : Server F) : Prop where
  offset : s.store.masterReplOffset = (streamBytes s.stream).length
  clients : ∀ (fd : ℤ) (client : ClientState), s.clients[fd]? = some client →
    ∃ since, s.joined[fd]? = some since ∧ since ≤ s.stream.length ∧
      Written fd since s.stream client.replOffset
  waiters : ∀ w ∈ s.waiters, w.fd ∈ s.clients ∧ (w.kind = .wait → A w.fd w.targetOffset)

theorem tracked_start (A : ℤ → ℤ → Prop) (config : Config) (replid : ReplId) :
    (start config replid : Server F).Tracked A where
  offset := rfl
  clients fd client h := by simp [start] at h
  waiters w hw := by cases hw

theorem Tracked.imp {A B : ℤ → ℤ → Prop} {s : Server F} (h : s.Tracked A)
    (hAB : ∀ w ∈ s.waiters, w.kind = .wait → B w.fd w.targetOffset) : s.Tracked B :=
  ⟨h.offset, h.clients, fun w hw => ⟨(h.waiters w hw).1, hAB w hw⟩⟩

/-- What is sent is no reply to `WAIT`. -/
def Quiet (new : List Sent) : Prop := ∀ m ∈ new, ∀ n target reps, m.purpose ≠ .waited n target reps

def Fewer (replicas replicas' : Std.ExtTreeMap ℤ ℤ) : Prop :=
  ∀ fd acked : ℤ, replicas'[fd]? = some acked → replicas[fd]? = some acked

/-- A reply to `WAIT` counts the replicas with an acknowledged offset, all of them registered, for
an offset that its client asked for. -/
def Counted (A : ℤ → ℤ → Prop) (replicas : Std.ExtTreeMap ℤ ℤ) (m : Sent) : Prop :=
  ∀ n target reps, m.purpose = .waited n target reps →
    m.payload = (integer n).toBytes ∧ n = reps.values.countP (target ≤ ·) ∧
      Fewer replicas reps ∧ A m.fd target

/-- A part of a step in which no replica acknowledges anything. -/
structure Serves (A : ℤ → ℤ → Prop) (s s' : Server F) : Prop where
  replicas : Fewer s.replicas s'.replicas
  joined : s'.joined = s.joined
  stream : ∃ items, s'.stream = s.stream ++ items
  sends : ∃ new, s'.sends = s.sends ++ new ∧ ∀ m ∈ new, Counted A s.replicas m
  tracked : s'.Tracked A

variable {A : ℤ → ℤ → Prop}

namespace Serves

variable {s s₁ s₂ : Server F}

theorem refl (h : s.Tracked A) : Serves A s s :=
  ⟨fun _ _ h => h, rfl, ⟨[], by simp⟩, ⟨[], by simp, by simp⟩, h⟩

theorem trans (h : Serves A s s₁) (h' : Serves A s₁ s₂) : Serves A s s₂ where
  replicas fd acked hr := h.replicas fd acked (h'.replicas fd acked hr)
  joined := h'.joined.trans h.joined
  stream := by
    obtain ⟨items, hi⟩ := h.stream
    obtain ⟨items', hi'⟩ := h'.stream
    exact ⟨items ++ items', by rw [hi', hi, List.append_assoc]⟩
  sends := by
    obtain ⟨new, hn, hall⟩ := h.sends
    obtain ⟨new', hn', hall'⟩ := h'.sends
    refine ⟨new ++ new', by rw [hn', hn, List.append_assoc], ?_⟩
    rw [List.forall_mem_append]
    constructor
    · exact hall
    · intro m hm n target reps hp
      obtain ⟨hpayload, hcount, hreps, hasked⟩ := hall' m hm n target reps hp
      exact ⟨hpayload, hcount, fun fd acked hr => h.replicas fd acked (hreps fd acked hr), hasked⟩
  tracked := h'.tracked

theorem counted_of_quiet {new : List Sent} (h : Quiet new) (replicas : Std.ExtTreeMap ℤ ℤ) :
    ∀ m ∈ new, Counted A replicas m :=
  fun m hm n target reps hp => absurd hp (h m hm n target reps)

theorem keep (h : s.Tracked A) {new : List Sent} (hr : s₁.replicas = s.replicas)
    (hj : s₁.joined = s.joined) (hs : s₁.stream = s.stream)
    (ho : s₁.store.masterReplOffset = s.store.masterReplOffset) (hw : s₁.waiters = s.waiters)
    (hc : s₁.clients = s.clients) (hn : s₁.sends = s.sends ++ new) (hq : Quiet new) :
    Serves A s s₁ where
  replicas fd acked := by rw [hr]; exact id
  joined := hj
  stream := ⟨[], by simp [hs]⟩
  sends := ⟨new, hn, counted_of_quiet hq _⟩
  tracked := by
    refine ⟨by rw [ho, hs]; exact h.offset, fun fd client hfd => ?_, fun w hmem => ?_⟩
    · rw [hc] at hfd
      rw [hj, hs]
      exact h.clients fd client hfd
    · rw [hw] at hmem
      rw [hc]
      exact h.waiters w hmem

end Serves

theorem quiet_nil : Quiet [] := by simp [Quiet]

theorem serves_send {s : Server F} (h : s.Tracked A) (env : Env) (fd : ℤ) (payload : Bytes)
    (purpose : Purpose) (hp : ∀ n target reps, purpose ≠ .waited n target reps) :
    Serves A s (s.send env fd payload purpose).2 :=
  .keep h rfl rfl rfl rfl rfl rfl rfl (by simpa [Quiet] using hp)

theorem serves_closeClient {s : Server F} (h : s.Tracked A) (fd : ℤ) :
    Serves A s (s.closeClient fd) where
  replicas fd' acked hr := by
    simp only [closeClient, Std.ExtTreeMap.getElem?_erase] at hr
    split at hr
    · cases hr
    · exact hr
  joined := rfl
  stream := ⟨[], by simp [closeClient]⟩
  sends := ⟨[], by simp [closeClient], by simp⟩
  tracked := by
    refine ⟨h.offset, fun fd' client hc => ?_, fun w hw => ?_⟩
    · simp only [closeClient, Std.ExtTreeMap.getElem?_erase] at hc
      split at hc
      · cases hc
      · exact h.clients fd' client hc
    · obtain ⟨hw, hne⟩ := List.mem_filter.mp hw
      obtain ⟨hfd, hasked⟩ := h.waiters w hw
      exact ⟨mem_clients_closeClient.mpr ⟨hfd, of_decide_eq_true hne⟩, hasked⟩

theorem serves_sendAcked {s : Server F} (h : s.Tracked A) (env : Env) {fd target : ℤ}
    (ha : A fd target) : Serves A s (s.sendAcked env fd target) where
  replicas fd acked hr := hr
  joined := rfl
  stream := ⟨[], by simp [sendAcked, send]⟩
  sends := by
    refine ⟨_, rfl, ?_⟩
    simp only [List.mem_singleton, forall_eq]
    intro n target' reps hp
    cases hp
    exact ⟨rfl, rfl, fun _ _ hr => hr, ha⟩
  tracked := ⟨h.offset, h.clients, h.waiters⟩

theorem sendToAll_eq (env : Env) (payload : Bytes) (fds : List ℤ) (s : Server F) :
    ∃ new replicas, sendToAll env payload fds s =
        { s with sends := s.sends ++ new, replicas } ∧ Quiet new ∧
      Fewer s.replicas replicas := by
  induction fds generalizing s with
  | nil => exact ⟨[], s.replicas, by simp [sendToAll], quiet_nil, fun _ _ h => h⟩
  | cons fd fds ih =>
    have hstep : sendToAll env payload (fd :: fds) s = sendToAll env payload fds { s with
        sends := s.sends ++ [⟨fd, payload, .stream, env.sendOk s.sends.length⟩]
        replicas := if env.sendOk s.sends.length then s.replicas else s.replicas.erase fd } := by
      rw [sendToAll]
      cases hok : env.sendOk s.sends.length <;> simp [send, hok]
    obtain ⟨new, replicas, heq, hq, hr⟩ := ih { s with
      sends := s.sends ++ [⟨fd, payload, .stream, env.sendOk s.sends.length⟩]
      replicas := if env.sendOk s.sends.length then s.replicas else s.replicas.erase fd }
    have hquiet : Quiet (⟨fd, payload, .stream, env.sendOk s.sends.length⟩ :: new) := by
      refine List.forall_mem_cons.mpr ⟨?_, hq⟩
      simp
    refine ⟨_, replicas, ?_, hquiet, fun fd' acked hget => ?_⟩
    · rw [hstep, heq]
      simp
    · have hget := hr fd' acked hget
      dsimp only at hget
      split at hget
      · exact hget
      · simp only [Std.ExtTreeMap.getElem?_erase] at hget
        split at hget
        · cases hget
        · exact hget

section Request

variable {s : Server F} {fd : ℤ} {args : List Bytes}

theorem serves_sendToReplicas (h : s.Tracked A) (env : Env) (args : List Bytes) :
    Serves A s (s.sendToReplicas env none args) ∧
      (s.sendToReplicas env none args).clients = s.clients ∧
      (s.sendToReplicas env none args).waiters = s.waiters := by
  obtain ⟨new, replicas, heq, hq, hr⟩ := sendToAll_eq env (encode args) s.replicas.keys { s with
    store := { s.store with
      masterReplOffset := s.store.masterReplOffset + (encode args).length }
    stream := s.stream ++ [⟨none, args⟩] }
  unfold sendToReplicas
  rw [heq]
  refine ⟨⟨hr, rfl, ⟨_, rfl⟩, ⟨new, rfl, Serves.counted_of_quiet hq _⟩, ?_⟩, rfl, rfl⟩
  refine ⟨?_, fun fd client hc => ?_, fun w hw => ?_⟩
  · simp [h.offset, streamBytes]
  · obtain ⟨since, hjoined, hsince, hw⟩ := h.clients fd client hc
    refine ⟨since, hjoined, ?_, hw.extend hsince (by simp)⟩
    rw [List.length_append]
    exact hsince.trans (Nat.le_add_right _ _)
  · exact h.waiters w hw

/-- A write goes to the replicas, and its client remembers the offset behind it. -/
theorem serves_propagate (h : s.Tracked A) (env : Env) (hfd : fd ∈ s.clients) (args : List Bytes) :
    Serves A s (s.propagate env fd args) ∧ fd ∈ (s.propagate env fd args).clients ∧
      (s.propagate env fd args).waiters = s.waiters := by
  obtain ⟨new, replicas, heq, hq, hr⟩ := sendToAll_eq env (encode args) s.replicas.keys { s with
    store := { s.store with
      masterReplOffset := s.store.masterReplOffset + (encode args).length }
    stream := s.stream ++ [⟨some fd, args⟩] }
  have hoffset : s.store.masterReplOffset + (encode args).length =
      (streamBytes (s.stream ++ [⟨some fd, args⟩])).length := by
    simp [h.offset, streamBytes]
  unfold propagate sendToReplicas
  rw [heq]
  refine ⟨⟨hr, rfl, ⟨_, rfl⟩, ⟨new, rfl, Serves.counted_of_quiet hq _⟩, ?_⟩,
    mem_clients_insert.mpr (.inl rfl), rfl⟩
  refine ⟨hoffset, fun fd' client hc => ?_, fun w hw => ?_⟩
  · have hlen : ∀ since, since ≤ s.stream.length →
        since ≤ (s.stream ++ [(⟨some fd, args⟩ : Propagation)]).length := fun since hs => by
      rw [List.length_append]
      exact hs.trans (Nat.le_add_right _ _)
    simp only [Std.ExtTreeMap.getElem?_insert, Std.compare_eq_iff_eq] at hc
    split at hc
    · rename_i heq
      subst heq
      cases hc
      obtain ⟨before, hbefore⟩ := Option.isSome_iff_exists.mp
        (Std.ExtTreeMap.isSome_getElem?_iff_mem.mpr hfd)
      obtain ⟨since, hjoined, hsince, -⟩ := h.clients fd before hbefore
      refine ⟨since, hjoined, hlen since hsince, ?_⟩
      dsimp only
      rw [hoffset]
      exact written_last hsince rfl
    · rename_i hne
      obtain ⟨since, hjoined, hsince, hw⟩ := h.clients fd' client hc
      refine ⟨since, hjoined, hlen since hsince, hw.extend hsince ?_⟩
      simpa using hne
  · obtain ⟨hmem, hasked⟩ := h.waiters w hw
    exact ⟨mem_clients_insert.mpr (.inr hmem), hasked⟩

theorem serves_propagateAll (env : Env) (queue : List (List Bytes)) (h : s.Tracked A)
    (hfd : fd ∈ s.clients) :
    Serves A s (propagateAll env fd queue s) ∧ fd ∈ (propagateAll env fd queue s).clients := by
  induction queue generalizing s with
  | nil => exact ⟨.refl h, hfd⟩
  | cons args queue ih =>
    obtain ⟨hone, hmem, -⟩ := serves_propagate h env hfd args
    obtain ⟨hrest, hmem'⟩ := ih hone.tracked hmem
    exact ⟨hone.trans hrest, hmem'⟩

theorem serves_handle (h : s.Tracked A) (hb : s.store.pendingBlock = none) {client : ClientState}
    (hc : s.clients[fd]? = some client) (env : Env) (number : ℕ) (args : List Bytes) :
    Serves A s (s.handle env number fd args).2 ∧ fd ∈ (s.handle env number fd args).2.clients := by
  have hget : s.clients.getD fd {} = client := by
    simp [Std.ExtTreeMap.getD_eq_getD_getElem?, hc]
  have hkept := (kept_handleCommand (env.clock number) args hb client).1
  unfold handle
  dsimp only
  rw [hget]
  refine ⟨⟨fun _ _ hr => hr, rfl, ⟨[], by simp⟩, ⟨[], by simp, by simp⟩, ?_⟩,
    mem_clients_insert.mpr (.inl rfl)⟩
  refine ⟨hkept.offset.trans h.offset, fun fd' client' hc' => ?_, fun w hw => ?_⟩
  · simp only [Std.ExtTreeMap.getElem?_insert, Std.compare_eq_iff_eq] at hc'
    split at hc'
    · rename_i heq
      subst heq
      cases hc'
      rw [hkept.clientOffset]
      exact h.clients fd client hc
    · exact h.clients fd' client' hc'
  · obtain ⟨hmem, hasked⟩ := h.waiters w hw
    exact ⟨mem_clients_insert.mpr (.inr hmem), hasked⟩

theorem logOwn_aof (args : List Bytes) (inMulti : Bool) (reply : Bytes) (s : Server F) :
    ∃ aof, s.logOwn args inMulti reply = { s with aof } := by
  unfold logOwn
  split
  · exact ⟨_, rfl⟩
  · exact ⟨s.aof, rfl⟩

theorem logPending_aof (inMulti : Bool) (s : Server F) :
    ∃ aof, s.logPending inMulti = { s with aof } := by
  have hfold : ∀ (pending : List (List Bytes)) (s : Server F),
      ∃ aof, pending.foldl (fun s args => s.append args) s = { s with aof } := by
    intro pending
    induction pending with
    | nil => exact fun s => ⟨s.aof, rfl⟩
    | cons args pending ih => exact fun s => ih (s.append args)
  unfold logPending
  split
  · exact ⟨_, rfl⟩
  · exact hfold _ s

theorem serves_publish (h : s.Tracked A) (env : Env) (hfd : fd ∈ s.clients) (args : List Bytes)
    (inMulti : Bool) (reply : Bytes) :
    Serves A s (s.publish env fd args inMulti reply) ∧
      fd ∈ (s.publish env fd args inMulti reply).clients := by
  obtain ⟨aof, hown⟩ := logOwn_aof args inMulti reply s
  have hlogged : Serves A s { s with aof } :=
    .keep h rfl rfl rfl rfl rfl rfl (List.append_nil _).symm quiet_nil
  have hsent : ∀ b : Bool, Serves A s (if b then ({ s with aof } : Server F).propagate env fd args
      else { s with aof }) ∧ fd ∈ (if b then ({ s with aof } : Server F).propagate env fd args
      else { s with aof }).clients := by
    rintro (_ | _)
    · exact ⟨hlogged, hfd⟩
    · obtain ⟨hone, hmem, -⟩ := serves_propagate hlogged.tracked env hfd args
      exact ⟨hlogged.trans hone, hmem⟩
  unfold publish
  dsimp only
  rw [hown]
  obtain ⟨hone, hmem⟩ := hsent (!inMulti && isWriteCommand (upperName args) && !isError reply)
  generalize (if (!inMulti && isWriteCommand (upperName args) && !isError reply) = true then
    ({ s with aof } : Server F).propagate env fd args else { s with aof }) = t at hone hmem ⊢
  obtain ⟨aof', hpending⟩ := logPending_aof inMulti t
  rw [hpending]
  have hcleared : Serves A s { t with
      aof := aof', store := { t.store with pendingPropagations := [] } } :=
    hone.trans (.keep hone.tracked rfl rfl rfl rfl rfl rfl (List.append_nil _).symm quiet_nil)
  obtain ⟨hall, hmem'⟩ := serves_propagateAll env t.store.pendingPropagations hcleared.tracked hmem
  exact ⟨hcleared.trans hall, hmem'⟩

theorem serves_wait (h : s.Tracked A) {w : Waiter} (hfd : w.fd ∈ s.clients)
    (ha : w.kind = .wait → A w.fd w.targetOffset) :
    Serves A s { s with waiters := s.waiters ++ [w] } where
  replicas _ _ hr := hr
  joined := rfl
  stream := ⟨[], by simp⟩
  sends := ⟨[], by simp, by simp⟩
  tracked := ⟨h.offset, h.clients, List.forall_mem_append.mpr
    ⟨h.waiters, List.forall_mem_singleton.mpr ⟨hfd, ha⟩⟩⟩

theorem serves_block (h : s.Tracked A) (env : Env) (hfd : fd ∈ s.clients) (b : BlockRequest F)
    (hA : b.kind = .wait → A fd (s.clients.getD fd {}).replOffset) :
    Serves A s (s.block env fd b) := by
  unfold block
  split
  · rename_i hkind
    dsimp only
    split
    · exact serves_sendAcked h env (hA hkind)
    · obtain ⟨hsent, hclients, -⟩ := serves_sendToReplicas h env
        [ascii "REPLCONF", ascii "GETACK", ascii "*"]
      have hmem : fd ∈ (s.sendToReplicas env none
          [ascii "REPLCONF", ascii "GETACK", ascii "*"]).clients := by
        rw [hclients]
        exact hfd
      exact hsent.trans (serves_wait hsent.tracked hmem fun _ => hA hkind)
  · rename_i hkind
    exact serves_wait h hfd fun hk => absurd hk hkind

theorem serves_respond (h : s.Tracked A) (env : Env) (hfd : fd ∈ s.clients) (reply : Bytes)
    (hA : ∀ b, s.store.pendingBlock = some b → b.kind = .wait →
      A fd (s.clients.getD fd {}).replOffset) : Serves A s (s.respond env fd reply).2 := by
  unfold respond
  split
  · rename_i b hb
    have hcleared : Serves A s { s with store := { s.store with pendingBlock := none } } :=
      .keep h rfl rfl rfl rfl rfl rfl (List.append_nil _).symm quiet_nil
    exact hcleared.trans (serves_block hcleared.tracked env hfd b (hA b hb))
  · split
    · exact .refl h
    · have hsent := serves_send h env fd reply .reply fun _ _ _ => by simp
      dsimp only
      split
      · exact hsent
      · exact hsent.trans (serves_closeClient hsent.tracked fd)

theorem serves_deliverAll (env : Env) (messages : List (ℤ × Bytes)) (h : s.Tracked A) :
    Serves A s (deliverAll env messages s) := by
  induction messages generalizing s with
  | nil => exact .refl h
  | cons m messages ih =>
    unfold deliverAll
    split
    · have hsent := serves_send h env m.1 m.2 .message fun _ _ _ => by simp
      have hone : Serves A s (if (s.send env m.1 m.2 .message).1 then
          (s.send env m.1 m.2 .message).2
          else (s.send env m.1 m.2 .message).2.closeClient m.1) := by
        split
        · exact hsent
        · exact hsent.trans (serves_closeClient hsent.tracked m.1)
      exact hone.trans (ih hone.tracked)
    · exact ih h

theorem serves_finish (h : s.Tracked A) (env : Env) (fd : ℤ) : Serves A s (s.finish env fd) := by
  have hcleared : Serves A s { s with store := { s.store with pendingMessages := [] } } :=
    .keep h rfl rfl rfl rfl rfl rfl (List.append_nil _).symm quiet_nil
  have hall := hcleared.trans (serves_deliverAll env s.store.pendingMessages hcleared.tracked)
  unfold finish deliverMessages
  dsimp only
  split
  · exact hall.trans (serves_closeClient hall.tracked fd)
  · exact hall

end Request

section Round

variable {s : Server F}

theorem serves_popped (env : Env) (queue : List (List Bytes)) (h : s.Tracked A) {fd : ℤ}
    (hfd : fd ∈ s.clients) :
    Serves A s (queue.foldl (fun s args => (s.append args).propagate env fd args) s) ∧
      (queue.foldl (fun s args => (s.append args).propagate env fd args) s).waiters =
        s.waiters := by
  induction queue generalizing s with
  | nil => exact ⟨.refl h, rfl⟩
  | cons args queue ih =>
    have hlogged : Serves A s (s.append args) :=
      .keep h rfl rfl rfl rfl rfl rfl (List.append_nil _).symm quiet_nil
    obtain ⟨hone, hmem, hwaiters⟩ := serves_propagate hlogged.tracked env hfd args
    obtain ⟨hrest, hwaiters'⟩ := ih hone.tracked hmem
    exact ⟨(hlogged.trans hone).trans hrest, hwaiters'.trans hwaiters⟩

theorem serves_serveWaiter (h : s.Tracked A) (env : Env) {w : Waiter} (hw : w ∈ s.waiters) :
    Serves A s (s.serveWaiter env w).2 ∧ (s.serveWaiter env w).2.waiters = s.waiters := by
  obtain ⟨hfd, hasked⟩ := h.waiters w hw
  unfold serveWaiter
  split
  · rename_i hkind
    split
    · exact ⟨serves_sendAcked h env (hasked hkind), rfl⟩
    · exact ⟨.refl h, rfl⟩
  · split
    · exact ⟨.refl h, rfl⟩
    · rename_i key value store hpop
      obtain ⟨-, rest, -, rfl⟩ := Store.tryBlpop_eq_some hpop
      dsimp only
      have hpopped : Serves A s { s with
          store := { s.store.popped key rest with pendingPropagations := [] }
          calls := s.calls ++ [Call.pop s.store.toKeyspace key] } :=
        .keep h rfl rfl rfl rfl rfl rfl (List.append_nil _).symm quiet_nil
      obtain ⟨hsent, hwaiters⟩ := serves_popped env
        (s.store.popped key rest).pendingPropagations hpopped.tracked hfd
      have hall := hpopped.trans hsent
      exact ⟨hall.trans (serves_send hall.tracked env w.fd _ .served fun _ _ _ => by simp),
        hwaiters⟩
  · split
    · exact ⟨.refl h, rfl⟩
    · exact ⟨serves_send h env w.fd _ .served fun _ _ _ => by simp, rfl⟩

theorem serves_serveAll (env : Env) (ws : List Waiter) (h : s.Tracked A)
    (hws : ∀ w ∈ ws, w ∈ s.waiters) :
    Serves A s (serveAll env ws s).2 ∧ (serveAll env ws s).2.waiters = s.waiters ∧
      ∀ w ∈ (serveAll env ws s).1, w ∈ ws := by
  induction ws generalizing s with
  | nil => exact ⟨.refl h, rfl, fun w hw => hw⟩
  | cons w ws ih =>
    obtain ⟨hw, hws⟩ := List.forall_mem_cons.mp hws
    obtain ⟨hone, hwaiters⟩ := serves_serveWaiter h env hw
    obtain ⟨hrest, hwaiters', hkept⟩ := ih hone.tracked fun w' hw' => hwaiters ▸ hws w' hw'
    refine ⟨hone.trans hrest, hwaiters'.trans hwaiters, fun w' hw' => ?_⟩
    simp only [serveAll] at hw'
    split at hw'
    · exact List.mem_cons_of_mem _ (hkept w' hw')
    · rcases List.mem_cons.mp hw' with rfl | hw'
      · exact List.mem_cons_self
      · exact List.mem_cons_of_mem _ (hkept w' hw')

theorem serves_expireAll (env : Env) (ws : List Waiter) (h : s.Tracked A)
    (hws : ∀ w ∈ ws, w ∈ s.waiters) :
    Serves A s (expireAll env ws s) ∧ (expireAll env ws s).waiters = s.waiters := by
  induction ws generalizing s with
  | nil => exact ⟨.refl h, rfl⟩
  | cons w ws ih =>
    obtain ⟨hw, hws⟩ := List.forall_mem_cons.mp hws
    unfold expireAll
    split
    · have hone : Serves A s (if w.kind = .wait then s.sendAcked env w.fd w.targetOffset
          else (s.send env w.fd nullArray.toBytes .served).2) ∧
          (if w.kind = .wait then s.sendAcked env w.fd w.targetOffset
            else (s.send env w.fd nullArray.toBytes .served).2).waiters = s.waiters := by
        split
        · rename_i hkind
          exact ⟨serves_sendAcked h env ((h.waiters w hw).2 hkind), rfl⟩
        · exact ⟨serves_send h env w.fd _ .served fun _ _ _ => by simp, rfl⟩
      obtain ⟨hserved, hwaiters⟩ := hone
      obtain ⟨hrest, hwaiters'⟩ := ih hserved.tracked fun w' hw' => hwaiters ▸ hws w' hw'
      exact ⟨hserved.trans hrest, hwaiters'.trans hwaiters⟩
    · exact ih h hws

theorem serves_fewer (h : s.Tracked A) {ws : List Waiter} (hws : ∀ w ∈ ws, w ∈ s.waiters) :
    Serves A s { s with waiters := ws } where
  replicas _ _ hr := hr
  joined := rfl
  stream := ⟨[], by simp⟩
  sends := ⟨[], by simp, by simp⟩
  tracked := ⟨h.offset, h.clients, fun w hw => h.waiters w (hws w hw)⟩

theorem serves_round (h : s.Tracked A) (env : Env) :
    Serves A s ((s.serveWaiters env).expireWaiters env) := by
  obtain ⟨hserved, hwaiters, hkept⟩ := serves_serveAll env s.waiters h fun _ hw => hw
  have hround : Serves A s (s.serveWaiters env) :=
    hserved.trans (serves_fewer hserved.tracked fun w hw => by rw [hwaiters]; exact hkept w hw)
  obtain ⟨hexpired, hwaiters'⟩ :=
    serves_expireAll env (s.serveWaiters env).waiters hround.tracked fun _ hw => hw
  refine (hround.trans hexpired).trans (serves_fewer hexpired.tracked fun w hw => ?_)
  rw [hwaiters']
  exact List.mem_of_mem_filter hw

end Round

/-- Only `WAIT` asks to block for replicas, and it queues nothing. -/
theorem wait_handleCommand {args : List Bytes} {clock : ℕ → Readings} {store : Store F}
    (hb : store.pendingBlock = none) {client : ClientState} {b : BlockRequest F}
    (hpb : (handleCommand clock args store client).2.1.pendingBlock = some b)
    (hk : b.kind = .wait) :
    upperName args = ascii "WAIT" ∧
      (handleCommand clock args store client).2.1.pendingPropagations =
        store.pendingPropagations := by
  have hd := handled_handleCommand clock args store client
  generalize handleCommand clock args store client = r at hd hpb
  generalize commandCalls clock args store client = calls at hd
  cases hd with
  | refused _ => simp [hb] at hpb
  | steered hs => simp [hs.block, hb] at hpb
  | queued _ _ _ => simp [hb] at hpb
  | dispatched _ _ _ =>
    rcases blocks_dispatchCommand hb hpb with ⟨-, hkind, -⟩ | ⟨-, hkind⟩ | ⟨hn, -⟩
    · rw [hkind] at hk
      cases hk
    · rw [hkind] at hk
      cases hk
    · have hall : ∀ p ∈ commandTable, p.2 = .wait → p.1 = ascii "WAIT" := by decide
      refine ⟨hall _ (mem_table_of_commandName hn) rfl, ?_⟩
      simp only [dispatchCommand, hn]
      unfold Store.handleWait
      repeat' split
      all_goals rfl
  | exec _ _ =>
    unfold execTransaction at hpb
    dsimp only at hpb
    split at hpb
    · simp [hb] at hpb
    · rw [(traced_execQueue _ _ (by exact hb) _).2] at hpb
      cases hpb

/-- A step after which, and at each reply to `WAIT` in it, the acknowledged offsets are among some
given ones. -/
structure Answered (A : ℤ → ℤ → Prop) (replicas : Std.ExtTreeMap ℤ ℤ) (s s' : Server F) :
    Prop where
  fewer : Fewer replicas s'.replicas
  sends : ∃ new, s'.sends = s.sends ++ new ∧ ∀ m ∈ new, Counted A replicas m
  tracked : s'.Tracked A

section Step

variable {s s' : Server F} {fd : ℤ}

theorem Serves.answered (h : Serves A s s') : Answered A s.replicas s s' :=
  ⟨h.replicas, h.sends, h.tracked⟩

/-- The offsets that are acknowledged after a request: those from before, the one that a new
replica starts with, or the one that the request acknowledges. -/
def Acknowledges (s : Server F) (r : Request) (fd acked : ℤ) : Prop :=
  upperName r.args = ascii "PSYNC" ∧ acked = s.store.masterReplOffset ∨
    fd ∈ s.replicas ∧ ∃ client text, s.clients[fd]? = some client ∧
      s.ackText r.args client = some text ∧ stoll text = some acked

/-- A `WAIT` that blocks uses the offset of its client. -/
theorem asks_publish (hb : s.store.pendingBlock = none) (hp : s.store.pendingPropagations = [])
    {client : ClientState} (hc : s.clients[fd]? = some client) {args : List Bytes}
    (hA : upperName args = ascii "WAIT" → A fd client.replOffset) (env : Env)
    {b : BlockRequest F} (hk : b.kind = .wait)
    (hpb : (((s.handle env 0 fd args).2.register fd args client.inMulti
      (s.handle env 0 fd args).1).publish env fd args client.inMulti
      (s.handle env 0 fd args).1).store.pendingBlock = some b) :
    A fd ((((s.handle env 0 fd args).2.register fd args client.inMulti
      (s.handle env 0 fd args).1).publish env fd args client.inMulti
      (s.handle env 0 fd args).1).clients.getD fd {}).replOffset := by
  have hget : s.clients.getD fd {} = client := by
    simp [Std.ExtTreeMap.getD_eq_getD_getElem?, hc]
  set t := s.handle env 0 fd args with ht
  set u := t.2.register fd args client.inMulti t.1 with hu
  have hregister : u.store = t.2.store ∧ u.clients = t.2.clients := by
    rw [hu]
    unfold register
    split <;> exact ⟨rfl, rfl⟩
  have hstore : t.2.store = (handleCommand (env.clock 0) args s.store client).2.1 := by
    rw [ht]
    simp only [handle, hget]
  obtain ⟨bytes, -, hframe⟩ := frame_publish (P := Loggable) env fd args client t.1 u
  have hblock : (handleCommand (env.clock 0) args s.store client).2.1.pendingBlock = some b := by
    rw [← hstore, ← hregister.1, ← hpb]
    exact hframe.block.symm
  obtain ⟨hname, hqueue⟩ := wait_handleCommand hb hblock hk
  have hquiet : u.publish env fd args client.inMulti t.1 = u := by
    have hw : isWriteCommand (upperName args) = false := by
      rw [hname]
      decide
    apply publish_of_quiet
    · rw [hregister.1, hstore, hqueue, hp]
    · simp [hw]
  have hclient : (u.clients.getD fd {}).replOffset = client.replOffset := by
    rw [hregister.2, ht]
    simp only [handle, hget, Std.ExtTreeMap.getD_insert_self]
    exact (kept_handleCommand (env.clock 0) args hb client).1.clientOffset
  rw [hquiet, hclient]
  exact hA hname

theorem answered_command (h : s.Tracked A) (hb : s.store.pendingBlock = none)
    (hp : s.store.pendingPropagations = []) (env : Env) (fd : ℤ) (r : Request)
    (hA : ∀ client, s.clients[fd]? = some client → upperName r.args = ascii "WAIT" →
      A fd client.replOffset) :
    ∃ replicas, Answered A replicas s (s.command env fd r.args) ∧
      ∀ fd' acked : ℤ, replicas[fd']? = some acked →
        s.replicas[fd']? = some acked ∨ fd' = fd ∧ Acknowledges s r fd acked := by
  unfold command
  split
  · exact ⟨s.replicas, (Serves.refl h).answered, fun _ _ hr => .inl hr⟩
  rename_i client hclient
  split
  · rename_i text htext
    unfold acknowledge
    split
    · rename_i offset hoffset
      refine ⟨_, ⟨fun _ _ hr => hr, ⟨[], by simp, by simp⟩, h.offset, h.clients, h.waiters⟩,
        fun fd' acked hr => ?_⟩
      dsimp only at hr
      split at hr
      · rename_i hmem
        rw [Std.ExtTreeMap.getElem?_insert] at hr
        split at hr
        · rename_i heq
          cases hr
          rw [Std.compare_eq_iff_eq] at heq
          exact .inr ⟨heq.symm, .inr ⟨Std.ExtTreeMap.contains_iff_mem.mp hmem, client, text,
            hclient, htext, hoffset⟩⟩
        · exact .inl hr
      · exact .inl hr
    · exact ⟨s.replicas, (Serves.refl h).answered, fun _ _ hr => .inl hr⟩
  · obtain ⟨hhandle, hmem⟩ := serves_handle h hb hclient env 0 r.args
    have hkept : (s.handle env 0 fd r.args).2.store.masterReplOffset = s.store.masterReplOffset :=
      (kept_handleCommand (env.clock 0) r.args hb _).1.offset
    have hasks := fun b hpb hk =>
      asks_publish hb hp hclient (hA client hclient) env (b := b) hk hpb
    set t := s.handle env 0 fd r.args
    set u := t.2.register fd r.args client.inMulti t.1 with hu
    have hregistered : u.Tracked A ∧ u.sends = t.2.sends ∧ fd ∈ u.clients ∧
        ∀ fd' acked : ℤ, u.replicas[fd']? = some acked →
          s.replicas[fd']? = some acked ∨ fd' = fd ∧ Acknowledges s r fd acked := by
      rw [hu]
      unfold register
      split
      · rename_i hpsync
        have ht := hhandle.tracked
        refine ⟨⟨ht.offset, ht.clients, ht.waiters⟩, rfl, hmem, fun fd' acked hr => ?_⟩
        dsimp only at hr
        rw [Std.ExtTreeMap.getElem?_insertIfNew] at hr
        split at hr
        · rename_i heq
          cases hr
          rw [Std.compare_eq_iff_eq] at heq
          exact .inr ⟨heq.1.symm, .inl ⟨hpsync.1, hkept⟩⟩
        · exact .inl (hhandle.replicas fd' acked hr)
      · exact ⟨hhandle.tracked, rfl, hmem, fun fd' acked hr =>
          .inl (hhandle.replicas fd' acked hr)⟩
    obtain ⟨htracked, hsends, hfd, hreplicas⟩ := hregistered
    obtain ⟨hpublish, hfd'⟩ := serves_publish htracked env hfd r.args client.inMulti t.1
    have hrespond := hpublish.trans (serves_respond hpublish.tracked env hfd' t.1 hasks)
    have hall : Serves A u
        (if ((u.publish env fd r.args client.inMulti t.1).respond env fd t.1).1
        then ((u.publish env fd r.args client.inMulti t.1).respond env fd t.1).2.finish env fd
        else ((u.publish env fd r.args client.inMulti t.1).respond env fd t.1).2) := by
      split
      · exact hrespond.trans (serves_finish hrespond.tracked env fd)
      · exact hrespond
    have hanswered := hall.answered
    obtain ⟨new, hnew, hcounted⟩ := hanswered.sends
    have hsame : t.2.sends = s.sends := rfl
    exact ⟨u.replicas, ⟨hanswered.fewer, ⟨new, by rw [hnew, hsends, hsame], hcounted⟩,
      hanswered.tracked⟩, hreplicas⟩

theorem answered_accept (h : s.Tracked A) (fd : ℤ) : Answered A s.replicas s (s.accept fd) := by
  unfold accept
  split
  · exact (Serves.refl h).answered
  · rename_i hnew
    rw [Std.ExtTreeMap.contains_iff_mem] at hnew
    refine ⟨fun _ _ hr => hr, ⟨[], by simp, by simp⟩, h.offset, fun fd' client hc => ?_,
      fun w hw => ?_⟩
    · simp only [Std.ExtTreeMap.getElem?_insert, Std.compare_eq_iff_eq] at hc
      split at hc
      · rename_i heq
        subst heq
        cases hc
        exact ⟨s.stream.length, by simp, le_rfl, written_fresh fd s.stream⟩
      · rename_i hne
        dsimp only
        rw [Std.ExtTreeMap.getElem?_insert, if_neg (by rwa [Std.compare_eq_iff_eq])]
        exact h.clients fd' client hc
    · obtain ⟨hmem, hasked⟩ := h.waiters w hw
      exact ⟨mem_clients_insert.mpr (.inr hmem), hasked⟩

theorem answered_step (h : s.Tracked A) (hb : s.store.pendingBlock = none)
    (hp : s.store.pendingPropagations = []) (env : Env) {event : Event}
    (hl : event.isLocal = true)
    (hA : ∀ fd r client, event = .request fd r → s.clients[fd]? = some client →
      upperName r.args = ascii "WAIT" → A fd client.replOffset) :
    ∃ replicas, Answered A replicas s (s.step env event) ∧
      ∀ fd acked : ℤ, replicas[fd]? = some acked → s.replicas[fd]? = some acked ∨
        ∃ r, event = .request fd r ∧ Acknowledges s r fd acked := by
  have hkeep : ∀ {s' : Server F}, Answered A s.replicas s s' →
      ∃ replicas, Answered A replicas s s' ∧
        ∀ fd acked : ℤ, replicas[fd]? = some acked → s.replicas[fd]? = some acked ∨
          ∃ r, event = .request fd r ∧ Acknowledges s r fd acked := fun ha =>
    ⟨s.replicas, ha, fun _ _ hr => .inl hr⟩
  unfold step
  split
  · exact hkeep (Serves.refl h).answered
  · cases event with
    | accept fd => exact hkeep (answered_accept h fd)
    | request fd r =>
      dsimp only
      split
      · exact hkeep (Serves.refl h).answered
      · obtain ⟨replicas, ha, hr⟩ :=
          answered_command h hb hp env fd r fun client hc => hA fd r client rfl hc
        refine ⟨replicas, ha, fun fd' acked hget => ?_⟩
        rcases hr fd' acked hget with hold | ⟨rfl, hack⟩
        · exact .inl hold
        · exact .inr ⟨r, rfl, hack⟩
    | hangup fd =>
      dsimp only
      split
      · exact hkeep (serves_closeClient h fd).answered
      · exact hkeep (Serves.refl h).answered
    | chunk bytes => cases hl
    | masterClosed => cases hl
    | round => exact hkeep (serves_round h env).answered

end Step

end TrueStore.Server
