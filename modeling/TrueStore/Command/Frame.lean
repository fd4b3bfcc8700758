import TrueStore.Command.Calls
import TrueStore.Resp.RoundTrip

/-! # What a command leaves alone

No command moves the replication offset or forgets who the client is, and the arguments of its
calls are those that clients sent, or the `LPOP` of a key that a `BLPOP` named.
-/

namespace TrueStore

open RespType

variable {F : Type} [Platform F]

structure Kept (store store' : Store F) (client client' : ClientState) : Prop where
  offset : store'.masterReplOffset = store.masterReplOffset
  replid : store'.masterReplid = store.masterReplid
  fd : client'.fd = client.fd
  clientOffset : client'.replOffset = client.replOffset

theorem Kept.refl (store : Store F) (client : ClientState) : Kept store store client client :=
  ⟨rfl, rfl, rfl, rfl⟩

theorem Kept.trans {s₁ s₂ s₃ : Store F} {c₁ c₂ c₃ : ClientState} (h : Kept s₁ s₂ c₁ c₂)
    (h' : Kept s₂ s₃ c₂ c₃) : Kept s₁ s₃ c₁ c₃ :=
  ⟨h'.offset.trans h.offset, h'.replid.trans h.replid, h'.fd.trans h.fd,
    h'.clientOffset.trans h.clientOffset⟩

theorem kept_dispatchCommand (clock : Readings) (args : List Bytes) (store : Store F)
    (client : ClientState) :
    Kept store (dispatchCommand clock args store client).2.1 client
      (dispatchCommand clock args store client).2.2 ∧
    (dispatchCommand clock args store client).2.2.queued = client.queued := by
  rcases dispatchCommand_cases clock args store client with
    ⟨command, -, hd⟩ | ⟨-, key, value, rest, -, -, hd⟩ | ⟨-, -, happart⟩
  · rw [hd]
    exact ⟨⟨rfl, rfl, rfl, rfl⟩, rfl⟩
  · rw [hd]
    exact ⟨⟨rfl, rfl, rfl, rfl⟩, rfl⟩
  · have hc := happart.aside.client
    exact ⟨⟨happart.aside.offset, happart.aside.replid, by rw [hc], by rw [hc]⟩, by rw [hc]⟩

theorem kept_execQueue (clock : ℕ → Readings) (queue : List (List Bytes)) {store : Store F}
    (hb : store.pendingBlock = none) (client : ClientState) :
    Kept store (execQueue clock queue store client).2.1 client
      (execQueue clock queue store client).2.2 ∧
    (execQueue clock queue store client).2.2.queued = client.queued := by
  induction queue generalizing clock store client with
  | nil => exact ⟨.refl _ _, rfl⟩
  | cons args queue ih =>
    have hq := execQueued_eq (clock 0) args hb client
    obtain ⟨hk, hqueued⟩ := kept_dispatchCommand (clock 0) args store client
    have hone : Kept store (execQueued (clock 0) args store client).2.1 client
        (execQueued (clock 0) args store client).2.2 := by
      rw [hq]
      exact ⟨hk.offset, hk.replid, hk.fd, hk.clientOffset⟩
    obtain ⟨hk', hqueued'⟩ := ih (fun i => clock (i + 1))
      (traced_execQueued (clock 0) args hb client).2 (execQueued (clock 0) args store client).2.2
    refine ⟨hone.trans hk', hqueued'.trans ?_⟩
    rw [hq]
    exact hqueued

/-- A command keeps the offsets, and its client's queue holds only what was there or the command
itself. -/
theorem kept_handleCommand (clock : ℕ → Readings) (args : List Bytes) {store : Store F}
    (hb : store.pendingBlock = none) (client : ClientState) :
    Kept store (handleCommand clock args store client).2.1 client
      (handleCommand clock args store client).2.2 ∧
    ∀ q ∈ (handleCommand clock args store client).2.2.queued, q ∈ client.queued ∨ q = args := by
  have hd := handled_handleCommand clock args store client
  generalize handleCommand clock args store client = r at hd
  generalize commandCalls clock args store client = calls at hd
  cases hd with
  | refused _ => exact ⟨.refl _ _, fun q h => .inl h⟩
  | steered hs =>
    refine ⟨⟨hs.offset, hs.replid, hs.fd, hs.clientOffset⟩, fun q h => .inl ?_⟩
    rcases hs.queue with hq | hq <;> rw [hq] at h
    · exact h
    · cases h
  | queued _ _ _ =>
    refine ⟨⟨rfl, rfl, rfl, rfl⟩, fun q h => ?_⟩
    simpa [ClientState.enqueue] using h
  | dispatched _ _ _ =>
    obtain ⟨hk, hq⟩ := kept_dispatchCommand (clock 0) args store client
    exact ⟨hk, fun q h => .inl (hq ▸ h)⟩
  | exec _ _ =>
    unfold execTransaction
    dsimp only
    split
    · exact ⟨⟨rfl, rfl, rfl, rfl⟩, fun q h => by cases h⟩
    · have hb' : { store with toKeyspace := (watchedDirty (clock 0) client.watched
          store.toKeyspace).2 }.pendingBlock = none := hb
      obtain ⟨hk, hq⟩ := kept_execQueue (fun i => clock (i + 1)) client.queued hb'
        client.leaveMulti
      refine ⟨⟨hk.offset, hk.replid, hk.fd, hk.clientOffset⟩, fun q h => ?_⟩
      rw [hq] at h
      cases h

section Args

variable {P : List Bytes → Prop} {T : Readings → Prop}

/-- A property of arguments that passes from a `BLPOP` to the `LPOP` of each of its keys. -/
def PopClosed (P : List Bytes → Prop) : Prop :=
  ∀ args key, P args → commandName (upperName args) = some .blpop → key ∈ args.tail.dropLast →
    P [ascii "LPOP", key]

/-- A call with these arguments at admissible clock readings. A pop finds an element. -/
def Call.Fits (P : List Bytes → Prop) (T : Readings → Prop) : Call F → Prop
  | run clock _ args => T clock ∧ P args
  | pop data key => data.listAt key ≠ [] ∧ P [ascii "LPOP", key]

theorem Call.Fits.args {c : Call F} (h : c.Fits P T) : P c.args := by
  cases c with
  | run clock data args => exact h.2
  | pop data key => exact h.2

theorem Call.Fits.imp {Q : List Bytes → Prop} {c : Call F} (h : Call.Fits P T c)
    (hPQ : ∀ args, P args → Q args) : Call.Fits Q T c := by
  cases c with
  | run clock data args => exact ⟨h.1, hPQ _ h.2⟩
  | pop data key => exact ⟨h.1, hPQ _ h.2⟩

theorem fits_dispatchCalls (hP : PopClosed P) {args : List Bytes} (h : P args) {clock : Readings}
    (hT : T clock) (store : Store F) (client : ClientState) :
    ∀ c ∈ dispatchCalls clock args store, c.Fits P T := by
  rcases dispatchCalls_cases clock args store client with
    ⟨_, -, -, hcalls⟩ | ⟨key, _, _, hn, hmem, hlist, -, hcalls⟩ | ⟨-, -, hcalls⟩ <;>
    simp only [hcalls, List.forall_mem_singleton, List.not_mem_nil, false_implies, implies_true]
  · exact ⟨hT, h⟩
  · exact ⟨by simp [hlist], hP args key h hn hmem⟩

theorem fits_execCalls (hP : PopClosed P) {clock : ℕ → Readings} (hT : ∀ i, T (clock i))
    {queue : List (List Bytes)} (h : ∀ q ∈ queue, P q) (store : Store F) (client : ClientState) :
    ∀ c ∈ execCalls clock queue store client, c.Fits P T := by
  induction queue generalizing clock store client with
  | nil => simp [execCalls]
  | cons args queue ih =>
    intro c hc
    rcases List.mem_append.mp hc with hc | hc
    · exact fits_dispatchCalls hP (h _ List.mem_cons_self) (hT 0) _ client c hc
    · exact ih (fun i => hT (i + 1)) (fun q hq => h q (List.mem_cons_of_mem _ hq)) _ _ c hc

theorem fits_commandCalls (hP : PopClosed P) {args : List Bytes} (h : P args)
    {clock : ℕ → Readings} (hT : ∀ i, T (clock i)) (store : Store F) (client : ClientState)
    (hq : ∀ q ∈ client.queued, P q) :
    ∀ c ∈ commandCalls clock args store client, c.Fits P T := by
  have hd := handled_handleCommand clock args store client
  generalize handleCommand clock args store client = r at hd
  generalize commandCalls clock args store client = calls at hd
  cases hd with
  | refused _ => simp
  | steered _ => simp
  | queued _ _ _ => simp
  | dispatched _ _ _ => exact fits_dispatchCalls hP h (hT 0) store client
  | exec _ _ =>
    unfold transactionCalls
    dsimp only
    split
    · simp
    · exact fits_execCalls hP (fun i => hT (i + 1)) hq _ _

theorem keys_handleBlpop {args : List Bytes} {store : Store F} {b : BlockRequest F}
    (h : (store.handleBlpop args).2.pendingBlock = some b) :
    b.kind = .list ∧ b.keys = args.tail.dropLast := by
  unfold Store.handleBlpop at h
  dsimp only at h
  repeat' split at h
  all_goals try cases h
  · rename_i hp
    obtain ⟨-, rest, -, rfl⟩ := Store.tryBlpop_eq_some hp
    cases h
  · exact ⟨rfl, rfl⟩

theorem kind_handleXread {args : List Bytes} {store : Store F} {b : BlockRequest F}
    (h : (store.handleXread args).2.pendingBlock = some b) : b.kind = .stream := by
  unfold Store.handleXread at h
  dsimp only at h
  repeat' split at h
  all_goals cases h
  rfl

theorem kind_handleWait {args : List Bytes} {store : Store F} (hb : store.pendingBlock = none)
    {b : BlockRequest F} (h : (store.handleWait args).2.pendingBlock = some b) :
    b.kind = .wait := by
  unfold Store.handleWait at h
  split at h
  · split at h
    · obtain rfl := Option.some.inj h
      rfl
    · simp [hb] at h
  · simp [hb] at h

theorem pendingBlock_handleAcl (args : List Bytes) (store : Store F) :
    (store.handleAcl args).2.pendingBlock = store.pendingBlock := by
  unfold Store.handleAcl
  repeat' split
  all_goals rfl

theorem pendingBlock_handlePublish (args : List Bytes) (store : Store F) :
    (store.handlePublish args).2.pendingBlock = store.pendingBlock := by
  unfold Store.handlePublish
  repeat' split
  all_goals rfl

theorem pendingBlock_handleSubscribe (args : List Bytes) (store : Store F) (client : ClientState) :
    (store.handleSubscribe args client).2.1.pendingBlock = store.pendingBlock := by
  unfold Store.handleSubscribe
  split
  · exact (store.quiet_subscribeAll client _).block
  · rfl

theorem pendingBlock_handleUnsubscribe (args : List Bytes) (store : Store F)
    (client : ClientState) :
    (store.handleUnsubscribe args client).2.1.pendingBlock = store.pendingBlock := by
  unfold Store.handleUnsubscribe
  split
  · rfl
  · exact (store.quiet_unsubscribeAll client _).block

theorem blocks_dispatchCommand {clock : Readings} {args : List Bytes} {store : Store F}
    {client : ClientState} (hb : store.pendingBlock = none) {b : BlockRequest F}
    (h : (dispatchCommand clock args store client).2.1.pendingBlock = some b) :
    commandName (upperName args) = some .blpop ∧ b.kind = .list ∧ b.keys = args.tail.dropLast ∨
      commandName (upperName args) = some .xread ∧ b.kind = .stream ∨
      commandName (upperName args) = some .wait ∧ b.kind = .wait := by
  have hno : ∀ {s : Store F}, s.pendingBlock = store.pendingBlock → s.pendingBlock = some b →
      ∀ p : Prop, p := by
    intro s hs hs'
    rw [hs, hb] at hs'
    cases hs'
  unfold dispatchCommand at h
  rcases hn : commandName (upperName args) with _ | name
  · rw [hn] at h
    exact hno rfl h _
  · rw [hn] at h
    cases name with
    | blpop => exact .inl ⟨rfl, keys_handleBlpop h⟩
    | xread => exact .inr (.inl ⟨rfl, kind_handleXread h⟩)
    | wait => exact .inr (.inr ⟨rfl, kind_handleWait hb h⟩)
    | acl => exact hno (pendingBlock_handleAcl args store) h _
    | publish => exact hno (pendingBlock_handlePublish args store) h _
    | subscribe => exact hno (pendingBlock_handleSubscribe args store client) h _
    | unsubscribe => exact hno (pendingBlock_handleUnsubscribe args store client) h _
    | config => exact hno (congrArg Store.pendingBlock (store.handleConfigGet_snd args)) h _
    | auth | ping | echo | info | replconf | psync | data _ => exact hno rfl h _

theorem keys_dispatchCommand {clock : Readings} {args : List Bytes} {store : Store F}
    {client : ClientState} (hb : store.pendingBlock = none) {b : BlockRequest F}
    (h : (dispatchCommand clock args store client).2.1.pendingBlock = some b)
    (hk : b.kind = .list) :
    commandName (upperName args) = some .blpop ∧ b.keys = args.tail.dropLast := by
  rcases blocks_dispatchCommand hb h with ⟨hn, -, hkeys⟩ | ⟨-, hkind⟩ | ⟨-, hkind⟩
  · exact ⟨hn, hkeys⟩
  · rw [hkind] at hk
    cases hk
  · rw [hkind] at hk
    cases hk

theorem keys_handleCommand (hP : PopClosed P) {args : List Bytes} (h : P args)
    {clock : ℕ → Readings} {store : Store F} (hb : store.pendingBlock = none) {client : ClientState}
    {b : BlockRequest F} (hpb : (handleCommand clock args store client).2.1.pendingBlock = some b)
    (hk : b.kind = .list) : ∀ key ∈ b.keys, P [ascii "LPOP", key] := by
  have hd := handled_handleCommand clock args store client
  generalize handleCommand clock args store client = r at hd hpb
  generalize commandCalls clock args store client = calls at hd
  cases hd with
  | refused _ => simp [hb] at hpb
  | steered hs => simp [hs.block, hb] at hpb
  | queued _ _ _ => simp [hb] at hpb
  | dispatched _ _ _ =>
    obtain ⟨hn, hkeys⟩ := keys_dispatchCommand hb hpb hk
    intro key hmem
    exact hP args key h hn (hkeys ▸ hmem)
  | exec _ _ =>
    unfold execTransaction at hpb
    dsimp only at hpb
    split at hpb
    · simp [hb] at hpb
    · rw [(traced_execQueue _ _ (by exact hb) _).2] at hpb
      cases hpb

end Args

end TrueStore
