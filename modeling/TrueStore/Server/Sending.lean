import TrueStore.Server.Frame

/-! # What the loop sends

The operations of the loop send for different purposes: the writes of a request go to the
replicas, a request has at most one reply, and messages come last. A result about one purpose
passes over the operations that only send for the others.
-/

namespace TrueStore

open RespType

variable {F : Type} [Platform F]

def Purpose.isAnswer : Purpose → Bool
  | reply | served => true
  | _ => false

/-- The payload is for a replica, or it answers a `WAIT`. -/
def Purpose.isReplication : Purpose → Bool
  | stream | ack _ | waited _ _ _ => true
  | _ => false

namespace Server

/-- All that is sent has an allowed purpose, there are no new calls, and the messages that wait
are left alone. -/
structure Sends (allowed : Purpose → Prop) (s s' : Server F) : Prop where
  calls : s'.calls = s.calls
  messages : s'.store.pendingMessages = s.store.pendingMessages
  sends : ∃ new, s'.sends = s.sends ++ new ∧ ∀ x ∈ new, allowed x.purpose

namespace Sends

variable {allowed : Purpose → Prop} {s s₁ s₂ : Server F}

theorem trans (h : Sends allowed s s₁) (h' : Sends allowed s₁ s₂) : Sends allowed s s₂ := by
  obtain ⟨new, hnew, hall⟩ := h.sends
  obtain ⟨new', hnew', hall'⟩ := h'.sends
  refine ⟨h'.calls.trans h.calls, h'.messages.trans h.messages, new ++ new', ?_, ?_⟩
  · rw [hnew', hnew, List.append_assoc]
  · intro x hx
    exact (List.mem_append.mp hx).elim (hall x) (hall' x)

theorem of_eq (hm : s₁.store.pendingMessages = s.store.pendingMessages)
    (hs : s₁.sends = s.sends) (hc : s₁.calls = s.calls) : Sends allowed s s₁ :=
  ⟨hc, hm, [], by simp [hs], by simp⟩

theorem refl (s : Server F) : Sends allowed s s := of_eq rfl rfl rfl

theorem mono {allowed' : Purpose → Prop} (h : Sends allowed s s₁)
    (hle : ∀ p, allowed p → allowed' p) : Sends allowed' s s₁ := by
  obtain ⟨new, hnew, hall⟩ := h.sends
  exact ⟨h.calls, h.messages, new, hnew, fun x hx => hle _ (hall x hx)⟩

theorem after (h : Sends allowed s₁ s₂) (hm : s₁.store.pendingMessages = s.store.pendingMessages)
    (hs : s₁.sends = s.sends) (hc : s₁.calls = s.calls) : Sends allowed s s₂ :=
  (of_eq hm hs hc).trans h

theorem before (h : Sends allowed s s₁) (hm : s₂.store.pendingMessages = s₁.store.pendingMessages)
    (hs : s₂.sends = s₁.sends) (hc : s₂.calls = s₁.calls) : Sends allowed s s₂ :=
  h.trans (of_eq hm hs hc)

theorem send (env : Env) (fd : ℤ) (payload : Bytes) (purpose : Purpose) (hp : allowed purpose)
    (s : Server F) : Sends allowed s (s.send env fd payload purpose).2 :=
  ⟨rfl, rfl, _, rfl, fun x hx => by rwa [List.mem_singleton.mp hx]⟩

theorem sendAcked (env : Env) (fd target : ℤ) (s : Server F) :
    Sends (Purpose.isReplication · = true) s (s.sendAcked env fd target) :=
  send env fd _ _ (by rfl) s

theorem deliverAll (env : Env) (messages : List (ℤ × Bytes)) (s : Server F) :
    Sends (· = .message) s (deliverAll env messages s) := by
  induction messages generalizing s with
  | nil => exact refl s
  | cons m messages ih =>
    obtain ⟨recipient, message⟩ := m
    have hsend : Sends (· = .message) s (s.send env recipient message .message).2 :=
      send env recipient message .message (by rfl) s
    unfold Server.deliverAll
    dsimp only
    split
    · refine Sends.trans ?_ (ih _)
      split
      · exact hsend
      · exact hsend.before rfl rfl rfl
    · exact ih s

theorem sendToAll (env : Env) (payload : Bytes) (fds : List ℤ) (s : Server F) :
    Sends (· = .stream) s (sendToAll env payload fds s) := by
  induction fds generalizing s with
  | nil => exact refl s
  | cons fd fds ih =>
    have hsend : Sends (· = .stream) s (s.send env fd payload .stream).2 :=
      send env fd payload .stream (by rfl) s
    unfold Server.sendToAll
    dsimp only
    split
    · exact hsend.trans (ih _)
    · exact hsend.trans ((ih _).after rfl rfl rfl)

theorem sendToReplicas (env : Env) (client : Option ℤ) (args : List Bytes) (s : Server F) :
    Sends (· = .stream) s (s.sendToReplicas env client args) :=
  (sendToAll env (encode args) s.replicas.keys _).after rfl rfl rfl

theorem propagate (env : Env) (fd : ℤ) (args : List Bytes) (s : Server F) :
    Sends (· = .stream) s (s.propagate env fd args) :=
  (sendToReplicas env (some fd) args s).before rfl rfl rfl

theorem propagateAll (env : Env) (fd : ℤ) (queue : List (List Bytes)) (s : Server F) :
    Sends (· = .stream) s (propagateAll env fd queue s) := by
  induction queue generalizing s with
  | nil => exact refl s
  | cons args queue ih => exact (propagate env fd args s).trans (ih _)

theorem propagatePopped (env : Env) (fd : ℤ) (queue : List (List Bytes)) (s : Server F) :
    Sends (· = .stream) s
      (queue.foldl (fun s args => (s.append args).propagate env fd args) s) := by
  induction queue generalizing s with
  | nil => exact refl s
  | cons args queue ih =>
    have happend : Sends (· = .stream) s (s.append args) := of_eq rfl rfl rfl
    exact (happend.trans (propagate env fd args _)).trans (ih _)

theorem logPending (inMulti : Bool) (s : Server F) : Sends allowed s (s.logPending inMulti) := by
  have happend : ∀ (queue : List (List Bytes)) (s : Server F),
      Sends allowed s (queue.foldl (fun s args => s.append args) s) := by
    intro queue
    induction queue with
    | nil => exact fun s => refl s
    | cons args queue ih => exact fun s => (ih (s.append args)).after rfl rfl rfl
  unfold Server.logPending
  cases inMulti
  · exact happend _ s
  · exact of_eq rfl rfl rfl

theorem register (fd : ℤ) (args : List Bytes) (inMulti : Bool) (reply : Bytes) (s : Server F) :
    Sends allowed s (s.register fd args inMulti reply) := by
  unfold Server.register
  split
  · exact of_eq rfl rfl rfl
  · exact refl s

theorem publish (env : Env) (fd : ℤ) (args : List Bytes) (inMulti : Bool) (reply : Bytes)
    (s : Server F) : Sends (· = .stream) s (s.publish env fd args inMulti reply) := by
  have hlog : Sends (· = .stream) s (s.logOwn args inMulti reply) := by
    unfold logOwn
    split
    · exact of_eq rfl rfl rfl
    · exact refl s
  have hown : Sends (· = .stream) s
      (if !inMulti && isWriteCommand (upperName args) && !isError reply then
        (s.logOwn args inMulti reply).propagate env fd args else s.logOwn args inMulti reply) := by
    split
    · exact hlog.trans (propagate env fd args _)
    · exact hlog
  exact (hown.trans (logPending inMulti _)).trans ((propagateAll env fd _ _).after rfl rfl rfl)

theorem block (env : Env) (fd : ℤ) (b : BlockRequest F) (s : Server F) :
    Sends (Purpose.isReplication · = true) s (s.block env fd b) := by
  unfold Server.block
  split
  · dsimp only
    split
    · exact sendAcked env fd _ s
    · exact ((sendToReplicas env none _ s).mono fun p hp => by rw [hp]; rfl).before rfl rfl rfl
  · exact of_eq rfl rfl rfl

end Sends

/-- The answers to the clients, in the order in which they were sent. -/
def answers (s : Server F) : List Sent := s.sends.filter fun x => x.purpose.isAnswer

theorem Sends.answers_eq {allowed : Purpose → Prop} {s s' : Server F} (h : Sends allowed s s')
    (hno : ∀ p, allowed p → p.isAnswer = false) : s'.answers = s.answers := by
  obtain ⟨new, hnew, hall⟩ := h.sends
  have hnil : new.filter (fun x => x.purpose.isAnswer) = [] := by
    rw [List.filter_eq_nil_iff]
    intro x hx
    simp [hno _ (hall x hx)]
  rw [answers, answers, hnew, List.filter_append, hnil, List.append_nil]

theorem Sends.answers_of_stream {s s' : Server F} (h : Sends (· = .stream) s s') :
    s'.answers = s.answers :=
  h.answers_eq fun p hp => by rw [hp]; rfl

theorem Sends.answers_of_replication {s s' : Server F}
    (h : Sends (Purpose.isReplication · = true) s s') : s'.answers = s.answers :=
  h.answers_eq fun p hp => by cases p <;> first | rfl | cases hp

theorem answers_finish (env : Env) (fd : ℤ) (s : Server F) :
    (s.finish env fd).answers = s.answers ∧ (s.finish env fd).calls = s.calls := by
  have h := Sends.deliverAll env s.store.pendingMessages
    { s with store := { s.store with pendingMessages := [] } }
  have ha := h.answers_eq fun p hp => by rw [hp]; rfl
  unfold finish deliverMessages
  dsimp only
  split
  · exact ⟨ha, h.calls⟩
  · exact ⟨ha, h.calls⟩

theorem answers_send {env : Env} {fd : ℤ} {payload : Bytes} {purpose : Purpose}
    (hp : purpose.isAnswer = true) (s : Server F) :
    (s.send env fd payload purpose).2.answers =
      s.answers ++ [⟨fd, payload, purpose, env.sendOk s.sends.length⟩] := by
  simp [answers, send, List.filter_append, hp]

end Server

end TrueStore
