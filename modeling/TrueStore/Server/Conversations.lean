import TrueStore.Command.Replies
import TrueStore.Server.Consumers
import TrueStore.Server.Messages

/-! # Conversations

A client that waits does not stop the loop from running its next requests. Still every request of
a connection gets one answer, at once or when its client has waited, for as long as the connection
is open, and each message published to the connection reaches it once and in order.
-/

namespace TrueStore

open RespType

variable {F : Type} [Platform F]

theorem IsReply.ne_nil {reply : Bytes} (h : IsReply reply) : reply ≠ [] := by
  rintro rfl
  obtain ⟨value, hvalue⟩ := h.decodes
  have hnone : decode [] = none := by decide
  rw [hvalue.decode] at hnone
  cases hnone

namespace Store

theorem handleSubscribe_ne_nil (args : List Bytes) (s : Store F) (client : ClientState) :
    (s.handleSubscribe args client).1 ≠ [] := by
  unfold handleSubscribe
  split
  · exact List.append_ne_nil_of_left_ne_nil (toBytes_ne_nil _) _
  · exact toBytes_ne_nil _

theorem handleUnsubscribe_ne_nil (args : List Bytes) (s : Store F) (client : ClientState) :
    (s.handleUnsubscribe args client).1 ≠ [] := by
  unfold handleUnsubscribe
  split
  · exact toBytes_ne_nil _
  · rename_i hchannels
    obtain ⟨channel, channels, hcons⟩ := List.exists_cons_of_ne_nil hchannels
    rw [hcons]
    exact List.append_ne_nil_of_left_ne_nil (toBytes_ne_nil _) _

end Store

def Replies (r : Bytes × Store F × ClientState) : Prop :=
  r.1 ≠ [] ∨ r.2.1.pendingBlock.isSome = true

theorem replies_dispatchCommand (hprint : ∀ x : F, OneLine (Platform.toStringF x))
    (clock : Readings) {args : List Bytes} (hone : OneLine (args.headD [])) (store : Store F)
    (client : ClientState) : Replies (dispatchCommand clock args store client) := by
  by_cases hmany : upperName args ∈ manyReplies
  · left
    have hname : upperName args = ascii "PSYNC" ∨ upperName args = ascii "SUBSCRIBE" ∨
        upperName args = ascii "UNSUBSCRIBE" := by
      simpa [manyReplies] using hmany
    unfold dispatchCommand
    rcases hname with h | h | h
    · rw [h, show commandName (ascii "PSYNC") = some .psync by decide]
      exact List.append_ne_nil_of_left_ne_nil (toBytes_ne_nil _) _
    · rw [h, show commandName (ascii "SUBSCRIBE") = some .subscribe by decide]
      exact Store.handleSubscribe_ne_nil args store client
    · rw [h, show commandName (ascii "UNSUBSCRIBE") = some .unsubscribe by decide]
      exact Store.handleUnsubscribe_ne_nil args store client
  · rcases answered_dispatchCommand hprint clock hone hmany store client with hreply | ⟨-, hblock⟩
    · exact .inl hreply.ne_nil
    · exact .inr hblock

theorem execTransaction_ne_nil (clock : ℕ → Readings) (store : Store F) (client : ClientState) :
    (execTransaction clock store client).1 ≠ [] := by
  unfold execTransaction
  dsimp only
  split
  · exact toBytes_ne_nil _
  · simp [arrayHeader]

theorem replies_runCommand (hprint : ∀ x : F, OneLine (Platform.toStringF x)) (clock : ℕ → Readings)
    {args : List Bytes} (hone : OneLine (args.headD [])) (store : Store F) (client : ClientState) :
    Replies (runCommand clock args store client) := by
  unfold runCommand
  dsimp only
  repeat' split
  all_goals try exact .inl (toBytes_ne_nil _)
  · exact .inl (execTransaction_ne_nil clock store client)
  · exact replies_dispatchCommand hprint (clock 0) hone store client

theorem replies_handleCommand (hprint : ∀ x : F, OneLine (Platform.toStringF x))
    (clock : ℕ → Readings) (args : List Bytes) (store : Store F) (client : ClientState) :
    Replies (handleCommand clock args store client) := by
  by_cases hone : OneLine (args.headD [])
  · unfold handleCommand
    split
    · rename_i hrefusal
      exact .inl (isReply_refusal hone hrefusal).ne_nil
    · exact replies_runCommand hprint clock hone store client
  · left
    rw [handleCommand_of_not_oneLine clock hone store client]
    repeat' split
    all_goals exact toBytes_ne_nil _

def Purpose.isReply : Purpose → Bool
  | reply => true
  | _ => false

/-- The payload ends a wait, or answers a `WAIT`. -/
def Purpose.isLate : Purpose → Bool
  | served | waited _ _ _ => true
  | _ => false

namespace Server

def repliesSent (fd : ℤ) (s : Server F) : List Bytes :=
  (s.sends.filter fun x => x.fd = fd && x.purpose.isReply).map Sent.payload

def lateSent (fd : ℤ) (s : Server F) : ℕ := s.sends.countP fun x => x.fd = fd && x.purpose.isLate

def messagesSent (fd : ℤ) (s : Server F) : List Bytes :=
  (s.sends.filter fun x => x.fd = fd && x.isMessage).map Sent.payload

def waitsOf (fd : ℤ) (s : Server F) : ℕ := s.waiters.countP (·.fd = fd)

def parkedFor (fd : ℤ) (s : Server F) : List Bytes :=
  (s.store.pendingMessages.filter (·.1 = fd)).map Prod.snd

section Counting

variable {fd : ℤ} {allowed : Purpose → Prop} {s s₁ : Server F}

theorem Sends.filter_eq_nil {new : List Sent} (hall : ∀ x ∈ new, allowed x.purpose)
    {p : Purpose → Bool} (hno : ∀ q, allowed q → p q = false) :
    new.filter (fun x => x.fd = fd && p x.purpose) = [] :=
  List.filter_eq_nil_iff.mpr fun x hx => by simp [hno _ (hall x hx)]

theorem Sends.repliesSent_eq (h : Sends allowed s s₁) (hno : ∀ p, allowed p → p.isReply = false) :
    s₁.repliesSent fd = s.repliesSent fd := by
  obtain ⟨new, hnew, hall⟩ := h.sends
  rw [repliesSent, hnew, List.filter_append, Sends.filter_eq_nil hall hno, List.append_nil,
    repliesSent]

theorem Sends.lateSent_eq (h : Sends allowed s s₁) (hno : ∀ p, allowed p → p.isLate = false) :
    s₁.lateSent fd = s.lateSent fd := by
  obtain ⟨new, hnew, hall⟩ := h.sends
  rw [lateSent, List.countP_eq_length_filter, hnew, List.filter_append,
    Sends.filter_eq_nil hall hno, List.append_nil, lateSent, List.countP_eq_length_filter]

theorem Silent.messagesSent_eq (h : Silent s s₁) : s₁.messagesSent fd = s.messagesSent fd := by
  obtain ⟨new, hnew, hquiet⟩ := h.sends
  have hnil : new.filter (fun x => x.fd = fd && x.isMessage) = [] :=
    List.filter_eq_nil_iff.mpr fun x hx => by simp [hquiet x hx]
  rw [messagesSent, hnew, List.filter_append, hnil, List.append_nil, messagesSent]

end Counting

theorem waitsOf_closeClient {fd other : ℤ} (hne : other ≠ fd) (s : Server F) :
    (s.closeClient other).waitsOf fd = s.waitsOf fd := by
  rw [waitsOf, waitsOf, closeClient, List.countP_filter]
  apply List.countP_congr
  intro w _
  simp only [Bool.and_eq_true, decide_eq_true_eq]
  apply and_iff_left_of_imp
  rintro rfl
  exact hne.symm

/-- A connection gets some of the answers that end a wait, and nothing else. -/
structure Ends (fd : ℤ) (n : ℕ) (s s' : Server F) : Prop where
  replies : s'.repliesSent fd = s.repliesSent fd
  late : s'.lateSent fd = s.lateSent fd + n
  messages : s'.messagesSent fd = s.messagesSent fd
  parked : s'.store.pendingMessages = s.store.pendingMessages

namespace Ends

variable {fd : ℤ} {n n' : ℕ} {s s₁ s₂ : Server F}

theorem trans (h : Ends fd n s s₁) (h' : Ends fd n' s₁ s₂) : Ends fd (n + n') s s₂ where
  replies := h'.replies.trans h.replies
  late := by rw [h'.late, h.late, Nat.add_assoc]
  messages := h'.messages.trans h.messages
  parked := h'.parked.trans h.parked

theorem of_eq (hs : s₁.sends = s.sends)
    (hm : s₁.store.pendingMessages = s.store.pendingMessages) : Ends fd 0 s s₁ where
  replies := by simp [repliesSent, hs]
  late := by simp [lateSent, hs]
  messages := by simp [messagesSent, hs]
  parked := hm

theorem refl (s : Server F) : Ends fd 0 s s := of_eq rfl rfl

theorem of_stream (h : Sends (· = .stream) s s₁) : Ends fd 0 s s₁ := by
  constructor
  · exact h.repliesSent_eq (by rintro _ rfl; rfl)
  · exact h.lateSent_eq (by rintro _ rfl; rfl)
  · exact (Silent.of_stream h).messagesSent_eq
  · exact h.messages

theorem send (env : Env) (other : ℤ) (payload : Bytes) {purpose : Purpose}
    (hp : purpose.isLate = true) (s : Server F) :
    Ends fd (if other = fd then 1 else 0) s (s.send env other payload purpose).2 := by
  have hreply : purpose.isReply = false := by cases purpose <;> first | rfl | cases hp
  have hmessage : ∀ delivered, (⟨other, payload, purpose, delivered⟩ : Sent).isMessage = false := by
    intro delivered
    cases purpose <;> first | rfl | cases hp
  constructor
  · simp [repliesSent, Server.send, hreply]
  · simp [lateSent, Server.send, List.countP_append, hp]
  · simp [messagesSent, Server.send, hmessage]
  · rfl

end Ends

/-- Between two states some replies go to a connection, some of its requests block and some
messages are published to it. -/
structure Says (fd : ℤ) (replies : List Bytes) (blocked : ℕ) (messages : List Bytes)
    (s s' : Server F) : Prop where
  replies : s'.repliesSent fd = s.repliesSent fd ++ replies
  owed : s'.lateSent fd + s'.waitsOf fd = s.lateSent fd + s.waitsOf fd + blocked
  messages : s'.messagesSent fd ++ s'.parkedFor fd = s.messagesSent fd ++ s.parkedFor fd ++ messages

namespace Says

variable {fd : ℤ} {replies replies' messages messages' : List Bytes} {blocked blocked' : ℕ}
  {s s₁ s₂ : Server F}

theorem trans (h : Says fd replies blocked messages s s₁)
    (h' : Says fd replies' blocked' messages' s₁ s₂) :
    Says fd (replies ++ replies') (blocked + blocked') (messages ++ messages') s s₂ where
  replies := by rw [h'.replies, h.replies, List.append_assoc]
  owed := by rw [h'.owed, h.owed, Nat.add_assoc]
  messages := by rw [h'.messages, h.messages, List.append_assoc]

theorem of_eq (hs : s₁.sends = s.sends) (hw : s₁.waiters = s.waiters)
    (hm : s₁.store.pendingMessages = s.store.pendingMessages) : Says fd [] 0 [] s s₁ where
  replies := by simp [repliesSent, hs]
  owed := by simp [lateSent, waitsOf, hs, hw]
  messages := by simp [messagesSent, parkedFor, hs, hm]

theorem refl (s : Server F) : Says fd [] 0 [] s s := of_eq rfl rfl rfl

theorem of_ends {n : ℕ} (h : Ends fd n s s₁) (hw : s₁.waiters = s.waiters) :
    Says fd [] n [] s s₁ where
  replies := by rw [h.replies, List.append_nil]
  owed := by
    rw [h.late, waitsOf, hw, waitsOf]
    omega
  messages := by rw [h.messages, parkedFor, h.parked, parkedFor, List.append_nil]

theorem andThen (h : Says fd replies blocked messages s s₁) (h' : Says fd [] 0 [] s₁ s₂) :
    Says fd replies blocked messages s s₂ := by
  simpa using h.trans h'

theorem after (h : Says fd replies blocked messages s₁ s₂) (h' : Says fd [] 0 [] s s₁) :
    Says fd replies blocked messages s s₂ := by
  simpa using h'.trans h

theorem close {other : ℤ} (hne : other ≠ fd) (s : Server F) :
    Says fd [] 0 [] s (s.closeClient other) where
  replies := by simp [repliesSent, closeClient]
  owed := by
    rw [waitsOf_closeClient hne]
    rfl
  messages := by simp [messagesSent, parkedFor, closeClient, Store.removeSubscriber]

/-- The reply to a command, or the reply to another connection. -/
theorem reply (env : Env) (other : ℤ) (payload : Bytes) (s : Server F) :
    Says fd (if other = fd then [payload] else []) 0 [] s
      (s.send env other payload .reply).2 where
  replies := by
    by_cases h : other = fd <;> simp [repliesSent, send, Purpose.isReply, h]
  owed := by simp [lateSent, waitsOf, send, Purpose.isLate]
  messages := by simp [messagesSent, parkedFor, send, Sent.isMessage]

end Says

section Requests

variable {fd : ℤ} {env : Env}

theorem says_block (env : Env) (other : ℤ) (b : BlockRequest F) (s : Server F) :
    Says fd [] (if other = fd then 1 else 0) [] s (s.block env other b) := by
  have hwait : ∀ (w : Waiter) (s : Server F), w.fd = other →
      Says fd [] (if other = fd then 1 else 0) [] s { s with waiters := s.waiters ++ [w] } := by
    intro w s hw
    constructor
    · exact (List.append_nil _).symm
    · simp only [waitsOf, List.countP_append, List.countP_singleton, hw, decide_eq_true_eq]
      exact (Nat.add_assoc _ _ _).symm
    · exact (List.append_nil _).symm
  have hacked : ∀ target : ℤ,
      Says fd [] (if other = fd then 1 else 0) [] s (s.sendAcked env other target) :=
    fun target => .of_ends (.send env other _ rfl s) rfl
  generalize (if other = fd then 1 else 0) = n at hwait hacked ⊢
  unfold block
  split
  · dsimp only
    split
    · exact hacked _
    · have hstream := Sends.sendToReplicas env none [ascii "REPLCONF", ascii "GETACK", ascii "*"] s
      apply Says.after (hwait _ _ rfl)
      exact .of_ends (.of_stream hstream) (waiters_sendToAll _ _ _ _)
  · exact hwait _ s rfl

/-- A request that has been run blocks or is answered, if its connection stays open. -/
theorem says_respond (env : Env) {other : ℤ} {reply : Bytes} {s : Server F}
    (hopen : fd ∈ (s.respond env other reply).2.clients) :
    Says fd (if other = fd ∧ s.store.pendingBlock = none then [reply].filter (· ≠ []) else [])
      (if other = fd ∧ s.store.pendingBlock ≠ none then 1 else 0) [] s
      (s.respond env other reply).2 := by
  unfold respond at hopen ⊢
  cases hb : s.store.pendingBlock with
  | some b =>
    simp only [reduceCtorEq, and_false, if_false, ne_eq, not_false_eq_true, and_true]
    exact (says_block env other b _).after (.of_eq rfl rfl rfl)
  | none =>
    simp only [hb, and_true, not_true_eq_false, and_false, if_false, ne_eq] at hopen ⊢
    by_cases hnil : reply = []
    · simpa [hnil] using Says.refl s
    · have hsaid : Says fd (if other = fd then [reply] else []) 0 [] s
          (s.send env other reply .reply).2 := .reply env other reply s
      have hkept : [reply].filter (· ≠ []) = [reply] := by simp [hnil]
      simp only [if_neg hnil] at hopen ⊢
      rw [hkept]
      by_cases hok : (s.send env other reply .reply).1 = true
      · rw [if_pos hok]
        exact hsaid
      · rw [if_neg hok] at hopen ⊢
        exact hsaid.andThen (.close (mem_clients_closeClient.mp hopen).2.symm _)

theorem mem_of_mem_deliverAll (env : Env) (messages : List (ℤ × Bytes)) {s : Server F}
    (h : fd ∈ (deliverAll env messages s).clients) : fd ∈ s.clients := by
  induction messages generalizing s with
  | nil => exact h
  | cons m messages ih =>
    obtain ⟨recipient, message⟩ := m
    unfold deliverAll at h
    dsimp only at h
    split at h
    · have hmem := ih h
      split at hmem
      · exact hmem
      · exact (mem_clients_closeClient.mp hmem).1
    · exact ih h

theorem delivered_of_open (env : Env) (messages : List (ℤ × Bytes)) {s : Server F}
    (h : fd ∈ (deliverAll env messages s).clients) :
    (deliverAll env messages s).messagesSent fd =
      s.messagesSent fd ++ (messages.filter (·.1 = fd)).map Prod.snd ∧
    (deliverAll env messages s).waitsOf fd = s.waitsOf fd := by
  induction messages generalizing s with
  | nil => simp [deliverAll]
  | cons m messages ih =>
    obtain ⟨recipient, message⟩ := m
    have hmem := mem_of_mem_deliverAll env _ h
    have hsent : (s.send env recipient message .message).2.messagesSent fd =
        s.messagesSent fd ++ if recipient = fd then [message] else [] := by
      by_cases hr : recipient = fd <;> simp [messagesSent, send, Sent.isMessage, hr]
    unfold deliverAll at h ⊢
    dsimp only at h ⊢
    by_cases hcontains : s.clients.contains recipient = true
    · rw [if_pos hcontains] at h ⊢
      obtain ⟨hmessages, hwaits⟩ := ih h
      rw [hmessages, hwaits]
      by_cases hok : (s.send env recipient message .message).1 = true
      · rw [if_pos hok, hsent]
        constructor
        · by_cases hr : recipient = fd <;> simp [hr]
        · rfl
      · rw [if_neg hok] at h ⊢
        -- the connection of a message that could not be sent is not open any more
        have hne : recipient ≠ fd :=
          (mem_clients_closeClient.mp (mem_of_mem_deliverAll env _ h)).2.symm
        constructor
        · show (s.send env recipient message .message).2.messagesSent fd ++ _ = _
          rw [hsent]
          simp [hne]
        · exact waitsOf_closeClient hne _
    · rw [if_neg hcontains] at h ⊢
      have hne : recipient ≠ fd := by
        rintro rfl
        exact hcontains (by simpa using hmem)
      obtain ⟨hmessages, hwaits⟩ := ih h
      simp [hmessages, hwaits, hne]

theorem mem_of_mem_finish (env : Env) {other : ℤ} {s : Server F}
    (h : fd ∈ (s.finish env other).clients) : fd ∈ s.clients := by
  have hdeliver : fd ∈ (s.deliverMessages env).clients → fd ∈ s.clients := fun h =>
    mem_of_mem_deliverAll env s.store.pendingMessages
      (s := { s with store := { s.store with pendingMessages := [] } }) h
  unfold finish at h
  dsimp only at h
  split at h
  · exact hdeliver (mem_clients_closeClient.mp h).1
  · exact hdeliver h

theorem says_finish (env : Env) {other : ℤ} {s : Server F}
    (hopen : fd ∈ (s.finish env other).clients) : Says fd [] 0 [] s (s.finish env other) := by
  have hdeliver : fd ∈ (s.deliverMessages env).clients →
      Says fd [] 0 [] s (s.deliverMessages env) := by
    intro h
    obtain ⟨hmessages, hwaits⟩ := delivered_of_open env _ h
    have hsends := Sends.deliverAll env s.store.pendingMessages
      { s with store := { s.store with pendingMessages := [] } }
    have hleft : (s.deliverMessages env).store.pendingMessages = [] :=
      (sends_deliverAll env _ _).1
    constructor
    · rw [deliverMessages, hsends.repliesSent_eq (by rintro _ rfl; rfl), List.append_nil]
      rfl
    · rw [deliverMessages, hsends.lateSent_eq (by rintro _ rfl; rfl), hwaits]
      rfl
    · rw [parkedFor, hleft, deliverMessages, hmessages]
      simp [messagesSent, parkedFor]
  unfold finish at hopen ⊢
  dsimp only at hopen ⊢
  by_cases hquit : ((s.deliverMessages env).clients.getD other {}).closeAfterReply = true
  · rw [if_pos hquit] at hopen ⊢
    obtain ⟨hmem, hne⟩ := mem_clients_closeClient.mp hopen
    exact (hdeliver hmem).andThen (.close hne.symm _)
  · rw [if_neg hquit] at hopen ⊢
    exact hdeliver hopen

/-- What becomes of a request that is run: a reply, or nothing if it blocks. -/
def outcome (env : Env) (args : List Bytes) (client : ClientState) (s : Server F) : Option Bytes :=
  let r := handleCommand (env.clock 0) args s.store client
  if r.2.1.pendingBlock = none then some r.1 else none

/-- The outcome of a request of a connection, unless the loop intercepts it as an
acknowledgement. -/
def outcomes (fd : ℤ) (env : Env) (event : Event) (s : Server F) : List (Option Bytes) :=
  match event with
  | .request other r =>
    match s.clients[other]? with
    | none => []
    | some client =>
      if s.halted ∨ s.masterFd = some other ∨ (s.ackText r.args client).isSome ∨ other ≠ fd then []
      else [outcome env r.args client s]
  | _ => []

def publishedFor (fd : ℤ) (env : Env) (event : Event) (s : Server F) : List Bytes :=
  ((published env event s).filter (·.1 = fd)).map (·.2.2)

theorem says_handle (env : Env) {other : ℤ} {args : List Bytes} {s : Server F}
    {client : ClientState} (hclient : s.clients[other]? = some client) :
    Says fd [] 0 (((commandPublications (env.clock 0) args s.store client).filter
      (·.1 = fd)).map (·.2.2)) s (s.handle env 0 other args).2 := by
  have hget : s.clients.getD other {} = client := by
    simp [Std.ExtTreeMap.getD_eq_getD_getElem?, hclient]
  constructor
  · simp [repliesSent, handle]
  · simp [lateSent, waitsOf, handle]
  · simp only [messagesSent, parkedFor, handle, hget, pendingMessages_handleCommand, parked,
      List.filter_append, List.map_append, List.filter_map, List.map_map, List.append_assoc]
    rfl

theorem says_command (env : Env) {other : ℤ} {args : List Bytes} {s : Server F}
    {client : ClientState} (hclient : s.clients[other]? = some client)
    (hack : s.ackText args client = none) (hopen : fd ∈ (s.command env other args).clients) :
    Says fd (if other = fd then (outcome env args client s).toList.filter (· ≠ []) else [])
      (if other = fd ∧ outcome env args client s = none then 1 else 0)
      (((commandPublications (env.clock 0) args s.store client).filter (·.1 = fd)).map (·.2.2))
      s (s.command env other args) := by
  have hget : s.clients.getD other {} = client := by
    simp [Std.ExtTreeMap.getD_eq_getD_getElem?, hclient]
  have hsaid : Says fd [] 0 (((commandPublications (env.clock 0) args s.store client).filter
      (·.1 = fd)).map (·.2.2)) s (s.handle env 0 other args).2 := says_handle env hclient
  set r := s.handle env 0 other args with hr
  have hreply : r.1 = (handleCommand (env.clock 0) args s.store client).1 := by
    rw [hr, handle, hget]
  have hstore : r.2.store = (handleCommand (env.clock 0) args s.store client).2.1 := by
    rw [hr, handle, hget]
  set t := (r.2.register other args client.inMulti r.1).publish env other args client.inMulti r.1
    with ht
  have hstream : Sends (· = .stream) r.2 t :=
    (Sends.register other args client.inMulti r.1 r.2).trans
      (.publish env other args client.inMulti r.1 _)
  have hblock : t.store.pendingBlock = r.2.store.pendingBlock := by
    obtain ⟨_, -, hframe⟩ := frame_publish (P := Anything) env other args client r.1
      (r.2.register other args client.inMulti r.1)
    have hregister := frame_register (P := Anything) other args client.inMulti r.1 r.2
    exact hframe.block.trans hregister.block
  have hready : Says fd [] 0 [] r.2 t := by
    apply Says.of_ends (.of_stream hstream)
    rw [ht, waiters_publish, waiters_register]
  have hcommand : s.command env other args =
      if (t.respond env other r.1).1 then (t.respond env other r.1).2.finish env other
      else (t.respond env other r.1).2 := by
    unfold command
    simp only [hclient, hack, ← hr, ← ht]
  have hend : fd ∈ (t.respond env other r.1).2.clients ∧
      Says fd [] 0 [] (t.respond env other r.1).2 (s.command env other args) := by
    rw [hcommand] at hopen ⊢
    split at hopen
    · rename_i hgoes
      rw [if_pos hgoes]
      exact ⟨mem_of_mem_finish env hopen, says_finish env hopen⟩
    · rename_i hends
      rw [if_neg hends]
      exact ⟨hopen, .refl _⟩
  obtain ⟨hmem, hfinish⟩ := hend
  have hrespond := says_respond env hmem
  have houtcome : outcome env args client s =
      if t.store.pendingBlock = none then some r.1 else none := by
    rw [outcome, hblock, hstore, hreply]
  have hall := (hsaid.andThen hready).trans (hrespond.andThen hfinish)
  rw [houtcome]
  by_cases hb : t.store.pendingBlock = none
  · simp only [hb, and_true, not_true_eq_false, and_false, if_false, ne_eq, List.nil_append,
      List.append_nil, Nat.zero_add] at hall
    simpa [hb] using hall
  · simp only [hb, and_false, if_false, ne_eq, not_false_eq_true, and_true, List.append_nil,
      Nat.zero_add] at hall
    simpa [hb] using hall

end Requests

section Rounds

variable {fd : ℤ}

theorem ends_serveWaiter (env : Env) (w : Waiter) (s : Server F) :
    Ends fd (if (s.serveWaiter env w).1 = true ∧ w.fd = fd then 1 else 0) s
      (s.serveWaiter env w).2 := by
  have hsend : ∀ (payload : Bytes) (purpose : Purpose) (s : Server F), purpose.isLate = true →
      Ends fd (if w.fd = fd then 1 else 0) s (s.send env w.fd payload purpose).2 :=
    fun payload purpose s hp => .send env w.fd payload hp s
  unfold serveWaiter
  split
  · by_cases hcount : w.count ≤ s.countAcked w.targetOffset
    · simp only [hcount, if_true, true_and]
      exact hsend _ _ s rfl
    · simp only [hcount, if_false, Bool.false_eq_true, false_and]
      exact .refl s
  · split
    · simp only [Bool.false_eq_true, false_and, if_false]
      exact .refl s
    · rename_i key value store hpop
      obtain ⟨-, rest, -, rfl⟩ := Store.tryBlpop_eq_some hpop
      simp only [true_and]
      have hpopped : Ends fd 0 s { s with
          store := { s.store.popped key rest with pendingPropagations := [] }
          calls := s.calls ++ [Call.pop s.store.toKeyspace key] } := .of_eq rfl rfl
      have hstream := hpopped.trans (.of_stream (Sends.propagatePopped env w.fd
        (s.store.popped key rest).pendingPropagations _))
      simpa using hstream.trans (hsend _ _ _ rfl)
  · split
    · simp only [Bool.false_eq_true, false_and, if_false]
      exact .refl s
    · simp only [true_and]
      exact hsend _ _ s rfl

theorem ends_serveAll (env : Env) (ws : List Waiter) (s : Server F) :
    ∃ n, Ends fd n s (serveAll env ws s).2 ∧
      n + (serveAll env ws s).1.countP (·.fd = fd) = ws.countP (·.fd = fd) := by
  induction ws generalizing s with
  | nil => exact ⟨0, .refl s, rfl⟩
  | cons w ws ih =>
    obtain ⟨n, hends, hcount⟩ := ih (s.serveWaiter env w).2
    refine ⟨_, (ends_serveWaiter env w s).trans hends, ?_⟩
    simp only [serveAll]
    by_cases hserved : (s.serveWaiter env w).1 = true <;> by_cases hfd : w.fd = fd <;>
      simp [hserved, hfd] <;> omega

theorem ends_expireAll (env : Env) (ws : List Waiter) (s : Server F) :
    Ends fd (ws.countP fun w => w.fd = fd && w.expired env.now) s (expireAll env ws s) := by
  induction ws generalizing s with
  | nil => exact .refl s
  | cons w ws ih =>
    have hsend : ∀ (payload : Bytes) (purpose : Purpose), purpose.isLate = true →
        Ends fd (if w.fd = fd then 1 else 0) s (s.send env w.fd payload purpose).2 :=
      fun payload purpose hp => .send env w.fd payload hp s
    unfold expireAll
    by_cases hexpired : w.expired env.now = true
    · have hanswer : Ends fd (if w.fd = fd then 1 else 0) s
          (if w.kind = .wait then s.sendAcked env w.fd w.targetOffset
          else (s.send env w.fd nullArray.toBytes .served).2) := by
        by_cases hkind : w.kind = .wait
        · rw [if_pos hkind]
          exact hsend _ _ rfl
        · rw [if_neg hkind]
          exact hsend _ _ rfl
      rw [if_pos hexpired]
      have hall := hanswer.trans (ih _)
      rw [List.countP_cons]
      simpa [hexpired, Nat.add_comm] using hall
    · rw [if_neg hexpired, List.countP_cons]
      simpa [hexpired] using ih s

theorem says_round (env : Env) (s : Server F) :
    Says fd [] 0 [] s ((s.serveWaiters env).expireWaiters env) := by
  obtain ⟨n, hends, hcount⟩ : ∃ n, Ends fd n s (serveAll env s.waiters s).2 ∧
      n + (serveAll env s.waiters s).1.countP (·.fd = fd) = s.waiters.countP (·.fd = fd) :=
    ends_serveAll env s.waiters s
  have hexpire : Ends fd ((s.serveWaiters env).waiters.countP fun w =>
      w.fd = fd && w.expired env.now) (s.serveWaiters env)
      (expireAll env (s.serveWaiters env).waiters (s.serveWaiters env)) :=
    ends_expireAll env _ _
  have hwaiters : (s.serveWaiters env).waiters = (serveAll env s.waiters s).1 := rfl
  have hserve : Ends fd 0 (serveAll env s.waiters s).2 (s.serveWaiters env) := .of_eq rfl rfl
  have hround := (hends.trans hserve).trans hexpire
  constructor
  · rw [List.append_nil]
    exact hround.replies
  · have hlate : ((s.serveWaiters env).expireWaiters env).lateSent fd = _ := hround.late
    have hwaits : ((s.serveWaiters env).expireWaiters env).waitsOf fd =
        (serveAll env s.waiters s).1.countP fun w => w.fd = fd && !w.expired env.now := by
      rw [waitsOf, expireWaiters, List.countP_filter, hwaiters]
    have hsplit := List.countP_eq_countP_filter_add (serveAll env s.waiters s).1
      (fun w => decide (w.fd = fd)) fun w => w.expired env.now
    simp only [List.countP_filter] at hsplit
    rw [hlate, hwaits, hwaiters, waitsOf, ← hcount, hsplit]
    omega
  · have hmessages : ((s.serveWaiters env).expireWaiters env).messagesSent fd = s.messagesSent fd :=
      hround.messages
    have hparked : ((s.serveWaiters env).expireWaiters env).store.pendingMessages = _ :=
      hround.parked
    rw [hmessages, parkedFor, hparked, List.append_nil, parkedFor]

end Rounds

section Runs

variable {fd : ℤ}

def repliesIn (fd : ℤ) (env : Env) (event : Event) (s : Server F) : List Bytes :=
  (outcomes fd env event s).reduceOption.filter (· ≠ [])

def blocksIn (fd : ℤ) (env : Env) (event : Event) (s : Server F) : ℕ :=
  (outcomes fd env event s).countP Option.isNone

theorem says_request (env : Env) {other : ℤ} {r : Request} {s : Server F}
    (hh : s.halted = false) (hm : s.masterFd = none)
    (hopen : fd ∈ (s.command env other r.args).clients) :
    Says fd (repliesIn fd env (.request other r) s) (blocksIn fd env (.request other r) s)
      (publishedFor fd env (.request other r) s) s (s.command env other r.args) := by
  cases hclient : s.clients[other]? with
  | none =>
    have hsame : s.command env other r.args = s := by simp only [command, hclient]
    rw [hsame]
    simpa [repliesIn, blocksIn, outcomes, publishedFor, published, hclient] using Says.refl s
  | some client =>
    cases hack : s.ackText r.args client with
    | some text =>
      have hsame : s.command env other r.args = s.acknowledge other text := by
        simp only [command, hclient, hack]
      have hquiet : Says fd [] 0 [] s (s.acknowledge other text) := by
        unfold acknowledge
        split
        · exact .of_eq rfl rfl rfl
        · exact .refl s
      rw [hsame]
      simpa [repliesIn, blocksIn, outcomes, publishedFor, published, hclient, hack] using hquiet
    | none =>
      have hsaid := says_command env hclient hack hopen
      by_cases hfd : other = fd
      · subst hfd
        cases ho : outcome env r.args client s <;>
          simpa [repliesIn, blocksIn, outcomes, publishedFor, published, hclient, hack, hh, hm, ho]
            using hsaid
      · simpa [repliesIn, blocksIn, outcomes, publishedFor, published, hclient, hack, hh, hm, hfd]
          using hsaid

theorem says_step (env : Env) (event : Event) {s : Server F} (hm : s.masterFd = none)
    (hopen : fd ∈ (s.step env event).clients) :
    Says fd (repliesIn fd env event s) (blocksIn fd env event s) (publishedFor fd env event s) s
      (s.step env event) := by
  have hquiet : (∀ other r, event ≠ .request other r) → ∀ {s' : Server F}, Says fd [] 0 [] s s' →
      Says fd (repliesIn fd env event s) (blocksIn fd env event s) (publishedFor fd env event s)
        s s' := by
    intro hother s' h
    cases event with
    | request other r => exact absurd rfl (hother other r)
    | _ => exact h
  unfold step at hopen ⊢
  by_cases hh : s.halted = true
  · rw [if_pos hh]
    cases event with
    | request other r =>
      cases hclient : s.clients[other]? <;>
        simpa [repliesIn, blocksIn, outcomes, publishedFor, published, hclient, hh]
          using Says.refl s
    | _ => exact .refl s
  · rw [if_neg hh] at hopen ⊢
    cases event with
    | accept other =>
      apply hquiet (by simp)
      dsimp only [accept]
      split
      · exact .refl s
      · exact .of_eq rfl rfl rfl
    | request other r =>
      simp only [hm, reduceCtorEq, if_false] at hopen ⊢
      exact says_request env (by simpa using hh) hm hopen
    | hangup other =>
      apply hquiet (by simp)
      dsimp only at hopen ⊢
      split at hopen
      · rename_i hcontains
        rw [if_pos hcontains]
        exact .close (mem_clients_closeClient.mp hopen).2.symm s
      · rename_i hcontains
        rw [if_neg hcontains]
        exact .refl s
    | chunk bytes =>
      simp only [fromMaster, hm]
      exact hquiet (by simp) (.refl s)
    | masterClosed =>
      simp only [masterClosed, hm]
      exact hquiet (by simp) (.refl s)
    | round => exact hquiet (by simp) (says_round env s)

def StaysOpen (fd : ℤ) : List (Env × Event) → Server F → Prop
  | [], s => fd ∈ s.clients
  | (env, event) :: events, s => fd ∈ s.clients ∧ StaysOpen fd events (s.step env event)

instance decidableStaysOpen (fd : ℤ) :
    (events : List (Env × Event)) → (s : Server F) → Decidable (StaysOpen fd events s)
  | [], s => inferInstanceAs (Decidable (fd ∈ s.clients))
  | (env, event) :: events, s =>
    have := decidableStaysOpen fd events (s.step env event)
    inferInstanceAs (Decidable (fd ∈ s.clients ∧ StaysOpen fd events (s.step env event)))

/-- What becomes of the requests of a connection along a run. -/
def conversation (fd : ℤ) : List (Env × Event) → Server F → List (Option Bytes)
  | [], _ => []
  | (env, event) :: events, s =>
    outcomes fd env event s ++ conversation fd events (s.step env event)

def publications (fd : ℤ) : List (Env × Event) → Server F → List Bytes
  | [], _ => []
  | (env, event) :: events, s =>
    publishedFor fd env event s ++ publications fd events (s.step env event)

theorem StaysOpen.mem {events : List (Env × Event)} {s : Server F} (h : StaysOpen fd events s) :
    fd ∈ s.clients := by
  cases events with
  | nil => exact h
  | cons e events => exact h.1

theorem says_run (config : Config) (replid : ReplId) (before during : List (Env × Event))
    (hopen : StaysOpen fd during (run before (start config replid : Server F))) :
    let s : Server F := run before (start config replid)
    Says fd ((conversation fd during s).reduceOption.filter (· ≠ []))
      ((conversation fd during s).countP Option.isNone) (publications fd during s) s
      (run during s) := by
  induction during generalizing before with
  | nil => exact .refl _
  | cons e during ih =>
    obtain ⟨env, event⟩ := e
    obtain ⟨-, hrest⟩ := hopen
    have hbefore : run (before ++ [(env, event)]) (start config replid : Server F) =
        (run before (start config replid)).step env event := run_append _ _ _
    have hstep := says_step env event (Agrees.run config replid before).masterFd hrest.mem
    have hrun := ih (before ++ [(env, event)]) (hbefore ▸ hrest)
    rw [hbefore] at hrun
    simpa only [conversation, publications, run, List.reduceOption_append, List.filter_append,
      List.countP_append, repliesIn, blocksIn] using hstep.trans hrun

theorem ne_nil_of_mem_conversation (hprint : ∀ x : F, OneLine (Platform.toStringF x))
    {during : List (Env × Event)} {s : Server F} {reply : Bytes}
    (h : some reply ∈ conversation fd during s) : reply ≠ [] := by
  induction during generalizing s with
  | nil => cases h
  | cons e during ih =>
    obtain ⟨env, event⟩ := e
    rcases List.mem_append.mp h with h | h
    · cases event with
      | request other r =>
        simp only [outcomes] at h
        split at h
        · cases h
        · rename_i client _
          split at h
          · cases h
          · have houtcome := List.mem_singleton.mp h
            unfold outcome at houtcome
            dsimp only at houtcome
            split at houtcome
            · rename_i hfree
              cases houtcome
              apply (replies_handleCommand hprint (env.clock 0) r.args s.store client).resolve_right
              simp [hfree]
            · cases houtcome
      | _ => cases h
    · exact ih h

/-- As long as a connection is open, each of its requests gets one answer: the replies to the
requests that do not block, none of them empty, are sent in the order of the requests, and every
request that blocks is answered once or still waits. Nothing else is sent as an answer. -/
theorem requests_answered_once (hprint : ∀ x : F, OneLine (Platform.toStringF x)) (config : Config)
    (replid : ReplId) (fd : ℤ) (before during : List (Env × Event))
    (hopen : StaysOpen fd during (run before (start config replid : Server F))) :
    let s : Server F := run before (start config replid)
    let t := run during s
    t.repliesSent fd = s.repliesSent fd ++ (conversation fd during s).reduceOption ∧
      (∀ reply, some reply ∈ conversation fd during s → reply ≠ []) ∧
      t.lateSent fd + t.waitsOf fd =
        s.lateSent fd + s.waitsOf fd + (conversation fd during s).countP Option.isNone := by
  intro s t
  have hsaid := says_run config replid before during hopen
  have hkept : (conversation fd during s).reduceOption.filter (· ≠ []) =
      (conversation fd during s).reduceOption := by
    apply List.filter_eq_self.mpr
    intro reply hreply
    simpa using ne_nil_of_mem_conversation hprint (List.reduceOption_mem_iff.mp hreply)
  refine ⟨?_, fun reply h => ne_nil_of_mem_conversation hprint h, hsaid.owed⟩
  rw [← hkept]
  exact hsaid.replies

def impatient : List (Env × Event) :=
  [asks 5 [ascii "BLPOP", ascii "k", ascii "0"] (by decide),
    asks 5 [ascii "ECHO", ascii "v"] (by decide),
    asks 6 [ascii "RPUSH", ascii "k", ascii "v"] (by decide), (.still, .round)]

def connecting : List (Env × Event) := [(.still, .accept 5), (.still, .accept 6)]

theorem requests_answered_once_impatient :
    let s : Server Whole := run connecting (start {} .zeros)
    let t := run impatient s
    (t.repliesSent 5 = s.repliesSent 5 ++ (conversation 5 impatient s).reduceOption ∧
      (∀ reply, some reply ∈ conversation 5 impatient s → reply ≠ []) ∧
      t.lateSent 5 + t.waitsOf 5 =
        s.lateSent 5 + s.waitsOf 5 + (conversation 5 impatient s).countP Option.isNone) ∧
      conversation 5 impatient s = [none, some (ascii "$1\r\nv\r\n")] ∧ t.lateSent 5 = 1 := by
  have hprint : ∀ x : Whole, OneLine (Platform.toStringF x) := fun x =>
    (oneLine_decimalInt x).append (by decide)
  refine ⟨?_, by decide, by decide⟩
  exact requests_answered_once hprint {} .zeros 5 connecting impatient (by decide)

/-- No event of a run loses the reply to a request that published something. -/
def NeverStrands (events : List (Env × Event)) (s : Server F) : Prop :=
  ∀ (j : ℕ) (env : Env) (event : Event), events[j]? = some (env, event) →
    strands env event (run (events.take j) s) = false

theorem none_parked {config : Config} {replid : ReplId} {events : List (Env × Event)}
    (h : NeverStrands events (start config replid : Server F)) :
    (run events (start config replid : Server F)).store.pendingMessages = [] := by
  have hprefix : ∀ j ≤ events.length,
      (run (events.take j) (start config replid : Server F)).store.pendingMessages = [] := by
    intro j hj
    induction j with
    | zero => rfl
    | succ j ih =>
      have he : events[j]? = some (events[j].1, events[j].2) := List.getElem?_eq_getElem hj
      rw [run_take_succ he]
      have hmaster := (Agrees.run config replid (events.take j) (F := F)).masterFd
      exact (delivers_step hmaster (ih (Nat.le_of_succ_le hj)) (h j _ _ he)).none_left
  simpa using hprefix events.length le_rfl

/-- As long as a connection is open, the messages published to it are sent once each and in
order, and those that are still parked come last. None is parked for anyone if no reply to a
request that published something failed to be sent. -/
theorem messages_in_order (config : Config) (replid : ReplId) (fd : ℤ)
    (before during : List (Env × Event))
    (hopen : StaysOpen fd during (run before (start config replid : Server F))) :
    let s : Server F := run before (start config replid)
    let t := run during s
    t.messagesSent fd ++ t.parkedFor fd =
        s.messagesSent fd ++ s.parkedFor fd ++ publications fd during s ∧
      (NeverStrands (before ++ during) (start config replid : Server F) →
        t.store.pendingMessages = []) := by
  intro s t
  constructor
  · exact (says_run config replid before during hopen).messages
  · intro hnever
    rw [show t = run (before ++ during) (start config replid) from (run_append _ _ _).symm]
    exact none_parked hnever

def repeating : List (Env × Event) :=
  [asks 5 [ascii "SUBSCRIBE", ascii "news"] (by decide),
    asks 6 [ascii "PUBLISH", ascii "news", ascii "one"] (by decide),
    asks 6 [ascii "PUBLISH", ascii "news", ascii "two"] (by decide)]

theorem messages_in_order_repeating :
    let s : Server Whole := run connecting (start {} .zeros)
    let t := run repeating s
    (t.messagesSent 5 ++ t.parkedFor 5 =
        s.messagesSent 5 ++ s.parkedFor 5 ++ publications 5 repeating s ∧
      (NeverStrands (connecting ++ repeating) (start {} .zeros : Server Whole) →
        t.store.pendingMessages = [])) ∧
      (t.messagesSent 5).length = 2 := by
  refine ⟨?_, by decide⟩
  exact messages_in_order {} .zeros 5 connecting repeating (by decide)

end Runs

end Server

end TrueStore
