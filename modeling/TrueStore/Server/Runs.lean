import TrueStore.Server.Frame

/-! # The log and the stream follow the calls

Along every run of the server, its data come about by its calls, its log holds exactly the calls
that were successful writes, and a server without a primary passes the same writes to its
replicas.
-/

namespace TrueStore

open RespType

variable {F : Type} [Platform F]

/-- A logged command, or the logged part of a transaction. -/
inductive Entry where
  | direct (args : List Bytes)
  | transaction (commands : List (List Bytes))

namespace Entry

def commands : Entry → List (List Bytes)
  | direct args => [args]
  | transaction commands => commands

def bytes : Entry → Bytes
  | direct args => encode args
  | transaction commands => Server.transactionBytes commands

end Entry

/-- The bytes are a log of the commands. -/
def IsLog (commands : List (List Bytes)) (bytes : Bytes) : Prop :=
  ∃ entries : List Entry,
    entries.flatMap Entry.commands = commands ∧ entries.flatMap Entry.bytes = bytes

theorem IsLog.nil : IsLog [] [] := ⟨[], rfl, rfl⟩

theorem IsLog.append {commands commands' : List (List Bytes)} {bytes bytes' : Bytes}
    (h : IsLog commands bytes) (h' : IsLog commands' bytes') :
    IsLog (commands ++ commands') (bytes ++ bytes') := by
  obtain ⟨entries, rfl, rfl⟩ := h
  obtain ⟨entries', rfl, rfl⟩ := h'
  exact ⟨entries ++ entries', by simp, by simp⟩

theorem isLog_direct (commands : List (List Bytes)) : IsLog commands (commands.flatMap encode) :=
  ⟨commands.map .direct, by simp [List.flatMap_map, Entry.commands],
    by simp [List.flatMap_map, Entry.bytes]⟩

theorem isLog_transaction (commands : List (List Bytes)) :
    IsLog commands (if commands = [] then [] else Server.transactionBytes commands) := by
  split
  · rename_i h
    exact h ▸ .nil
  · exact ⟨[.transaction commands], by simp [Entry.commands], by simp [Entry.bytes]⟩

def writes (items : List Propagation) : List (List Bytes) :=
  (items.map Propagation.args).filter fun args => isWriteCommand (upperName args)

theorem writes_append (items items' : List Propagation) :
    writes (items ++ items') = writes items ++ writes items' := by
  simp [writes]

theorem writes_map {commands : List (List Bytes)} (client : Option ℤ)
    (h : ∀ args ∈ commands, isWriteCommand (upperName args) = true) :
    writes (commands.map (⟨client, ·⟩)) = commands := by
  simpa [writes, List.map_map, Function.comp_def] using h

theorem isWriteCommand_of_mem_loggedArgs {calls : List (Call F)} {args : List Bytes}
    (h : args ∈ loggedArgs calls) : isWriteCommand (upperName args) = true := by
  obtain ⟨c, hc, rfl⟩ := List.mem_map.mp h
  have := (List.mem_filter.mp hc).2
  rw [Call.logged, Bool.and_eq_true] at this
  exact this.1

namespace Server

variable {P : List Bytes → Prop} {T : Readings → Prop}

/-- Between two steps nothing is left to propagate or to block. -/
structure Settled (P : List Bytes → Prop) (s : Server F) : Prop where
  block : s.store.pendingBlock = none
  pending : s.store.pendingPropagations = []
  asks : s.Asking P

/-- The data change by calls, and the log grows. -/
structure Advance (P : List Bytes → Prop) (T : Readings → Prop) (calls : List (Call F))
    (bytes : Bytes) (s s' : Server F) : Prop where
  chain : Chain s.store.toKeyspace calls s'.store.toKeyspace
  calls_eq : s'.calls = s.calls ++ calls
  fits : ∀ c ∈ calls, c.Fits P T
  aof : s'.aof = if s.aofOpen then s.aof ++ bytes else s.aof
  aofOpen : s'.aofOpen = s.aofOpen
  masterFd : s'.masterFd = s.masterFd
  settled : s'.Settled P

structure Passes (items : List Propagation) (s s' : Server F) : Prop where
  stream : s'.stream = s.stream ++ items
  offset : s'.store.masterReplOffset = s.store.masterReplOffset + (streamBytes items).length

theorem Advance.trans {s s₁ s₂ : Server F} {calls calls' : List (Call F)} {bytes bytes' : Bytes}
    (h : Advance P T calls bytes s s₁) (h' : Advance P T calls' bytes' s₁ s₂) :
    Advance P T (calls ++ calls') (bytes ++ bytes') s s₂ where
  chain := h.chain.trans h'.chain
  calls_eq := by rw [h'.calls_eq, h.calls_eq, List.append_assoc]
  fits c hc := (List.mem_append.mp hc).elim (h.fits c) (h'.fits c)
  aof := by
    rw [h'.aof, h.aof, h.aofOpen]
    split
    · rw [List.append_assoc]
    · rfl
  aofOpen := h'.aofOpen.trans h.aofOpen
  masterFd := h'.masterFd.trans h.masterFd
  settled := h'.settled

theorem Passes.trans {s s₁ s₂ : Server F} {items items' : List Propagation}
    (h : Passes items s s₁) (h' : Passes items' s₁ s₂) : Passes (items ++ items') s s₂ where
  stream := by rw [h'.stream, h.stream, List.append_assoc]
  offset := by
    rw [h'.offset, h.offset, streamBytes_append, List.length_append]
    push_cast
    ring

theorem Frame.passes {s s' : Server F} {items : List Propagation} {bytes : Bytes}
    (h : Frame P items bytes s s') : Passes items s s' :=
  ⟨h.stream, h.offset⟩

theorem Frame.advance {s s' : Server F} {items : List Propagation} {bytes : Bytes}
    (h : Frame P items bytes s s') (hs : s.Settled P) : Advance P T [] bytes s s' where
  chain := .of_eq h.data
  calls_eq := by simp [h.calls]
  fits c hc := by cases hc
  aof := h.aof
  aofOpen := h.aofOpen
  masterFd := h.masterFd
  settled := ⟨h.block.trans hs.block, h.pending.trans hs.pending, h.asks hs.asks⟩

/-- A step of a client: what it logs and what it passes to the replicas are its writes. -/
def Accounted (P : List Bytes → Prop) (T : Readings → Prop) (s s' : Server F) : Prop :=
  ∃ calls items bytes, Advance P T calls bytes s s' ∧ Passes items s s' ∧
    IsLog (loggedArgs calls) bytes ∧ writes items = loggedArgs calls

theorem Accounted.trans {s s₁ s₂ : Server F} (h : Accounted P T s s₁) (h' : Accounted P T s₁ s₂) :
    Accounted P T s s₂ := by
  obtain ⟨calls, items, bytes, ha, hp, hl, hw⟩ := h
  obtain ⟨calls', items', bytes', ha', hp', hl', hw'⟩ := h'
  refine ⟨calls ++ calls', items ++ items', bytes ++ bytes', ha.trans ha', hp.trans hp', ?_, ?_⟩
  · rw [loggedArgs_append]
    exact hl.append hl'
  · rw [loggedArgs_append, writes_append, hw, hw']

theorem Frame.accounted {s s' : Server F} {items : List Propagation}
    (h : Frame P items [] s s') (hw : writes items = []) (hs : s.Settled P) : Accounted P T s s' :=
  ⟨[], items, [], h.advance hs, h.passes, .nil, hw⟩

theorem Accounted.settled {s s' : Server F} (h : Accounted P T s s') : s'.Settled P := by
  obtain ⟨_, _, _, ha, -⟩ := h
  exact ha.settled

/-- The command has been run and its writes are still to be logged. -/
structure Ran (P : List Bytes → Prop) (T : Readings → Prop) (command : List Bytes)
    (client : ClientState) (s : Server F)
    (r : Bytes × Server F) (calls : List (Call F)) : Prop where
  chain : Chain s.store.toKeyspace calls r.2.store.toKeyspace
  calls_eq : r.2.calls = s.calls ++ calls
  fits : ∀ c ∈ calls, c.Fits P T
  logged : loggedArgs calls = ownArgs command client r.1 ++ r.2.store.pendingPropagations
  keys : ∀ b, r.2.store.pendingBlock = some b → b.kind = .list →
    ∀ key ∈ b.keys, P [ascii "LPOP", key]
  asks : r.2.Asking P
  offset : r.2.store.masterReplOffset = s.store.masterReplOffset
  rest : r.2.aof = s.aof ∧ r.2.aofOpen = s.aofOpen ∧ r.2.masterFd = s.masterFd ∧
    r.2.stream = s.stream

theorem ran_handle (hP : PopClosed P) {args : List Bytes} (ha : P args) {s : Server F}
    (hs : s.Settled P) {env : Env} {number : ℕ} (hT : ∀ i, T (env.clock number i)) (fd : ℤ) :
    ∃ calls, Ran P T args (s.clients.getD fd {}) s (s.handle env number fd args) calls := by
  have hq := hs.asks.getD fd
  obtain ⟨hchain, queued, hpend, hlog, -⟩ :=
    traced_handleCommand (env.clock number) args hs.block (s.clients.getD fd {})
  obtain ⟨hkept, hqueue⟩ :=
    kept_handleCommand (env.clock number) args hs.block (s.clients.getD fd {})
  refine ⟨_, hchain, rfl, fits_commandCalls hP ha hT _ _ hq, ?_, fun b hb hk => ?_, ?_, hkept.offset,
    rfl, rfl, rfl, rfl⟩
  · rw [hlog]
    simp only [handle, hpend, hs.pending, List.nil_append]
  · exact keys_handleCommand hP ha hs.block hb hk
  · refine hs.asks.insert fd rfl (fun a h => ?_) fun _ hw => hw
    rcases hqueue a h with h | rfl
    · exact hq a h
    · exact ha

def cleared (s : Server F) : Server F :=
  { s with store := { s.store with pendingPropagations := [] } }

def unblocked (s : Server F) : Server F := { s with store := { s.store with pendingBlock := none } }

theorem Frame.cleared {s s' : Server F} {items : List Propagation} {bytes : Bytes}
    (h : Frame P items bytes s s') : Frame P items bytes s.cleared s'.cleared where
  data := h.data
  block := h.block
  pending := rfl
  calls := h.calls
  aof := h.aof
  aofOpen := h.aofOpen
  masterFd := h.masterFd
  stream := h.stream
  offset := h.offset
  asks hs := (h.asks (hs.congr rfl rfl)).congr rfl rfl

theorem logOwn_eq (args : List Bytes) (client : ClientState) (reply : Bytes) (s : Server F) :
    s.logOwn args client.inMulti reply =
      (ownArgs args client reply).foldl (fun s args => s.append args) s := by
  unfold logOwn ownArgs directArgs
  cases client.inMulti
  · simp only [Bool.not_false, Bool.true_and, Bool.false_eq_true, if_false]
    split <;> rfl
  · rfl

theorem propagateOwn_eq (env : Env) (fd : ℤ) (args : List Bytes) (client : ClientState)
    (reply : Bytes) (s : Server F) :
    (if !client.inMulti && isWriteCommand (upperName args) && !isError reply then
      s.propagate env fd args else s) = propagateAll env fd (ownArgs args client reply) s := by
  unfold ownArgs directArgs
  cases client.inMulti
  · simp only [Bool.not_false, Bool.true_and, Bool.false_eq_true, if_false]
    split <;> rfl
  · rfl

theorem frame_logPending (inMulti : Bool) (s : Server F) :
    ∃ bytes, IsLog s.store.pendingPropagations bytes ∧
      Frame P [] bytes s (s.logPending inMulti) := by
  unfold logPending
  cases inMulti
  · exact ⟨_, isLog_direct _, frame_appendAll ..⟩
  · exact ⟨_, isLog_transaction _, frame_appendTransaction ..⟩

theorem frame_publish (env : Env) (fd : ℤ) (args : List Bytes) (client : ClientState)
    (reply : Bytes) (s : Server F) :
    ∃ bytes, IsLog (ownArgs args client reply ++ s.store.pendingPropagations) bytes ∧
      Frame P ((ownArgs args client reply ++ s.store.pendingPropagations).map (⟨some fd, ·⟩)) bytes
        s.cleared (s.publish env fd args client.inMulti reply) := by
  have h₁ : Frame P [] _ s (s.logOwn args client.inMulti reply) :=
    logOwn_eq args client reply s ▸ frame_appendAll _ s
  have h₂ := h₁.trans (frame_propagateAll env fd (ownArgs args client reply)
    (s.logOwn args client.inMulti reply))
  rw [← propagateOwn_eq] at h₂
  obtain ⟨bytes, hlog, h₃⟩ := frame_logPending (P := P) client.inMulti
    (if !client.inMulti && isWriteCommand (upperName args) && !isError reply then
      (s.logOwn args client.inMulti reply).propagate env fd args
      else s.logOwn args client.inMulti reply)
  have h₄ := (h₂.trans h₃).cleared.trans (frame_propagateAll env fd s.store.pendingPropagations _)
  rw [h₂.pending] at hlog
  refine ⟨_, (isLog_direct _).append hlog, ?_⟩
  simp only [List.nil_append, List.append_nil, List.map_append] at h₄ ⊢
  unfold publish
  dsimp only
  rw [h₂.pending]
  exact h₄

theorem frame_block {env : Env} {fd : ℤ} {b : BlockRequest F}
    (hk : b.kind = .list → ∀ key ∈ b.keys, P [ascii "LPOP", key]) (s : Server F) :
    ∃ items, writes items = [] ∧ Frame P items [] s (s.block env fd b) := by
  have hadd : ∀ (s : Server F) (w : Waiter),
      (w.kind = .list → ∀ key ∈ w.keys, P [ascii "LPOP", key]) →
      Frame P [] [] s { s with waiters := s.waiters ++ [w] } := by
    intro s w hw
    refine ⟨rfl, rfl, rfl, rfl, by simp, rfl, rfl, by simp, by simp [streamBytes], fun hs => ?_⟩
    exact ⟨hs.queue, fun w' hm => (List.mem_append.mp hm).elim (hs.keys w')
      fun h => List.mem_singleton.mp h ▸ hw⟩
  unfold block
  split
  · dsimp only
    split
    · exact ⟨[], rfl, frame_sendAcked ..⟩
    · exact ⟨_, by decide, (frame_sendToReplicas env none _ s).andThen
        (hadd _ _ fun h => by cases h)⟩
  · exact ⟨[], rfl, hadd s _ hk⟩

theorem frame_respond (env : Env) (fd : ℤ) (reply : Bytes) {s : Server F}
    (hk : ∀ b, s.store.pendingBlock = some b → b.kind = .list →
      ∀ key ∈ b.keys, P [ascii "LPOP", key]) :
    ∃ items, writes items = [] ∧ Frame P items [] s.unblocked (s.respond env fd reply).2 := by
  unfold respond
  split
  · rename_i b hb
    exact frame_block (hk b hb) _
  · rename_i hb
    have hs : s.unblocked = s := by
      unfold unblocked
      rw [← hb]
    refine ⟨[], rfl, ?_⟩
    rw [hs]
    split
    · exact .refl s
    · dsimp only
      split
      · exact frame_send ..
      · exact (frame_send ..).andThen (frame_closeClient ..)

theorem Frame.unblocked {s s' : Server F} {items : List Propagation} {bytes : Bytes}
    (h : Frame P items bytes s s') : Frame P items bytes s.unblocked s'.unblocked where
  data := h.data
  block := rfl
  pending := h.pending
  calls := h.calls
  aof := h.aof
  aofOpen := h.aofOpen
  masterFd := h.masterFd
  stream := h.stream
  offset := h.offset
  asks hs := (h.asks (hs.congr rfl rfl)).congr rfl rfl

theorem Ran.advance {args : List Bytes} {client : ClientState} {s s' : Server F}
    {r : Bytes × Server F} {calls : List (Call F)} {items : List Propagation} {bytes : Bytes}
    (hr : Ran P T args client s r calls) (h : Frame P items bytes r.2.cleared.unblocked s') :
    Advance P T calls bytes s s' ∧ Passes items s s' := by
  obtain ⟨haof, hopen, hfd, hstream⟩ := hr.rest
  refine ⟨⟨?_, ?_, hr.fits, ?_, h.aofOpen.trans hopen, h.masterFd.trans hfd, h.block, h.pending, ?_⟩,
    ?_, ?_⟩
  · rw [h.data]
    exact hr.chain
  · rw [h.calls]
    exact hr.calls_eq
  · rw [h.aof]
    simp only [unblocked, cleared, haof, hopen]
  · exact h.asks (hr.asks.congr rfl rfl)
  · rw [h.stream]
    simp only [unblocked, cleared, hstream]
  · rw [h.offset]
    simp only [unblocked, cleared, hr.offset]

theorem accounted_command (hP : PopClosed P) {args : List Bytes} (ha : P args) {s : Server F}
    (hs : s.Settled P) {env : Env} (hT : ∀ i, T (env.clock 0 i)) (fd : ℤ) :
    Accounted P T s (s.command env fd args) := by
  unfold command
  split
  · exact (Frame.refl s).accounted rfl hs
  rename_i client hclient
  split
  · exact (frame_acknowledge fd _ s).accounted rfl hs
  have hget : s.clients.getD fd {} = client := by
    simp [Std.ExtTreeMap.getD_eq_getD_getElem?, hclient]
  obtain ⟨calls, hr⟩ := ran_handle hP ha hs hT fd
  rw [hget] at hr
  set r := s.handle env 0 fd args
  have hreg := frame_register (P := P) fd args client.inMulti r.1 r.2
  obtain ⟨bytes, hlog, hpub⟩ := frame_publish (P := P) env fd args client r.1
    (r.2.register fd args client.inMulti r.1)
  rw [hreg.pending, ← hr.logged] at hlog hpub
  have h₁ := hreg.cleared.trans hpub
  have hblock : ((r.2.register fd args client.inMulti r.1).publish env fd args client.inMulti
      r.1).store.pendingBlock = r.2.store.pendingBlock := hpub.block.trans hreg.block
  obtain ⟨items, hitems, hresp⟩ := frame_respond env fd r.1 (hblock ▸ hr.keys)
  have h₂ := h₁.unblocked.trans hresp
  have hw : writes ([] ++ (loggedArgs calls).map (⟨some fd, ·⟩) ++ items) = loggedArgs calls := by
    rw [List.nil_append, writes_append, hitems, List.append_nil]
    exact writes_map (some fd) fun a h => isWriteCommand_of_mem_loggedArgs h
  rw [List.nil_append bytes, List.append_nil bytes] at h₂
  dsimp only
  split
  · obtain ⟨hadv, hpass⟩ := hr.advance (h₂.andThen (frame_finish env fd _))
    exact ⟨calls, _, bytes, hadv, hpass, hlog, hw⟩
  · obtain ⟨hadv, hpass⟩ := hr.advance h₂
    exact ⟨calls, _, bytes, hadv, hpass, hlog, hw⟩

theorem accounted_serveWaiter {w : Waiter}
    (hw : w.kind = .list → ∀ key ∈ w.keys, P [ascii "LPOP", key]) {s : Server F}
    (hs : s.Settled P) (env : Env) : Accounted P T s (s.serveWaiter env w).2 := by
  unfold serveWaiter
  split
  · split
    · exact (frame_sendAcked ..).accounted rfl hs
    · exact (Frame.refl s).accounted rfl hs
  · rename_i hkind
    split
    · exact (Frame.refl s).accounted rfl hs
    · rename_i key value store hpop
      obtain ⟨hmem, rest, hlist, rfl⟩ := Store.tryBlpop_eq_some hpop
      have hlog := loggedArgs_pop hlist
      have hpending : (s.store.popped key rest).pendingPropagations = [[ascii "LPOP", key]] := by
        simp [Store.popped, Store.queuePropagation, hs.pending]
      dsimp only
      rw [hpending]
      have hframe := ((frame_append (P := P) [ascii "LPOP", key] { s with
        store := { s.store.popped key rest with pendingPropagations := [] }
        calls := s.calls ++ [Call.pop s.store.toKeyspace key] }).trans
          (frame_propagate env w.fd [ascii "LPOP", key] _)).andThen
            (frame_send env w.fd (array [key, value]).toBytes .served _)
      refine ⟨[Call.pop s.store.toKeyspace key], _, _,
        ⟨?_, hframe.calls, ?_, hframe.aof, hframe.aofOpen, hframe.masterFd,
          hframe.block.trans hs.block, hframe.pending, hframe.asks (hs.asks.congr rfl rfl)⟩,
        ⟨hframe.stream, hframe.offset⟩, ?_, ?_⟩
      · refine .call _ rfl ?_
        rw [Call.result_pop hlist]
        exact .of_eq hframe.data
      · exact List.forall_mem_singleton.mpr ⟨by simp [hlist], hw hkind key hmem⟩
      · rw [hlog, List.append_nil]
        exact ⟨[.direct _], rfl, by simp [Entry.bytes]⟩
      · rw [hlog]
        exact writes_map (some w.fd) (List.forall_mem_singleton.mpr (isWriteCommand_lpop key))
  · split
    · exact (Frame.refl s).accounted rfl hs
    · exact (frame_send ..).accounted rfl hs

theorem accounted_serveAll (env : Env) {ws : List Waiter}
    (hw : ∀ w ∈ ws, w.kind = .list → ∀ key ∈ w.keys, P [ascii "LPOP", key]) {s : Server F}
    (hs : s.Settled P) :
    Accounted P T s (serveAll env ws s).2 ∧ ∀ w ∈ (serveAll env ws s).1, w ∈ ws := by
  induction ws generalizing s with
  | nil => exact ⟨(Frame.refl s).accounted rfl hs, fun w h => h⟩
  | cons w ws ih =>
    have h₁ := accounted_serveWaiter (T := T) (hw w List.mem_cons_self) hs env
    obtain ⟨h₂, hkeep⟩ := ih (fun w' h => hw w' (List.mem_cons_of_mem _ h)) h₁.settled
    refine ⟨h₁.trans h₂, fun w' h => ?_⟩
    simp only [serveAll] at h
    split at h
    · exact List.mem_cons_of_mem _ (hkeep w' h)
    · rcases List.mem_cons.mp h with rfl | h
      · exact List.mem_cons_self
      · exact List.mem_cons_of_mem _ (hkeep w' h)

theorem accounted_round (env : Env) {s : Server F} (hs : s.Settled P) :
    Accounted P T s ((s.serveWaiters env).expireWaiters env) := by
  obtain ⟨h₁, hkeep⟩ := accounted_serveAll (T := T) env hs.asks.keys hs
  have h₂ : Accounted P T (serveAll env s.waiters s).2 (s.serveWaiters env) :=
    (frame_waiters fun w hw => hs.asks.keys w (hkeep w hw)).accounted rfl h₁.settled
  exact (h₁.trans h₂).trans
    ((frame_expireWaiters env h₂.settled.asks).accounted rfl h₂.settled)

theorem frame_accept (fd : ℤ) (s : Server F) : Frame P [] [] s (s.accept fd) := by
  unfold accept
  split
  · exact .refl s
  · exact ⟨rfl, rfl, rfl, rfl, by simp, rfl, rfl, by simp, by simp [streamBytes],
      fun h => h.insert fd rfl (fun a ha => by cases ha) fun _ hw => hw⟩

def Event.Carries (P : List Bytes → Prop) : Event → Prop
  | .request _ r => P r.args
  | _ => True

def Event.isLocal : Event → Bool
  | .chunk _ | .masterClosed => false
  | _ => true

theorem accounted_step (hP : PopClosed P) {s : Server F} (hs : s.Settled P) {env : Env}
    (hT : ∀ n i, T (env.clock n i)) {event : Event} (he : event.Carries P)
    (hm : s.masterFd = none ∨ event.isLocal = true) :
    Accounted P T s (s.step env event) := by
  have hrefl : Accounted P T s s := (Frame.refl s).accounted rfl hs
  unfold step
  split
  · exact hrefl
  · cases event with
    | accept fd => exact (frame_accept fd s).accounted rfl hs
    | request fd r =>
      dsimp only
      split
      · exact hrefl
      · exact accounted_command hP he hs (hT 0) fd
    | hangup fd =>
      dsimp only
      split
      · exact (frame_closeClient fd s).accounted rfl hs
      · exact hrefl
    | chunk bytes =>
      simp only [fromMaster, hm.resolve_right (by simp [Event.isLocal])]
      exact hrefl
    | masterClosed =>
      simp only [masterClosed, hm.resolve_right (by simp [Event.isLocal])]
      exact hrefl
    | round => exact accounted_round env hs

/-- The data come about by the calls, from the data at the start, and the log holds the writes
among the calls. -/
structure LoggedFrom (base : Keyspace F) (P : List Bytes → Prop) (T : Readings → Prop)
    (s : Server F) : Prop where
  chain : Chain base s.calls s.store.toKeyspace
  fits : ∀ c ∈ s.calls, c.Fits P T
  log : s.aofOpen = true → IsLog (loggedArgs s.calls) s.aof
  settled : s.Settled P

/-- The data come about by the calls alone. -/
abbrev Logged (P : List Bytes → Prop) (T : Readings → Prop) (s : Server F) : Prop :=
  LoggedFrom {} P T s

variable {base : Keyspace F}

/-- Moreover the replicas are sent these writes, and the offset counts the bytes. -/
structure Streamed (s : Server F) : Prop where
  masterFd : s.masterFd = none
  writes : writes s.stream = loggedArgs s.calls
  offset : s.store.masterReplOffset = (streamBytes s.stream).length

theorem LoggedFrom.advance {s s' : Server F} {calls : List (Call F)} {bytes : Bytes}
    (h : s.LoggedFrom base P T) (ha : Advance P T calls bytes s s')
    (hl : IsLog (loggedArgs calls) bytes) : s'.LoggedFrom base P T where
  chain := ha.calls_eq ▸ h.chain.trans ha.chain
  fits c hc := by
    rw [ha.calls_eq] at hc
    exact (List.mem_append.mp hc).elim (h.fits c) (ha.fits c)
  log ho := by
    rw [ha.aofOpen] at ho
    rw [ha.calls_eq, loggedArgs_append, ha.aof, if_pos ho]
    exact (h.log ho).append hl
  settled := ha.settled

theorem LoggedFrom.frame {s s' : Server F} {items : List Propagation} (h : s.LoggedFrom base P T)
    (hf : Frame P items [] s s') : s'.LoggedFrom base P T :=
  h.advance (hf.advance h.settled) .nil

theorem Streamed.accounted {s s' : Server F} (h : s.Logged P T) (hs : s.Streamed)
    (ha : Accounted P T s s') : s'.Logged P T ∧ s'.Streamed := by
  obtain ⟨calls, items, bytes, hadv, hpass, hlog, hw⟩ := ha
  refine ⟨h.advance hadv hlog, hadv.masterFd.trans hs.masterFd, ?_, ?_⟩
  · rw [hpass.stream, hadv.calls_eq, writes_append, loggedArgs_append, hs.writes, hw]
  · rw [hpass.offset, hpass.stream, hs.offset, streamBytes_append, List.length_append]
    push_cast
    ring

theorem logged_start (config : Config) (replid : ReplId) :
    (start config replid : Server F).Logged P T where
  chain := .nil _
  fits c hc := by cases hc
  log _ := .nil
  settled := ⟨rfl, rfl, fun fd client h => by simp [start] at h, fun w hw => by cases hw⟩

theorem streamed_start (config : Config) (replid : ReplId) :
    (start config replid : Server F).Streamed :=
  ⟨rfl, rfl, rfl⟩

/-- The log and the stream of a server without a primary, after any run. -/
theorem logged_run (hP : PopClosed P) {events : List (Env × Event)}
    (he : ∀ e ∈ events, e.2.Carries P) (hT : ∀ e ∈ events, ∀ n i, T (e.1.clock n i)) {s : Server F}
    (h : s.Logged P T) (hs : s.Streamed) :
    (run events s).Logged P T ∧ (run events s).Streamed ∧ (run events s).aofOpen = s.aofOpen := by
  induction events generalizing s with
  | nil => exact ⟨h, hs, rfl⟩
  | cons e events ih =>
    have ha := accounted_step hP h.settled (hT e List.mem_cons_self) (he e List.mem_cons_self)
      (.inl hs.masterFd)
    obtain ⟨h', hs'⟩ := hs.accounted h ha
    obtain ⟨hrun, hsrun, hopen⟩ := ih (fun e' hm => he e' (List.mem_cons_of_mem _ hm))
      (fun e' hm => hT e' (List.mem_cons_of_mem _ hm)) h' hs'
    obtain ⟨_, _, _, hadv, -⟩ := ha
    exact ⟨hrun, hsrun, hopen.trans hadv.aofOpen⟩

section Anything

def Anything : List Bytes → Prop := fun _ => True

def Always : Readings → Prop := fun _ => True

theorem popClosed_anything : PopClosed Anything := fun _ _ _ _ _ => trivial

theorem frame_replicaOffset (s : Server F) (replicaOffset : ℤ) :
    Frame P [] [] s { s with replicaOffset } :=
  ⟨rfl, rfl, rfl, rfl, by simp, rfl, rfl, by simp, by simp [streamBytes], fun h => h.congr rfl rfl⟩

theorem LoggedFrom.obey {s : Server F} (h : s.LoggedFrom base Anything Always) (env : Env)
    (number : ℕ) (fd : ℤ) (args : List Bytes) :
    (s.obey env number fd args).LoggedFrom base Anything Always := by
  obtain ⟨calls, hr⟩ := ran_handle popClosed_anything (show Anything args from trivial) h.settled
    (fun i => show Always (env.clock number i) from trivial) fd
  have hown := frame_appendAll (P := Anything)
    (ownArgs args (s.clients.getD fd {}) (s.handle env number fd args).1)
    (s.handle env number fd args).2
  rw [← logOwn_eq] at hown
  obtain ⟨bytes, hlog, hpend⟩ := frame_logPending (P := Anything) (s.clients.getD fd {}).inMulti
    ((s.handle env number fd args).2.logOwn args (s.clients.getD fd {}).inMulti
      (s.handle env number fd args).1)
  rw [hown.pending] at hlog
  obtain ⟨hadv, -⟩ := hr.advance (hown.trans hpend).cleared.unblocked
  exact h.advance hadv (hr.logged ▸ (isLog_direct _).append hlog)

theorem LoggedFrom.replicate {st : ℕ × Server F} (h : st.2.LoggedFrom base Anything Always)
    (env : Env) (fd : ℤ) (args : List Bytes) (consumed : ℕ) :
    (replicate env fd args consumed st).1.2.LoggedFrom base Anything Always := by
  unfold Server.replicate
  refine LoggedFrom.frame ?_ (frame_replicaOffset _ _)
  split
  · exact h.frame (frame_send ..)
  · exact h.obey env st.1 fd args

theorem LoggedFrom.congr {s s' : Server F} (h : s.LoggedFrom base P T) (hcalls : s'.calls = s.calls)
    (haof : s'.aof = s.aof ∧ s'.aofOpen = s.aofOpen)
    (hasks : s'.clients = s.clients ∧ s'.waiters = s.waiters)
    (hdata : s'.store.toKeyspace = s.store.toKeyspace)
    (hleft : s'.store.pendingBlock = s.store.pendingBlock ∧
      s'.store.pendingPropagations = s.store.pendingPropagations) : s'.LoggedFrom base P T where
  chain := hcalls ▸ hdata ▸ h.chain
  fits := hcalls ▸ h.fits
  log ho := hcalls ▸ haof.1 ▸ h.log (haof.2 ▸ ho)
  settled := ⟨hleft.1.trans h.settled.block, hleft.2.trans h.settled.pending,
    h.settled.asks.congr hasks.1 hasks.2⟩

theorem LoggedFrom.fromMaster {s : Server F} (h : s.LoggedFrom base Anything Always) (env : Env)
    (chunk : Bytes) :
    (s.fromMaster env chunk).LoggedFrom base Anything Always := by
  unfold Server.fromMaster
  split
  · exact h
  · rename_i fd _
    split
    · exact h
    · have hfeed := Framing.consume_preserves (parseCommand unlimited) (Server.replicate env fd)
        (I := fun st => st.2.LoggedFrom base Anything Always)
        (fun args n st (hst : st.2.LoggedFrom base Anything Always) => hst.replicate env fd args n)
        (s.masterBuffer ++ chunk).length
        (show ((0, s) : ℕ × Server F).2.LoggedFrom base Anything Always from h)
        (s.masterBuffer ++ chunk)
      dsimp only
      split
      · exact hfeed.congr rfl ⟨rfl, rfl⟩ ⟨rfl, rfl⟩ rfl ⟨rfl, rfl⟩
      · exact (hfeed.frame (frame_closeClient fd _)).congr rfl ⟨rfl, rfl⟩ ⟨rfl, rfl⟩ rfl ⟨rfl, rfl⟩
      · exact hfeed.congr rfl ⟨rfl, rfl⟩ ⟨rfl, rfl⟩ rfl ⟨rfl, rfl⟩

theorem Event.carries_anything (event : Event) : event.Carries Anything := by
  cases event <;> trivial

theorem LoggedFrom.step {s : Server F} (h : s.LoggedFrom base Anything Always) (env : Env)
    (event : Event) :
    (s.step env event).LoggedFrom base Anything Always := by
  by_cases hl : event.isLocal = true
  · obtain ⟨calls, items, bytes, hadv, -, hlog, -⟩ :=
      accounted_step (T := Always) popClosed_anything h.settled (fun _ _ => trivial)
        event.carries_anything (.inr hl)
    exact h.advance hadv hlog
  · unfold Server.step
    split
    · exact h
    · cases event with
      | chunk bytes => exact h.fromMaster env bytes
      | masterClosed =>
        dsimp only
        unfold Server.masterClosed
        split
        · exact h
        · split
          · exact h
          · exact (h.frame (frame_closeClient _ s)).congr rfl ⟨rfl, rfl⟩ ⟨rfl, rfl⟩ rfl ⟨rfl, rfl⟩
      | _ => exact absurd rfl hl

theorem logged_boot (config : Config) (replid : ReplId) (link : Option (ℤ × ℤ)) :
    (boot config replid link : Server F).Logged P T := by
  cases link with
  | none => exact logged_start config replid
  | some link =>
    have h : (start config replid : Server F).Logged P T := logged_start config replid
    exact ⟨h.chain, h.fits, h.log, h.settled.block, h.settled.pending,
      h.settled.asks.insert link.1 rfl (fun a ha => by cases ha) fun _ hw => hw⟩

theorem run_preserves {I : Server F → Prop} (h : ∀ s env event, I s → I (s.step env event))
    (events : List (Env × Event)) {s : Server F} (hs : I s) : I (run events s) := by
  induction events generalizing s with
  | nil => exact hs
  | cons e events ih => exact ih (h s e.1 e.2 hs)

theorem Logged.run (config : Config) (replid : ReplId) (link : Option (ℤ × ℤ))
    (events : List (Env × Event)) :
    (run events (boot config replid link : Server F)).Logged Anything Always :=
  run_preserves (fun _ env event h => h.step env event) events (logged_boot config replid link)

theorem chain_run (config : Config) (replid : ReplId) (link : Option (ℤ × ℤ))
    (events : List (Env × Event)) :
    Chain {} (run events (boot config replid link)).calls
      (run events (boot config replid link : Server F)).store.toKeyspace :=
  (Logged.run config replid link events).chain

end Anything

end Server

end TrueStore
