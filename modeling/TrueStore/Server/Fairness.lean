import TrueStore.Invariants.ListElements
import TrueStore.Server.Consumers
import TrueStore.Server.Wakeups

/-! # The order in which blocked clients are served

The clients that `BLPOP` blocks are served by the round at the end of each iteration of the event
loop, in the order in which they blocked. Until then a command of the same iteration may take an
element that was pushed in it.
-/

namespace TrueStore

open RespType

variable {F : Type} [Platform F]

namespace Keyspace

theorem listAt_assign (ks : Keyspace F) (key value : Bytes) :
    (ks.assign key value).listAt key = [] := by
  simp [assign, eraseOthers, listAt]

end Keyspace

namespace Call

open Keyspace

theorem listAt_of_overwrites {key : Bytes} {c : Call F} (h : c.overwrites key = true) :
    c.result.2.listAt key = [] := by
  cases c with
  | pop data k => cases h
  | run clock data args =>
    simp only [overwrites, Bool.and_eq_true, Option.any_eq_true, decide_eq_true_eq,
      Bool.not_eq_true'] at h
    obtain ⟨⟨command, hd, hdest⟩, herr⟩ := h
    have hx : execute clock args data = command.dispatch clock args data := by
      simp only [execute, hd]
    rw [hx] at herr
    simp only [Call.result, hx]
    cases command with
    | set =>
      rw [DataCommand.dispatch_of_compatible rfl] at herr ⊢
      rcases handleSet_cases clock args data with ⟨he, -⟩ | ⟨_, k, value, rfl, hk⟩ |
        ⟨_, k, value, _, _, rfl, t, hk⟩
      · simp [DataCommand.handle, he] at herr
      · obtain rfl : k = key := by simpa [DataCommand.destination] using hdest
        simp only [DataCommand.handle, hk]
        exact listAt_assign data k value
      · obtain rfl : k = key := by simpa [DataCommand.destination] using hdest
        simp only [DataCommand.handle, hk]
        exact listAt_assign _ k value
    | bitop =>
      rw [DataCommand.dispatch_of_compatible rfl] at herr ⊢
      rcases handleBitop_cases clock args data with ⟨he, -⟩ |
        ⟨_, _, k, _, _, operation, values, rfl, -, -, -, hk⟩
      · simp [DataCommand.handle, he] at herr
      · obtain rfl : k = key := by simpa [DataCommand.destination] using hdest
        simp only [DataCommand.handle, hk]
        simp [storeBits, eraseOthers, listAt]
    | _ => simp [DataCommand.destination] at hdest

theorem pushed_of_listAt {key : Bytes} {c : Call F} (hd : c.data.listAt key = [])
    (hr : c.result.2.listAt key ≠ []) : c.pushed key ≠ [] := by
  cases ho : c.overwrites key with
  | true => exact absurd (listAt_of_overwrites ho) hr
  | false =>
    rcases listAt_result key ho with ⟨-, hlist⟩ | ⟨-, hlist | hlist⟩
    · rw [hd] at hlist
      exact absurd (List.append_eq_nil_iff.mp hlist.symm).2 hr
    · rwa [hlist, hd, List.nil_append] at hr
    · rw [hlist, hd, List.append_nil] at hr
      exact fun h => hr (by rw [h, List.reverse_nil])

end Call

theorem Chain.split {ks ks' : Keyspace F} {before : List (Call F)} {c : Call F}
    {after : List (Call F)} (h : Chain ks (before ++ c :: after) ks') : Chain ks before c.data := by
  generalize hcalls : before ++ c :: after = calls at h
  induction h generalizing before with
  | nil ks => simp at hcalls
  | evict clock k _ ih => exact .evict clock k (ih hcalls)
  | call c' hdata hrest ih =>
    rcases before with _ | ⟨b, before⟩
    · obtain ⟨rfl, -⟩ := List.cons.inj hcalls
      exact hdata ▸ .nil _
    · obtain ⟨rfl, heq⟩ := List.cons.inj hcalls
      exact .call b hdata (ih heq)

theorem Chain.listAt_last {ks ks' : Keyspace F} {calls : List (Call F)} (h : Chain ks calls ks')
    (key : Bytes) : ks'.listAt key =
      (calls.getLast?.map fun c => c.result.2.listAt key).getD (ks.listAt key) := by
  induction h with
  | nil ks => rfl
  | evict clock k _ ih => rw [ih, Keyspace.listAt_evict]
  | @call _ _ calls c hdata _ ih =>
    rw [ih, List.getLast?_cons]
    cases calls.getLast? <;> rfl

/-- What a call finds in a list that was empty before has been pushed since. -/
theorem Chain.pushed_since {key : Bytes} {ks ks₁ ks₂ : Keyspace F} {old new : List (Call F)}
    (h₁ : Chain ks old ks₁) (h₂ : Chain ks (old ++ new) ks₂) (he : ks₁.listAt key = [])
    (hne : ks₂.listAt key ≠ []) : ∃ c ∈ new, c.pushed key ≠ [] := by
  induction new using List.reverseRecOn generalizing ks₂ with
  | nil =>
    rw [List.append_nil] at h₂
    rw [h₂.listAt_last key, ← h₁.listAt_last key] at hne
    exact absurd he hne
  | append_singleton new c ih =>
    rw [← List.append_assoc] at h₂
    have hlast := h₂.listAt_last key
    rw [List.getLast?_concat] at hlast
    by_cases hd : c.data.listAt key = []
    · refine ⟨c, by simp, Call.pushed_of_listAt hd ?_⟩
      rwa [hlast] at hne
    · obtain ⟨c', hmem, hpushed⟩ := ih h₂.split hd
      exact ⟨c', List.mem_append_left _ hmem, hpushed⟩

theorem listAt_handleBlpop {args : List Bytes} {store : Store F} {b : BlockRequest F}
    (h : (store.handleBlpop args).2.pendingBlock = some b) :
    ∀ key ∈ b.keys, (store.handleBlpop args).2.listAt key = [] := by
  revert h
  unfold Store.handleBlpop
  dsimp only
  repeat' split
  all_goals intro h
  · cases h
  · cases h
  · rename_i hp
    obtain ⟨-, rest, -, rfl⟩ := Store.tryBlpop_eq_some hp
    cases h
  · rename_i hp
    cases h
    exact Server.listAt_of_popFirst_none (Option.map_eq_none_iff.mp hp)
  · cases h

theorem listAt_handleCommand {args : List Bytes} {clock : ℕ → Readings} {store : Store F}
    (hb : store.pendingBlock = none) {client : ClientState} {b : BlockRequest F}
    (hpb : (handleCommand clock args store client).2.1.pendingBlock = some b)
    (hk : b.kind = .list) :
    ∀ key ∈ b.keys, (handleCommand clock args store client).2.1.listAt key = [] := by
  have hd := handled_handleCommand clock args store client
  generalize handleCommand clock args store client = r at hd hpb
  generalize commandCalls clock args store client = calls at hd
  cases hd with
  | refused _ => simp [hb] at hpb
  | steered hs => simp [hs.block, hb] at hpb
  | queued _ _ _ => simp [hb] at hpb
  | dispatched _ _ _ =>
    obtain ⟨hn, -⟩ := keys_dispatchCommand hb hpb hk
    simp only [dispatchCommand, hn] at hpb ⊢
    exact listAt_handleBlpop hpb
  | exec _ _ =>
    unfold execTransaction at hpb
    dsimp only at hpb
    split at hpb
    · simp [hb] at hpb
    · rw [(traced_execQueue _ _ (by exact hb) _).2] at hpb
      cases hpb

namespace Server

def servedEach (env : Env) : List Waiter → Server F → List Bool
  | [], _ => []
  | w :: ws, s => (s.serveWaiter env w).1 :: servedEach env ws (s.serveWaiter env w).2

theorem length_servedEach (env : Env) (ws : List Waiter) (s : Server F) :
    (servedEach env ws s).length = ws.length := by
  induction ws generalizing s with
  | nil => rfl
  | cons w ws ih => simp [servedEach, ih]

/-- Some clients are disconnected, and they are the ones who stop waiting. -/
structure Thins (s s' : Server F) : Prop where
  clients : ∀ fd ∈ s'.clients, fd ∈ s.clients
  waiters : s'.waiters = s.waiters.filter fun w => s'.clients.contains w.fd

namespace Thins

variable {s s₁ s₂ : Server F}

theorem waiting (h : Thins s s₁) : s₁.Waiting := by
  intro w hw
  rw [h.waiters] at hw
  simpa using (List.mem_filter.mp hw).2

theorem trans (h : Thins s s₁) (h' : Thins s₁ s₂) : Thins s s₂ where
  clients fd hfd := h.clients fd (h'.clients fd hfd)
  waiters := by
    rw [h'.waiters, h.waiters, List.filter_filter]
    apply List.filter_congr
    intro w _
    have himp : w.fd ∈ s₂.clients → w.fd ∈ s₁.clients := h'.clients w.fd
    simpa using himp

theorem keep (hs : s.Waiting) (hc : ∀ fd, fd ∈ s₁.clients ↔ fd ∈ s.clients)
    (hw : s₁.waiters = s.waiters) : Thins s s₁ where
  clients fd hfd := (hc fd).mp hfd
  waiters := by
    rw [hw, eq_comm, List.filter_eq_self]
    intro w hmem
    simpa using (hc w.fd).mpr (hs w hmem)

theorem of_eq (hs : s.Waiting) (hc : s₁.clients = s.clients) (hw : s₁.waiters = s.waiters) :
    Thins s s₁ :=
  keep hs (fun fd => by rw [hc]) hw

theorem close (hs : s.Waiting) (fd : ℤ) : Thins s (s.closeClient fd) where
  clients fd' h := (mem_clients_closeClient.mp h).1
  waiters := by
    apply List.filter_congr
    intro w hw
    have hmem : w.fd ∈ (s.closeClient fd).clients ↔ w.fd ≠ fd := by
      rw [mem_clients_closeClient, and_iff_right (hs w hw)]
    rw [Bool.eq_iff_iff, Std.ExtTreeMap.contains_iff_mem, hmem]
    simp

theorem deliverAll (hs : s.Waiting) (env : Env) (messages : List (ℤ × Bytes)) :
    Thins s (deliverAll env messages s) := by
  induction messages generalizing s with
  | nil => exact of_eq hs rfl rfl
  | cons m messages ih =>
    obtain ⟨recipient, message⟩ := m
    have hsend : Thins s (s.send env recipient message .message).2 := of_eq hs rfl rfl
    unfold Server.deliverAll
    dsimp only
    split
    · split
      · exact hsend.trans (ih hsend.waiting)
      · have hclose := hsend.trans (close hsend.waiting recipient)
        exact hclose.trans (ih hclose.waiting)
    · exact ih hs

theorem finish (hs : s.Waiting) (env : Env) (fd : ℤ) : Thins s (s.finish env fd) := by
  have htake : Thins s { s with store := { s.store with pendingMessages := [] } } :=
    of_eq hs rfl rfl
  have hdeliver := htake.trans (deliverAll htake.waiting env s.store.pendingMessages)
  unfold Server.finish deliverMessages
  dsimp only
  split
  · exact hdeliver.trans (close hdeliver.waiting fd)
  · exact hdeliver

end Thins

/-- A request that has been run adds at most one waiter, at the end of the list. -/
theorem thins_respond (env : Env) {fd : ℤ} (reply : Bytes) {t : Server F} (ht : t.Waiting)
    (hfd : fd ∈ t.clients) :
    ∃ added, added.length ≤ 1 ∧ (∀ w ∈ added, w.fd = fd ∧ (w.kind = .list →
        ∃ b, t.store.pendingBlock = some b ∧ b.kind = .list ∧ b.keys = w.keys)) ∧
      Thins { t with waiters := t.waiters ++ added } (t.respond env fd reply).2 := by
  have hsame : ∀ {s' : Server F}, Thins t s' → Thins { t with waiters := t.waiters ++ [] } s' := by
    intro s' h
    simpa using h
  have hadd : ∀ (w : Waiter) {s' : Server F}, w.fd = fd → s'.clients = t.clients →
      s'.waiters = t.waiters ++ [w] → Thins { t with waiters := t.waiters ++ [w] } s' := by
    intro w s' hw hc hws
    refine .of_eq ?_ hc hws
    intro w' hmem
    rcases List.mem_append.mp hmem with hmem | hmem
    · exact ht w' hmem
    · rw [List.mem_singleton.mp hmem, hw]
      exact hfd
  unfold respond
  split
  · rename_i b hb
    unfold block
    split
    · dsimp only
      split
      · exact ⟨[], by simp, by simp, hsame (.of_eq ht rfl rfl)⟩
      · refine ⟨[⟨fd, .wait, [], [], b.count, deadlineAfter env b.timeout,
          (t.clients.getD fd {}).replOffset⟩], by simp, ?_, hadd _ rfl ?_ ?_⟩
        · exact List.forall_mem_singleton.mpr ⟨rfl, fun h => by cases h⟩
        · rw [sendToReplicas, clients_sendToAll]
        · rw [sendToReplicas, waiters_sendToAll]
    · refine ⟨[_], by simp, ?_, hadd _ rfl rfl rfl⟩
      exact List.forall_mem_singleton.mpr ⟨rfl, fun h => ⟨b, hb, h, rfl⟩⟩
  · split
    · exact ⟨[], by simp, by simp, hsame (.of_eq ht rfl rfl)⟩
    · have hsend : Thins t (t.send env fd reply .reply).2 := .of_eq ht rfl rfl
      dsimp only
      split
      · exact ⟨[], by simp, by simp, hsame hsend⟩
      · exact ⟨[], by simp, by simp, hsame (hsend.trans (.close hsend.waiting fd))⟩

/-- Those who keep waiting in a step, in their order: in a round the ones who are not served and
whose time is not up, otherwise the ones who stay connected. -/
def staying (env : Env) (event : Event) (s : Server F) : List Waiter :=
  match event with
  | .round =>
    if s.halted then s.waiters
    else ((s.waiters.zip (servedEach env s.waiters s)).filter fun p =>
      !p.2 && !p.1.expired env.now).map Prod.fst
  | event => s.waiters.filter fun w => (s.step env event).clients.contains w.fd

/-- How a step changes the calls and the waiting clients: some stay, and the client whose request
blocks comes last and finds the lists empty that it waits for. -/
structure Queues (event : Event) (kept : List Waiter) (s s' : Server F) : Prop where
  calls : s.calls <+: s'.calls
  waiters : ∃ added, s'.waiters = kept ++ added ∧ added.length ≤ 1 ∧
    ∀ w ∈ added, (∃ r, event = .request w.fd r) ∧
      (w.kind = .list → ∀ key ∈ w.keys, s'.store.listAt key = [])

theorem Queues.of_eq {event : Event} {kept : List Waiter} {s s' : Server F}
    (hc : s.calls <+: s'.calls) (hw : s'.waiters = kept) : Queues event kept s s' :=
  ⟨hc, [], by rw [hw, List.append_nil], by simp, by simp⟩

theorem queues_command (env : Env) (fd : ℤ) (r : Request) {s : Server F} (hs : s.Waiting)
    (hb : s.store.pendingBlock = none) (hc : s.calls <+: (s.command env fd r.args).calls) :
    Queues (.request fd r)
      (s.waiters.filter fun w => (s.command env fd r.args).clients.contains w.fd) s
      (s.command env fd r.args) := by
  cases hclient : s.clients[fd]? with
  | none =>
    have hsame : s.command env fd r.args = s := by simp only [command, hclient]
    have hthins : Thins s (s.command env fd r.args) := hsame.symm ▸ .of_eq hs rfl rfl
    exact .of_eq hc hthins.waiters
  | some client =>
    cases hack : s.ackText r.args client with
    | some text =>
      have hsame : s.command env fd r.args = s.acknowledge fd text := by
        simp only [command, hclient, hack]
      have hthins : Thins s (s.acknowledge fd text) := by
        unfold acknowledge
        split <;> exact .of_eq hs rfl rfl
      rw [← hsame] at hthins
      exact .of_eq hc hthins.waiters
    | none =>
      obtain ⟨t, hready, hcommand⟩ := command_ready env hclient hack
      have hfd : fd ∈ s.clients := by
        rw [Std.ExtTreeMap.mem_iff_isSome_getElem?, hclient]
        rfl
      have hkept := Thins.keep hs hready.clients hready.waiters
      have hdata := (respond_cases env fd (handleCommand (env.clock 0) r.args s.store client).1 t).1
      obtain ⟨added, hone, hadded, hthins⟩ := thins_respond env
        (handleCommand (env.clock 0) r.args s.store client).1 hkept.waiting
        ((hready.clients fd).mpr hfd)
      generalize hu : t.respond env fd (handleCommand (env.clock 0) r.args s.store client).1 = u
        at hdata hthins hcommand
      have hlast : Thins u.2 (s.command env fd r.args) ∧
          (s.command env fd r.args).store.toKeyspace = u.2.store.toKeyspace := by
        rw [hcommand]
        dsimp only
        split
        · exact ⟨.finish hthins.waiting env fd, (frame_finish (P := Anything) env fd u.2).data⟩
        · exact ⟨.of_eq hthins.waiting rfl rfl, rfl⟩
      have hall := (hthins.trans hlast.1).waiters
      rw [hready.waiters, List.filter_append] at hall
      refine ⟨hc, _, hall, (List.length_filter_le _ _).trans hone, fun w hw => ?_⟩
      obtain ⟨hwfd, hlist⟩ := hadded w (List.mem_of_mem_filter hw)
      refine ⟨⟨r, by rw [hwfd]⟩, fun hk key hkey => ?_⟩
      obtain ⟨b, hpb, hbk, hkeys⟩ := hlist hk
      rw [hready.block] at hpb
      have hempty := listAt_handleCommand hb hpb hbk key (hkeys ▸ hkey)
      rwa [hlast.2, hdata, hready.data]

theorem queues_obey (env : Env) (number : ℕ) {fd : ℤ} (args : List Bytes) {s : Server F}
    (hfd : fd ∈ s.clients) :
    s.calls <+: (s.obey env number fd args).calls ∧
      (s.obey env number fd args).waiters = s.waiters ∧
      ∀ fd', fd' ∈ (s.obey env number fd args).clients ↔ fd' ∈ s.clients := by
  have hown : ∀ inMulti reply, ((s.handle env number fd args).2.logOwn args inMulti reply).calls =
      (s.handle env number fd args).2.calls ∧
      ((s.handle env number fd args).2.logOwn args inMulti reply).waiters = s.waiters ∧
      ((s.handle env number fd args).2.logOwn args inMulti reply).clients =
        (s.handle env number fd args).2.clients := by
    intro inMulti reply
    unfold logOwn
    split <;> exact ⟨rfl, rfl, rfl⟩
  have hpending : ∀ (inMulti : Bool) (s : Server F),
      (s.logPending inMulti).calls = s.calls ∧ (s.logPending inMulti).waiters = s.waiters := by
    intro inMulti s
    obtain ⟨_, -, hframe⟩ := frame_logPending (P := Anything) inMulti s
    refine ⟨hframe.calls, ?_⟩
    unfold logPending
    cases inMulti
    · exact waiters_appendAll _ s
    · rfl
  unfold obey
  dsimp only
  rw [(hpending _ _).1, (hpending _ _).2, clients_logPending]
  obtain ⟨hcalls, hwaiters, hclients⟩ :=
    hown (s.clients.getD fd {}).inMulti (s.handle env number fd args).1
  rw [hcalls, hwaiters, hclients]
  refine ⟨List.prefix_append _ _, rfl, fun fd' => ?_⟩
  exact mem_clients_insert.trans (or_iff_right_of_imp fun he => he ▸ hfd)

theorem thins_fromMaster (env : Env) (chunk : Bytes) {s : Server F} (hs : s.Waiting) :
    s.calls <+: (s.fromMaster env chunk).calls ∧ Thins s (s.fromMaster env chunk) := by
  unfold fromMaster
  split
  · exact ⟨List.prefix_refl _, .of_eq hs rfl rfl⟩
  · rename_i fd _
    split
    · exact ⟨List.prefix_refl _, .of_eq hs rfl rfl⟩
    · rename_i hcontains
      have hfd : fd ∈ s.clients := by simpa using hcontains
      let J : ℕ × Server F → Prop := fun st => s.calls <+: st.2.calls ∧
        st.2.waiters = s.waiters ∧ ∀ fd', fd' ∈ st.2.clients ↔ fd' ∈ s.clients
      have hstep : ∀ (args : List Bytes) (n : ℕ) (st : ℕ × Server F), J st →
          J (replicate env fd args n st).1 := by
        rintro args n st ⟨hcalls, hwaiters, hclients⟩
        unfold replicate
        dsimp only
        split
        · exact ⟨hcalls, hwaiters, hclients⟩
        · obtain ⟨hc, hw, hopen⟩ := queues_obey env st.1 args ((hclients fd).mpr hfd)
          exact ⟨hcalls.trans hc, hw.trans hwaiters, fun fd' => (hopen fd').trans (hclients fd')⟩
      obtain ⟨hcalls, hwaiters, hclients⟩ : J _ :=
        Framing.consume_preserves (parseCommand unlimited) (Server.replicate env fd) hstep
          (s.masterBuffer ++ chunk).length
          (show J (0, s) from ⟨List.prefix_refl _, rfl, fun _ => Iff.rfl⟩) (s.masterBuffer ++ chunk)
      have hkept := Thins.keep hs hclients hwaiters
      dsimp only
      split
      · exact ⟨hcalls, hkept.trans (.of_eq hkept.waiting rfl rfl)⟩
      · have hclosed := hkept.trans (.close hkept.waiting fd)
        exact ⟨hcalls, hclosed.trans (.of_eq hclosed.waiting rfl rfl)⟩
      · exact ⟨hcalls, hkept.trans (.of_eq hkept.waiting rfl rfl)⟩

theorem serveAll_fst (env : Env) (ws : List Waiter) (s : Server F) :
    (serveAll env ws s).1 = ((ws.zip (servedEach env ws s)).filter fun p => !p.2).map Prod.fst := by
  induction ws generalizing s with
  | nil => rfl
  | cons w ws ih =>
    simp only [serveAll, servedEach, List.zip_cons_cons, ih]
    cases (s.serveWaiter env w).1 <;> simp

theorem waiters_round (env : Env) (s : Server F) :
    ((s.serveWaiters env).expireWaiters env).waiters =
      ((s.waiters.zip (servedEach env s.waiters s)).filter fun p =>
        !p.2 && !p.1.expired env.now).map Prod.fst := by
  have hserved : (s.serveWaiters env).waiters =
      ((s.waiters.zip (servedEach env s.waiters s)).filter fun p => !p.2).map Prod.fst :=
    serveAll_fst env s.waiters s
  change (s.serveWaiters env).waiters.filter (fun w => !w.expired env.now) = _
  rw [hserved, List.filter_map, List.filter_filter]
  congr 1
  apply List.filter_congr
  intro p _
  exact Bool.and_comm _ _

theorem queues_step {s : Server F} (h : s.Logged Anything Always) (hs : s.Waiting) (env : Env)
    (event : Event) : Queues event (s.staying env event) s (s.step env event) := by
  have hcalls : event.isLocal = true → s.calls <+: (s.step env event).calls := by
    intro hl
    have htimes : ∀ n i, Always (env.clock n i) := fun _ _ => trivial
    obtain ⟨calls, _, _, hadv, -⟩ := accounted_step popClosed_anything h.settled htimes
      event.carries_anything (.inr hl)
    rw [hadv.calls_eq]
    exact List.prefix_append _ _
  by_cases hh : s.halted = true
  · have hsame : s.step env event = s := by
      unfold step
      rw [if_pos hh]
    have hthins : Thins s (s.step env event) := hsame.symm ▸ .of_eq hs rfl rfl
    have hc : s.calls <+: (s.step env event).calls := by rw [hsame]
    cases event with
    | round => exact .of_eq hc (by rw [hsame, staying, if_pos hh])
    | _ => exact .of_eq hc hthins.waiters
  · cases event with
    | accept fd =>
      have hstep : s.step env (.accept fd) = s.accept fd := by rw [step, if_neg hh]
      have hopen : ∀ w ∈ s.waiters, w.fd ∈ (s.accept fd).clients := by
        intro w hw
        unfold Server.accept
        split
        · exact hs w hw
        · exact mem_clients_insert.mpr (.inr (hs w hw))
      have hwaiters : (s.accept fd).waiters = s.waiters := by
        unfold Server.accept
        split <;> rfl
      apply Queues.of_eq (hcalls rfl)
      change (s.step env (.accept fd)).waiters =
        s.waiters.filter fun w => (s.step env (.accept fd)).clients.contains w.fd
      rw [hstep, hwaiters, eq_comm, List.filter_eq_self]
      intro w hw
      simpa using hopen w hw
    | request fd r =>
      by_cases hm : s.masterFd = some fd
      · have hstep : s.step env (.request fd r) = s := by rw [step, if_neg hh]; exact if_pos hm
        have hthins : Thins s (s.step env (.request fd r)) := hstep.symm ▸ .of_eq hs rfl rfl
        exact .of_eq (hcalls rfl) hthins.waiters
      · have hstep : s.step env (.request fd r) = s.command env fd r.args := by
          rw [step, if_neg hh]
          exact if_neg hm
        have hc := hcalls rfl
        rw [hstep] at hc
        change Queues _ (s.waiters.filter fun w =>
          (s.step env (.request fd r)).clients.contains w.fd) s (s.step env (.request fd r))
        rw [hstep]
        exact queues_command env fd r hs h.settled.block hc
    | hangup fd =>
      have hthins : Thins s (s.step env (.hangup fd)) := by
        rw [step, if_neg hh]
        split
        · exact .close hs fd
        · exact .of_eq hs rfl rfl
      exact .of_eq (hcalls rfl) hthins.waiters
    | chunk bytes =>
      have hstep : s.step env (.chunk bytes) = s.fromMaster env bytes := by rw [step, if_neg hh]
      obtain ⟨hc, hthins⟩ := thins_fromMaster env bytes hs
      rw [← hstep] at hc hthins
      exact .of_eq hc hthins.waiters
    | masterClosed =>
      have hstep : s.step env .masterClosed = s.masterClosed := by rw [step, if_neg hh]
      have hthins : s.calls <+: s.masterClosed.calls ∧ Thins s s.masterClosed := by
        unfold Server.masterClosed
        repeat' split
        · exact ⟨List.prefix_refl _, .of_eq hs rfl rfl⟩
        · exact ⟨List.prefix_refl _, .of_eq hs rfl rfl⟩
        · rename_i fd _ _
          have hclosed := Thins.close hs fd
          exact ⟨List.prefix_refl _, hclosed.trans (.of_eq hclosed.waiting rfl rfl)⟩
      rw [← hstep] at hthins
      exact .of_eq hthins.1 hthins.2.waiters
    | round =>
      have hstep : s.step env .round = (s.serveWaiters env).expireWaiters env := by
        rw [step, if_neg hh]
      apply Queues.of_eq (hcalls rfl)
      rw [hstep, staying, if_neg hh, waiters_round]

theorem staying_sublist (env : Env) (event : Event) (s : Server F) :
    (s.staying env event).Sublist s.waiters := by
  unfold staying
  split
  · split
    · exact .refl _
    · have hzip : (s.waiters.zip (servedEach env s.waiters s)).map Prod.fst = s.waiters :=
        List.map_fst_zip (length_servedEach env s.waiters s).ge
      exact (List.filter_sublist.map _).trans (by rw [hzip])
  · exact List.filter_sublist

def endsIteration (event : Event) (s : Server F) : Bool :=
  match event with
  | .round => !s.halted
  | _ => false

def recentAfter (env : Env) (event : Event) (s : Server F) (recent : List (Call F)) :
    List (Call F) :=
  if endsIteration event s then []
  else recent ++ (s.step env event).calls.drop s.calls.length

def sinceRound : List (Env × Event) → Server F → List (Call F) → List (Call F)
  | [], _, recent => recent
  | (env, event) :: events, s, recent =>
    sinceRound events (s.step env event) (recentAfter env event s recent)

/-- What a waiting client waits for has been pushed in the current iteration, if it is there. -/
def Fresh (recent : List (Call F)) (s : Server F) : Prop :=
  ∀ w ∈ s.waiters, w.kind = .list → ∀ key ∈ w.keys, s.store.listAt key ≠ [] →
    ∃ c ∈ recent, c.pushed key ≠ []

theorem Fresh.step {recent : List (Call F)} {s : Server F} (h : Fresh recent s)
    (hl : s.Logged Anything Always) (hs : s.Waiting) (env : Env) (event : Event) :
    Fresh (recentAfter env event s recent) (s.step env event) := by
  obtain ⟨⟨new, hcalls⟩, added, hwaiters, -, hadded⟩ := queues_step hl hs env event
  have hl' := hl.step env event
  intro w hw hk key hkey hne
  unfold recentAfter
  split
  · rename_i hround
    obtain ⟨rfl, hrun⟩ : event = .round ∧ s.halted = false := by
      cases event <;> simp_all [endsIteration]
    have hidle := unservable_round env (Keyspace.streamsHold_of_chain hl.chain) hrun w hw
    rw [Unservable, hk] at hidle
    exact absurd (hidle key hkey) hne
  · rw [← hcalls, List.drop_left]
    rw [hwaiters] at hw
    rcases List.mem_append.mp hw with hw | hw
    · by_cases he : s.store.listAt key = []
      · have hchain := hl'.chain
        rw [← hcalls] at hchain
        obtain ⟨c, hc, hpushed⟩ := hl.chain.pushed_since hchain he hne
        exact ⟨c, List.mem_append_right _ hc, hpushed⟩
      · obtain ⟨c, hc, hpushed⟩ := h w ((staying_sublist env event s).subset hw) hk key hkey he
        exact ⟨c, List.mem_append_left _ hc, hpushed⟩
    · exact absurd ((hadded w hw).2 hk key hkey) hne

/-- A server along a run, whose waiting clients are connected. -/
structure Runs (s : Server F) : Prop where
  logged : s.Logged Anything Always
  holds : s.Holds Numbered

theorem Runs.step {s : Server F} (h : s.Runs) (env : Env) (event : Event) :
    (s.step env event).Runs :=
  ⟨h.logged.step env event, stable_numbered.holds_step env event h.logged h.holds⟩

theorem Fresh.run {recent : List (Call F)} {s : Server F} (h : Fresh recent s) (hs : s.Runs)
    (events : List (Env × Event)) : Fresh (sinceRound events s recent) (run events s) := by
  induction events generalizing s recent with
  | nil => exact h
  | cons e events ih => exact ih (h.step hs.logged hs.holds.waiting e.1 e.2) (hs.step e.1 e.2)

/-- The waiters of a run in the order in which they blocked. -/
def arrivals : List (Env × Event) → Server F → List Waiter
  | [], _ => []
  | (env, event) :: events, s =>
    (s.step env event).waiters.drop (s.staying env event).length ++
      arrivals events (s.step env event)

/-- Those who wait after a run waited before it, in their order, or have blocked in it. -/
theorem waiters_run {s : Server F} (hs : s.Runs) (events : List (Env × Event)) :
    (run events s).waiters.Sublist (s.waiters ++ arrivals events s) := by
  induction events generalizing s with
  | nil => simp [run, arrivals]
  | cons e events ih =>
    obtain ⟨env, event⟩ := e
    obtain ⟨-, added, hwaiters, -, -⟩ := queues_step hs.logged hs.holds.waiting env event
    have hrest := ih (hs.step env event)
    rw [run, arrivals]
    rw [hwaiters, List.append_assoc] at hrest
    rw [hwaiters, List.drop_left]
    exact hrest.trans ((staying_sublist env event s).append_right _)

theorem serveAll_append (env : Env) (ws ws' : List Waiter) (s : Server F) :
    serveAll env (ws ++ ws') s =
      ((serveAll env ws s).1 ++ (serveAll env ws' (serveAll env ws s).2).1,
        (serveAll env ws' (serveAll env ws s).2).2) := by
  induction ws generalizing s with
  | nil => rfl
  | cons w ws ih =>
    simp only [List.cons_append, serveAll, ih]
    split <;> rfl

/-- The waiting clients of a server, with the calls of the current iteration. -/
structure ServesInOrder (recent : List (Call F)) (s : Server F) : Prop where
  /-- While a client waits for a key, only what was pushed in the same iteration is taken. -/
  taken : ∀ w ∈ s.waiters, w.kind = .list → ∀ key ∈ w.keys, ∀ env event before c after,
    (s.step env event).calls = s.calls ++ (before ++ c :: after) → c.returned key ≠ [] →
    ∃ p ∈ recent ++ before, p.pushed key ≠ []
  /-- The round comes to the clients in the order of their list, and when it pops from a key for
  one of them, nobody that it passed over waits for that key. -/
  served : ∀ env earlier w later, s.waiters = earlier ++ w :: later →
    (serveAll env s.waiters s).2 = (serveAll env (w :: later) (serveAll env earlier s).2).2 ∧
    ∀ key value store, w.kind = .list →
      (serveAll env earlier s).2.store.tryBlpop w.keys = some (key, value, store) →
      ∀ w' ∈ (serveAll env earlier s).1, w'.kind = .list → key ∉ w'.keys
  /-- Those who keep waiting in a step stay in their order, and only a client whose request blocks
  is added, at the end. -/
  order : ∀ env event, ∃ added, (s.step env event).waiters = s.staying env event ++ added ∧
    added.length ≤ 1 ∧ ∀ w ∈ added, ∃ r, event = .request w.fd r

/-- Clients that wait for lists are served in the order in which they started to wait, at the end
of each iteration. Before that, a command of the same iteration can take what was pushed in it. -/
theorem blocked_clients_in_order (config : Config) (replid : ReplId) (link : Option (ℤ × ℤ))
    (events : List (Env × Event)) :
    ServesInOrder (sinceRound events (boot config replid link : Server F) [])
        (run events (boot config replid link)) ∧
      (run events (boot config replid link : Server F)).waiters.Sublist
        (arrivals events (boot config replid link : Server F)) := by
  have hnone : (boot config replid link : Server F).waiters = [] := by cases link <;> rfl
  have hboot : (boot config replid link : Server F).Runs :=
    ⟨logged_boot config replid link, stable_numbered.holds_run (numbered_boot config replid link) []⟩
  have hs : (run events (boot config replid link : Server F)).Runs :=
    run_preserves (fun _ env event h => h.step env event) events hboot
  have hfresh : Fresh (sinceRound events (boot config replid link : Server F) [])
      (run events (boot config replid link)) := by
    refine Fresh.run ?_ hboot events
    intro w hw
    simp [hnone] at hw
  refine ⟨?_, by simpa [hnone] using waiters_run hboot events⟩
  generalize sinceRound events (boot config replid link : Server F) [] = recent at hfresh
  generalize run events (boot config replid link : Server F) = s at hs hfresh
  have hl := hs.logged
  constructor
  · intro w hw hk key hkey env event before c after hcalls hreturned
    obtain ⟨-, hdata⟩ := Call.listAt_of_returned hreturned
    by_cases he : s.store.listAt key = []
    · have hchain := (hl.step env event).chain
      rw [hcalls, ← List.append_assoc] at hchain
      obtain ⟨p, hp, hpushed⟩ := hl.chain.pushed_since hchain.split he hdata
      exact ⟨p, List.mem_append_right _ hp, hpushed⟩
    · obtain ⟨p, hp, hpushed⟩ := hfresh w hw hk key hkey he
      exact ⟨p, List.mem_append_left _ hp, hpushed⟩
  · intro env earlier w later hwaiters
    refine ⟨by rw [hwaiters, serveAll_append], ?_⟩
    intro key value store hk hpop w' hw' hk' hkey
    obtain ⟨-, hall⟩ := serveAll_spec env earlier (Keyspace.streamsHold_of_chain hl.chain)
    have hidle := hall w' hw'
    rw [Unservable, hk'] at hidle
    obtain ⟨-, rest, hlist, -⟩ := Store.tryBlpop_eq_some hpop
    rw [hidle key hkey] at hlist
    cases hlist
  · intro env event
    obtain ⟨-, added, hwaiters, hone, hadded⟩ := queues_step hl hs.holds.waiting env event
    exact ⟨added, hwaiters, hone, fun w hw => (hadded w hw).1⟩

/-- One client waits for a list, and in a later iteration another one pushes an element and pops
it again. -/
def overtaking : List (Env × Event) :=
  [(.still, .accept 5), (.still, .accept 6),
    asks 5 [ascii "BLPOP", ascii "jobs", ascii "0"] (by decide), (.still, .round),
    asks 6 [ascii "RPUSH", ascii "jobs", ascii "a"] (by decide),
    asks 6 [ascii "LPOP", ascii "jobs"] (by decide)]

/-- The one who came later obtains the element, and the other keeps waiting. -/
theorem lpop_overtakes_blocked :
    let s : Server Whole := run (overtaking.take 5) (boot {} .zeros none)
    let s' : Server Whole := run overtaking (boot {} .zeros none)
    s.waiters.map (fun w => (w.fd, w.keys)) = [(5, [ascii "jobs"])] ∧
      s'.waiters.map (fun w => (w.fd, w.keys)) = [(5, [ascii "jobs"])] ∧
      (s'.sends.getLast?.map fun x => (x.fd, x.payload)) =
        some (6, (bulkString (ascii "a")).toBytes) := by
  decide

end Server

end TrueStore
