import TrueStore.Command.Interleaving

/-! # Transactions run their queue at once

A transaction collects commands without touching the store. `EXEC` then does what the commands
would have done one after the other, except that none of them blocks.
-/

namespace TrueStore

open RespType

variable {F : Type} [Platform F]

/-- A command of a transaction that neither steers it nor is about the connection itself. -/
def queueable (args : List Bytes) : Bool :=
  args ≠ [] && upperName args ∉ controlCommands &&
    match commandName (upperName args) with
    | some .auth | some .acl | some .subscribe | some .unsubscribe | some .psync
    | some .replconf => false
    | _ => true

/-- What becomes of a queue that is run command by command: the replies, with a mark where the
client would block, the commands to log and the store. -/
structure Outcomes (F : Type) [Platform F] where
  replies : List (Bytes × Bool)
  logged : List (List Bytes)
  store : Store F

/-- The commands of a queue, handled one after the other for a client outside of transactions.
After each one the event loop takes the request to block and the commands to log. -/
def directAll : (ℕ → Readings) → List (List Bytes) → Store F → ClientState → Outcomes F
  | _, [], store, _ => ⟨[], [], store⟩
  | clock, args :: queue, store, client =>
    let r := handleCommand (fun _ => clock 0) args store client
    let rest := directAll (fun i => clock (i + 1)) queue
      { r.2.1 with pendingBlock := none, pendingPropagations := [] } r.2.2
    ⟨(r.1, r.2.1.pendingBlock.isSome) :: rest.replies,
      ownArgs args client r.1 ++ r.2.1.pendingPropagations ++ rest.logged, rest.store⟩

/-- The element of the reply of `EXEC` for a direct reply. -/
def execReply (r : Bytes × Bool) : Bytes := if r.2 then nullArray.toBytes else r.1

def Store.after (q : List (List Bytes)) (s : Store F) : Store F :=
  { s with pendingPropagations := q ++ s.pendingPropagations }

@[simp] theorem Store.after_toKeyspace (q : List (List Bytes)) (s : Store F) :
    (s.after q).toKeyspace = s.toKeyspace := rfl

theorem commandName_of_queueable {args : List Bytes} (h : queueable args = true) :
    commandName (upperName args) = none ∨
      ∃ name, commandName (upperName args) = some name ∧
        (name ∈ [.ping, .publish, .echo, .blpop, .xread, .info, .wait, .config] ∨
          ∃ command, name = .data command) := by
  simp only [queueable, Bool.and_eq_true] at h
  rcases hn : commandName (upperName args) with _ | name
  · exact .inl rfl
  · refine .inr ⟨name, rfl, ?_⟩
    rw [hn] at h
    cases name with
    | data command => exact .inr ⟨command, rfl⟩
    | auth | acl | subscribe | unsubscribe | psync | replconf => cases h.2
    | _ => exact .inl (by decide)

theorem tryBlpop_after (q : List (List Bytes)) (store : Store F) (keys : List Bytes) :
    (store.after q).tryBlpop keys =
      (store.tryBlpop keys).map fun p => (p.1, p.2.1, p.2.2.after q) := by
  simp only [Store.tryBlpop, Option.map_map]
  congr 1
  funext p
  simp [Store.after, Store.queuePropagation]

theorem handleBlpop_after (q : List (List Bytes)) (args : List Bytes) (store : Store F) :
    (store.after q).handleBlpop args =
      ((store.handleBlpop args).1, (store.handleBlpop args).2.after q) := by
  have hstore : { store.after q with pendingBlock := none } =
      { store with pendingBlock := none }.after q := rfl
  unfold Store.handleBlpop
  rw [hstore]
  generalize ({ store with pendingBlock := none } : Store F) = s
  dsimp only
  simp only [tryBlpop_after, Store.after_toKeyspace]
  split
  · split
    · rfl
    · split
      · rfl
      · cases s.tryBlpop _ <;> rfl
  · rfl

theorem readIds_after (q : List (List Bytes)) (store : Store F) (pairs : List (Bytes × Bytes)) :
    (store.after q).readIds pairs = store.readIds pairs := by
  induction pairs with
  | nil => rfl
  | cons p pairs ih =>
    simp only [Store.readIds, ih]
    rfl

theorem handleXread_after (q : List (List Bytes)) (args : List Bytes) (store : Store F) :
    (store.after q).handleXread args =
      ((store.handleXread args).1, (store.handleXread args).2.after q) := by
  have hstore : { store.after q with pendingBlock := none } =
      { store with pendingBlock := none }.after q := rfl
  unfold Store.handleXread
  rw [hstore]
  generalize ({ store with pendingBlock := none } : Store F) = s
  dsimp only
  simp only [readIds_after, Store.after_toKeyspace]
  split
  · rfl
  · split
    · rfl
    · split
      · rfl
      · split
        · rfl
        · split <;> rfl

theorem handleWait_after (q : List (List Bytes)) (args : List Bytes) (store : Store F) :
    (store.after q).handleWait args =
      ((store.handleWait args).1, (store.handleWait args).2.after q) := by
  unfold Store.handleWait
  split
  · split <;> rfl
  · rfl

theorem handlePublish_after (q : List (List Bytes)) (args : List Bytes) (store : Store F) :
    (store.after q).handlePublish args =
      ((store.handlePublish args).1, (store.handlePublish args).2.after q) := by
  have hsub : (store.after q).subscribers = store.subscribers := rfl
  unfold Store.handlePublish
  rw [hsub]
  split
  · split <;> rfl
  · rfl

theorem handleConfigGet_after (q : List (List Bytes)) (args : List Bytes) (store : Store F) :
    (store.after q).handleConfigGet args =
      ((store.handleConfigGet args).1, (store.handleConfigGet args).2.after q) := by
  unfold Store.handleConfigGet
  repeat' split
  all_goals rfl

theorem dispatchCommand_after {args : List Bytes} (hq : queueable args = true)
    (q : List (List Bytes)) (clock : Readings) (store : Store F) (client : ClientState) :
    dispatchCommand clock args (store.after q) client =
      ((dispatchCommand clock args store client).1,
        (dispatchCommand clock args store client).2.1.after q,
        (dispatchCommand clock args store client).2.2) := by
  unfold dispatchCommand
  rcases commandName_of_queueable hq with hn | ⟨name, hn, hname⟩
  · simp only [hn]
  · rcases hname with hname | ⟨command, rfl⟩
    · simp only [List.mem_cons, List.not_mem_nil, or_false] at hname
      rcases hname with rfl | rfl | rfl | rfl | rfl | rfl | rfl | rfl <;>
        simp only [hn, handleBlpop_after, handleXread_after, handleWait_after,
          handlePublish_after, handleConfigGet_after]
      rfl
    · simp only [hn]
      rfl

theorem dispatchCommand_client {args : List Bytes} (hq : queueable args = true)
    (clock : Readings) (store : Store F) (client : ClientState) :
    (dispatchCommand clock args store client).2.2 = client := by
  unfold dispatchCommand
  rcases commandName_of_queueable hq with hn | ⟨name, hn, hname | ⟨command, rfl⟩⟩
  · simp only [hn]
  · simp only [List.mem_cons, List.not_mem_nil, or_false] at hname
    rcases hname with rfl | rfl | rfl | rfl | rfl | rfl | rfl | rfl <;> simp only [hn]
  · simp only [hn]

theorem handleCommand_of_free {client : ClientState} (hc : Free client) {args : List Bytes}
    (hq : queueable args = true) (clock : ℕ → Readings) (store : Store F) :
    handleCommand clock args store client = dispatchCommand (clock 0) args store client := by
  simp only [queueable, Bool.and_eq_true, decide_eq_true_eq] at hq
  rw [handleCommand, refusal_of_free hc.authenticated hc.subscriptions hq.1.1]
  dsimp only
  rw [runCommand_of_not_control hq.1.2, hc.inMulti, if_neg Bool.false_ne_true]

/-- The loop of `EXEC` does what the commands do one after the other. -/
theorem execQueue_eq_directAll {queue : List (List Bytes)}
    (hq : ∀ args ∈ queue, queueable args = true) {client : ClientState} (hc : Free client)
    (clock : ℕ → Readings) {store : Store F} (hb : store.pendingBlock = none)
    (hp : store.pendingPropagations = []) (q : List (List Bytes)) :
    execQueue clock queue (store.after q) client =
      ((directAll clock queue store client).replies.flatMap execReply,
        { (directAll clock queue store client).store with
          pendingPropagations := q ++ (directAll clock queue store client).logged }, client) := by
  induction queue generalizing clock store q with
  | nil => simp [execQueue, directAll, Store.after, hp]
  | cons args queue ih =>
    have hargs := hq args List.mem_cons_self
    set r := dispatchCommand (clock 0) args store client with hr
    have hclient : r.2.2 = client := dispatchCommand_client hargs _ _ _
    have hhandle : handleCommand (fun _ => clock 0) args store client = r :=
      handleCommand_of_free hc hargs _ _
    have hafter := dispatchCommand_after hargs q (clock 0) store client
    rw [← hr, hclient] at hafter
    -- a command logs itself or what it queued
    obtain ⟨-, queued, hqueued, -, heither⟩ := traced_dispatchCommand (clock 0) args store client
    rw [← hr, hp, List.nil_append] at hqueued
    rw [← hr] at heither
    have hswap : queued ++ directArgs args r.1 = directArgs args r.1 ++ queued := by
      rcases heither with h | h <;> simp [h]
    have hdirect : directArgs args (execReply (r.1, r.2.1.pendingBlock.isSome)) =
        directArgs args r.1 := by
      unfold execReply
      split
      · rename_i h
        rw [directArgs_of_blocked hb h, directArgs_of_blocked hb h]
      · rfl
    have hexec : execQueued (clock 0) args (store.after q) client =
        (execReply (r.1, r.2.1.pendingBlock.isSome),
          { r.2.1 with pendingBlock := none, pendingPropagations := [] }.after
            (q ++ (directArgs args r.1 ++ queued)), client) := by
      have hres : (if (r.2.1.after q).pendingBlock.isSome then nullArray.toBytes else r.1) =
          execReply (r.1, r.2.1.pendingBlock.isSome) := rfl
      unfold execQueued
      rw [hafter]
      dsimp only
      rw [hres, queuePropagation_direct, hdirect]
      simp only [Store.after, hqueued, List.append_assoc, List.append_nil, hswap]
    have hown : ownArgs args client r.1 = directArgs args r.1 := by
      simp [ownArgs, hc.inMulti]
    simp only [execQueue, hexec, directAll, hhandle, hclient, hown, hqueued]
    rw [ih (fun a ha => hq a (List.mem_cons_of_mem _ ha)) (fun i => clock (i + 1)) rfl rfl]
    simp [List.append_assoc]

theorem directAll_pendingBlock (queue : List (List Bytes)) (clock : ℕ → Readings)
    {store : Store F} (hb : store.pendingBlock = none) (client : ClientState) :
    (directAll clock queue store client).store.pendingBlock = none := by
  induction queue generalizing clock store client with
  | nil => exact hb
  | cons args queue ih => exact ih _ rfl _

theorem runCommand_multi {args : List Bytes} (hn : upperName args = ascii "MULTI")
    (clock : ℕ → Readings) (store : Store F) (client : ClientState) :
    runCommand clock args store client =
      if args.length ≠ 1 then (arityError "multi", store, client)
      else if client.inMulti then
        (errorReply (ascii "ERR MULTI calls can not be nested"), store, client)
      else (ok, store, { client with inMulti := true }) := by
  unfold runCommand
  dsimp only
  rw [hn, if_neg (by decide), if_pos rfl]

theorem runCommand_exec {args : List Bytes} (hn : upperName args = ascii "EXEC")
    (clock : ℕ → Readings) (store : Store F) {client : ClientState}
    (hc : client.inMulti = true) :
    runCommand clock args store client = execTransaction clock store client := by
  unfold runCommand
  dsimp only
  rw [hn, if_neg (by decide), if_neg (by decide), if_neg (by decide), if_neg (by decide),
    if_neg (by decide), if_pos rfl, hc]
  rfl

theorem handleCommand_multi {args : List Bytes} (hn : upperName args = ascii "MULTI")
    {clock : ℕ → Readings} {store : Store F} {client : ClientState}
    (hok : (handleCommand clock args store client).1 = ok) :
    client.inMulti = false ∧ client.subscriptions.isEmpty = true ∧
      handleCommand clock args store client = (ok, store, { client with inMulti := true }) := by
  unfold handleCommand at hok ⊢
  split at hok
  · rename_i reply hr
    have := isError_of_refusal hr
    rw [show reply = ok from hok] at this
    cases this
  · rename_i hr
    have hsub : client.subscriptions.isEmpty = true := by
      by_contra hs
      unfold refusal at hr
      dsimp only at hr
      rw [hn] at hr
      split at hr
      · cases hr
      · split at hr
        · cases hr
        · split at hr
          · cases hr
          · rename_i hno
            exact hno ⟨by simpa using hs, by decide⟩
    rw [runCommand_multi hn] at hok ⊢
    split at hok
    · cases hok
    · split at hok
      · cases hok
      · rename_i hlen hin
        rw [if_neg hlen, if_neg hin]
        exact ⟨by simpa using hin, hsub, rfl⟩

namespace World

def commandsOf (fd : ℤ) (turns : List (Turn F)) : List (List Bytes) :=
  turns.filterMap fun
    | .command fd' _ args => if fd' = fd then some args else none
    | .elsewhere _ => none

def others (fd : ℤ) (turns : List (Turn F)) : List (Turn F) :=
  turns.filter fun t => t.by? ≠ some fd

theorem play_queued {w : World F} (hs : w.store.Settled) {fd : ℤ}
    (hauth : (w.clients fd).authenticated = true)
    (hsub : (w.clients fd).subscriptions.isEmpty = true) (hin : (w.clients fd).inMulti = true)
    {args : List Bytes} (hq : queueable args = true) (clock : ℕ → Readings) :
    w.play (.command fd clock args) =
      ⟨w.store, Function.update w.clients fd ((w.clients fd).enqueue args)⟩ := by
  simp only [queueable, Bool.and_eq_true, decide_eq_true_eq] at hq
  have hhandle : w.handle fd clock args = ((simpleString (ascii "QUEUED")).toBytes, w.store,
      (w.clients fd).enqueue args) := by
    rw [handle, handleCommand, refusal_of_free hauth hsub hq.1.1]
    dsimp only
    rw [runCommand_of_not_control hq.1.2, hin, if_pos rfl]
  have hlogged : w.logged fd clock args = [] := by
    simp only [logged, hhandle, ownArgs, hin, if_true, hs.propagations, List.append_nil]
  simp only [play, hlogged, hhandle, hs.settle_nil]

theorem play_multi {w : World F} (hs : w.store.Settled) {fd : ℤ} {args : List Bytes}
    (hm : upperName args = ascii "MULTI") {clock : ℕ → Readings}
    (hok : w.reply fd clock args = ok) :
    (w.clients fd).inMulti = false ∧ (w.clients fd).subscriptions.isEmpty = true ∧
      w.play (.command fd clock args) =
        ⟨w.store, Function.update w.clients fd { w.clients fd with inMulti := true }⟩ := by
  obtain ⟨hin, hsub, hmulti⟩ := handleCommand_multi hm hok
  have hhandle : w.handle fd clock args =
      (ok, w.store, { w.clients fd with inMulti := true }) := hmulti
  have hw : isWriteCommand (upperName args) = false := by rw [hm]; decide
  have hl : w.logged fd clock args = [] := by
    simp [logged, hhandle, hs.propagations, ownArgs, directArgs, hw]
  exact ⟨hin, hsub, by simp only [play, hl, hhandle, hs.settle_nil]⟩

/-- Two worlds that agree for everyone but one client agree after a turn of someone else. -/
theorem play_agree {fd : ℤ} {t : Turn F} (hb : t.by? ≠ some fd) {w w' : World F}
    (hstore : w'.store = w.store)
    (hothers : ∀ fd', fd' ≠ fd → w'.clients fd' = w.clients fd') :
    (w'.play t).store = (w.play t).store ∧
      ∀ fd', fd' ≠ fd → (w'.play t).clients fd' = (w.play t).clients fd' := by
  cases t with
  | elsewhere change => exact ⟨by simp only [play, hstore], hothers⟩
  | command fd₁ clock args =>
    have hne : fd₁ ≠ fd := fun he => hb (by rw [he]; rfl)
    have hh : w'.handle fd₁ clock args = w.handle fd₁ clock args := by
      rw [handle, handle, hstore, hothers fd₁ hne]
    have hl : w'.logged fd₁ clock args = w.logged fd₁ clock args := by
      rw [logged, logged, reply, reply, hh, hothers fd₁ hne]
    refine ⟨by simp only [play, hh, hl], fun fd' hfd' => ?_⟩
    simp only [play, hh, Function.update_apply]
    split
    · rfl
    · exact hothers fd' hfd'

theorem playAll_queued {fd : ℤ} {turns : List (Turn F)}
    (hq : ∀ args ∈ commandsOf fd turns, queueable args = true) {w w' : World F}
    (hs : w.store.Settled) (hstore : w'.store = w.store)
    (hothers : ∀ fd', fd' ≠ fd → w'.clients fd' = w.clients fd') {client : ClientState}
    (hclient : w.clients fd = client) (hauth : client.authenticated = true)
    (hsub : client.subscriptions.isEmpty = true) (hin : client.inMulti = true) :
    (playAll turns w).store = (playAll (others fd turns) w').store ∧
      (playAll turns w).clients fd =
        { client with queued := client.queued ++ commandsOf fd turns } := by
  induction turns generalizing w w' client with
  | nil => exact ⟨hstore.symm, by simp [commandsOf, hclient]⟩
  | cons t turns ih =>
    by_cases hb : t.by? = some fd
    · cases t with
      | elsewhere change => cases hb
      | command fd' clock args =>
        cases hb
        have hc : commandsOf fd (Turn.command fd clock args :: turns) =
            args :: commandsOf fd turns := by simp [commandsOf]
        have ho : others fd (Turn.command fd clock args :: turns) = others fd turns := by
          simp [others, Turn.by?]
        subst hclient
        rw [hc] at hq ⊢
        rw [ho, playAll_cons, play_queued hs hauth hsub hin (hq args List.mem_cons_self)]
        obtain ⟨h₁, h₂⟩ := ih (w := ⟨w.store, Function.update w.clients fd
            ((w.clients fd).enqueue args)⟩) (fun a ha => hq a (List.mem_cons_of_mem _ ha)) hs
          hstore (fun fd' hne => (hothers fd' hne).trans (Function.update_of_ne hne _ _).symm)
          (Function.update_self ..) hauth hsub hin
        exact ⟨h₁, h₂.trans (by simp [ClientState.enqueue])⟩
    · have hc : commandsOf fd (t :: turns) = commandsOf fd turns := by
        cases t with
        | elsewhere change => simp [commandsOf]
        | command fd' clock args =>
          have hne : ¬fd' = fd := fun he => hb (by rw [he]; rfl)
          simp [commandsOf, hne]
      have ho : others fd (t :: turns) = t :: others fd turns := by simp [others, hb]
      obtain ⟨hstore', hothers'⟩ := play_agree hb hstore hothers
      rw [hc] at hq ⊢
      rw [ho, playAll_cons, playAll_cons]
      exact ih hq (w.settled_play t) hstore' hothers' ((play_clients_of_ne hb).trans hclient) hauth
        hsub hin

/-- `EXEC` equals running the queue at once. After any commands of any clients, a client opens a
transaction and sends commands, and others go on meanwhile. Until `EXEC` only they affect the
store. If no watched key has changed, `EXEC` then leaves the store, replies and logs as the
commands do one after the other, except that a command that would block replies with the null
array. -/
theorem exec_runs_queue (store : Store F) (before : List (Turn F)) (fd : ℤ)
    (hauth : ((playAll before (fresh store)).clients fd).authenticated = true)
    (multi : List Bytes) (hm : upperName multi = ascii "MULTI") (clock₀ : ℕ → Readings)
    (hok : (playAll before (fresh store)).reply fd clock₀ multi = ok)
    (turns : List (Turn F)) (hq : ∀ args ∈ commandsOf fd turns, queueable args = true)
    (exec : List Bytes) (hx : upperName exec = ascii "EXEC") (clock : ℕ → Readings) :
    let w₀ := playAll before (fresh store)
    let w := playAll (.command fd clock₀ multi :: turns) w₀
    let check := watchedDirty (clock 0) (w.clients fd).watched w.store.toKeyspace
    let direct := directAll (fun i => clock (i + 1)) (commandsOf fd turns)
      { w.store with toKeyspace := check.2 } (w.clients fd).leaveMulti
    w.store = (playAll (others fd turns) w₀).store ∧
      (check.1 = false →
        Keyspace.Evicts (clock 0) w.store.toKeyspace check.2 ∧
        w.handle fd clock exec =
          (arrayHeader (commandsOf fd turns).length ++ direct.replies.flatMap execReply,
            { direct.store with pendingPropagations := direct.logged },
            (w.clients fd).leaveMulti) ∧
        direct.store.pendingBlock = none ∧
        w.logged fd clock exec = direct.logged) := by
  intro w₀ w check direct
  have hs₀ : w₀.store.Settled := settled_playAll (Store.settled_settle _ _) before
  obtain ⟨hin, hsub, hplay⟩ := play_multi hs₀ hm hok
  have hqueue : (w₀.clients fd).queued = [] :=
    tidy_playAll (fun _ _ => rfl) before fd hin
  obtain ⟨hstore, hclient⟩ := playAll_queued hq
    (w := ⟨w₀.store, Function.update w₀.clients fd { w₀.clients fd with inMulti := true }⟩)
    hs₀ (rfl : w₀.store = w₀.store)
    (fun fd' hne => (Function.update_of_ne hne _ _).symm) (Function.update_self ..) hauth hsub rfl
  have hw : w = playAll turns
      ⟨w₀.store, Function.update w₀.clients fd { w₀.clients fd with inMulti := true }⟩ := by
    simp only [w, playAll_cons, hplay]
  rw [← hw] at hstore hclient
  simp only [hqueue, List.nil_append] at hclient
  refine ⟨hstore, fun hclean => ⟨evicts_watchedDirty _ _ _, ?_⟩⟩
  have hs : w.store.Settled := settled_playAll (w₀.settled_play _) turns
  have hargs : exec ≠ [] := by
    rintro rfl
    revert hx
    decide
  have hfree : Free (w.clients fd).leaveMulti := by
    rw [hclient]
    exact ⟨hauth, hsub, rfl⟩
  have hb : { w.store with toKeyspace := check.2 }.pendingBlock = none := hs.block
  have hrun : execQueue (fun i => clock (i + 1)) (commandsOf fd turns)
      { w.store with toKeyspace := check.2 } (w.clients fd).leaveMulti =
        (direct.replies.flatMap execReply,
          { direct.store with pendingPropagations := direct.logged },
          (w.clients fd).leaveMulti) :=
    execQueue_eq_directAll hq hfree _ hb hs.propagations []
  have hexec : w.handle fd clock exec =
      (arrayHeader (commandsOf fd turns).length ++ direct.replies.flatMap execReply,
        { direct.store with pendingPropagations := direct.logged },
        (w.clients fd).leaveMulti) := by
    rw [handle, handleCommand, refusal_of_free (by rw [hclient]; exact hauth)
      (by rw [hclient]; exact hsub) hargs]
    dsimp only
    rw [runCommand_exec hx clock w.store (by rw [hclient]), execTransaction]
    dsimp only
    rw [if_neg (by simpa using hclean)]
    have hqd : (w.clients fd).queued = commandsOf fd turns := by rw [hclient]
    rw [hqd, hrun]
  have hblock : direct.store.pendingBlock = none :=
    directAll_pendingBlock _ _ hb _
  refine ⟨hexec, hblock, ?_⟩
  have hmulti' : (w.clients fd).inMulti = true := by rw [hclient]
  simp only [logged, ownArgs, hmulti', if_true, hexec, List.nil_append]

/-- A push and a blocking pop, with another client in between. -/
theorem exec_runs_queue_push :
    let clock : ℕ → Readings := fun _ _ => ⟨0, 0⟩
    let turns : List (Turn Whole) :=
      [.command 5 clock [ascii "RPUSH", ascii "l", ascii "a"],
        .command 6 clock [ascii "SET", ascii "k", ascii "v"],
        .command 5 clock [ascii "BLPOP", ascii "m", ascii "0"]]
    let w := playAll (.command 5 clock [ascii "MULTI"] :: turns) (fresh ({} : Store Whole))
    w.store = (playAll (others 5 turns) (fresh {})).store ∧
      (w.handle 5 clock [ascii "EXEC"]).1 = ascii "*2\r\n:1\r\n*-1\r\n" ∧
      w.logged 5 clock [ascii "EXEC"] = [[ascii "RPUSH", ascii "l", ascii "a"]] := by
  intro clock turns w
  obtain ⟨hstore, hclean⟩ := exec_runs_queue ({} : Store Whole) [] 5 rfl [ascii "MULTI"] (by decide)
    clock (by decide) turns (by decide) [ascii "EXEC"] (by decide) clock
  obtain ⟨-, hexec, -, hlogged⟩ := hclean (by decide)
  exact ⟨hstore, (congrArg Prod.fst hexec).trans (by decide), hlogged.trans (by decide)⟩

end World

end TrueStore
