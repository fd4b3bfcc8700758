import TrueStore.Command.ExecReplies
import TrueStore.Invariants.ListElements
import TrueStore.Resp.Tokens
import TrueStore.Server.Requests

/-! # Answers hand out the elements of lists

A client reads the elements that it gets off the answers that reach it: the reply to a pop, alone
or inside the reply to `EXEC`, or the answer that ends its wait. When sends succeed, what the
answers hand out is what the calls on the data took from the lists.
-/

namespace TrueStore

open RespType

variable {F : Type} [Platform F]

namespace Token

def value : Token → Option Bytes
  | bulk value => some value
  | header _ => none

theorem filterMap_value (n : ℕ) (values : List Bytes) :
    (header n :: values.map bulk).filterMap value = values := by
  rw [List.filterMap_cons_none rfl, List.filterMap_map]
  exact List.filterMap_some

theorem ofReply_array (values : List Bytes) :
    ofReply (array values).toBytes = header values.length :: values.map bulk := by
  have hbytes : (array values).toBytes =
      (header values.length :: values.map bulk).flatMap bytes := by
    simp [toBytes, bytes, List.flatMap_map]
  rw [hbytes, ofReply_flatMap]

theorem ofReply_bulkString (value : Bytes) : ofReply (bulkString value).toBytes = [bulk value] := by
  have hbytes : (bulkString value).toBytes = [bulk value].flatMap bytes := by
    simp [toBytes, bytes]
  rw [hbytes, ofReply_flatMap]

theorem ofReply_of_isError {reply : Bytes} (h : isError reply = true) : ofReply reply = [] := by
  match reply, h with
  | b :: rest, h =>
    obtain rfl : b = 45 := by simpa [isError] using h
    rfl

theorem ofReply_headers (n m : ℕ) (rest : Bytes) :
    ∃ tokens, ofReply (arrayHeader n ++ (arrayHeader m ++ rest)) =
      header n :: header m :: tokens := by
  have hlen : 2 ≤ (arrayHeader n ++ (arrayHeader m ++ rest)).length := by
    simp only [List.length_append, length_arrayHeader]
    omega
  obtain ⟨fuel, hfuel⟩ := Nat.exists_eq_add_of_le' hlen
  refine ⟨readAll fuel rest, ?_⟩
  rw [ofReply, hfuel, readAll, show arrayHeader n = (header n).bytes from rfl, read_bytes]
  dsimp only
  rw [readAll, show arrayHeader m = (header m).bytes from rfl, read_bytes]

end Token

/-- The element of a key in the answer to a `BLPOP`, which names the key. -/
def poppedIn (key reply : Bytes) : List Bytes :=
  match Token.ofReply reply with
  | [.header 2, .bulk k, .bulk value] => if k = key then [value] else []
  | _ => []

def elementsIn (key : Bytes) (args : List Bytes) (reply : Bytes) : List Bytes :=
  match commandName (upperName args) with
  | some (.data .lpop) =>
    if args[1]? = some key then (Token.ofReply reply).filterMap Token.value else []
  | some .blpop => poppedIn key reply
  | _ => []

theorem elementsIn_of_tokens_nil (key : Bytes) (args : List Bytes) {reply : Bytes}
    (h : Token.ofReply reply = []) : elementsIn key args reply = [] := by
  unfold elementsIn poppedIn
  split <;> simp [h]

theorem elementsIn_of_isError (key : Bytes) (args : List Bytes) {reply : Bytes}
    (h : isError reply = true) : elementsIn key args reply = [] :=
  elementsIn_of_tokens_nil key args (Token.ofReply_of_isError h)

theorem elementsIn_of_control (key : Bytes) {args : List Bytes}
    (h : upperName args ∈ controlCommands) (reply : Bytes) : elementsIn key args reply = [] := by
  unfold elementsIn
  split
  · rename_i hn
    exact absurd h (not_mem_controlCommands_of_commandName hn)
  · rename_i hn
    exact absurd h (not_mem_controlCommands_of_commandName hn)
  · rfl

theorem poppedIn_pair (key k value : Bytes) :
    poppedIn key (array [k, value]).toBytes = if k = key then [value] else [] := by
  simp [poppedIn, Token.ofReply_array]

theorem poppedIn_tryXread (key : Bytes) {ks : Keyspace F} {keys : List Bytes} {ids : List StreamID}
    {count : ℕ} {reply : Bytes} (h : ks.tryXread keys ids count = some reply) :
    poppedIn key reply = [] := by
  unfold Keyspace.tryXread at h
  split at h
  · cases h
  · rename_i hne
    cases h
    obtain ⟨first, others, hreplies⟩ := List.exists_cons_of_ne_nil hne
    obtain ⟨p, -, hfirst⟩ := List.mem_filterMap.mp (hreplies ▸ List.mem_cons_self (a := first))
    obtain ⟨name, entries, rfl⟩ : ∃ name entries, first = nestedArray [name, entries] := by
      unfold Keyspace.readStream at hfirst
      repeat' split at hfirst
      all_goals cases hfirst
      exact ⟨_, _, rfl⟩
    obtain ⟨tokens, htokens⟩ := Token.ofReply_headers (others.length + 1) 2
      (name.toBytes ++ (entries.toBytes ++ nestedBytes others))
    have hbytes : (nestedArray (nestedArray [name, entries] :: others)).toBytes =
        arrayHeader (others.length + 1) ++
          (arrayHeader 2 ++ (name.toBytes ++ (entries.toBytes ++ nestedBytes others))) := by
      simp [toBytes, nestedBytes]
    rw [hreplies, hbytes]
    simp [poppedIn, htokens]

theorem elementsIn_run (key : Bytes) (clock : Readings) (data : Keyspace F) {args : List Bytes}
    {command : DataCommand} (hn : commandName (upperName args) = some (.data command)) :
    elementsIn key args (command.dispatch clock args data).1 =
      (Call.run clock data args).returned key := by
  have hd : dataCommand args = some command := by simp only [dataCommand, hn]
  have hx : execute clock args data = command.dispatch clock args data := by
    simp only [execute, hd]
  by_cases hp : (Call.run clock data args).popsFrom key = true
  · obtain ⟨hlpop, hkey⟩ : command = .lpop ∧ args[1]? = some key := by
      simpa [Call.popsFrom, hd] using hp
    subst hlpop
    have hread : elementsIn key args (DataCommand.lpop.dispatch clock args data).1 =
        (Token.ofReply (DataCommand.lpop.dispatch clock args data).1).filterMap Token.value := by
      simp only [elementsIn, hn, hkey, if_true]
    have hshows := Call.shows_of_popsFrom hp
    simp only [Call.Shows, Call.answer, hx] at hshows
    rw [hread]
    rcases hshows with ⟨hnil, herr | hnull | hnull⟩ | ⟨-, v, hv, he⟩ | ⟨-, he⟩
    · rw [hnil, Token.ofReply_of_isError herr, List.filterMap_nil]
    · rw [hnil, hnull]
      rfl
    · rw [hnil, hnull]
      rfl
    · rw [hv, he, Token.ofReply_bulkString]
      rfl
    · rw [he, Token.ofReply_array, Token.filterMap_value]
  · have hnone : (Call.run clock data args).returned key = [] := by
      simp [Call.returned, hp]
    rw [hnone]
    cases command with
    | lpop =>
      have hkey : args[1]? ≠ some key := by
        intro hkey
        exact hp (by simp [Call.popsFrom, hd, hkey])
      simp [elementsIn, hn, hkey]
    | _ => simp only [elementsIn, hn]

theorem isError_of_parseTimeout {text failure : Bytes}
    (h : Store.parseTimeout (F := F) text = .error failure) : isError failure = true := by
  unfold Store.parseTimeout at h
  repeat' split at h
  all_goals cases h
  all_goals exact isError_errorReply _

theorem poppedIn_handleBlpop (key : Bytes) (args : List Bytes) {store : Store F}
    (h : (store.handleBlpop args).2.pendingPropagations = store.pendingPropagations) :
    poppedIn key (store.handleBlpop args).1 = [] := by
  have hread : ∀ {reply : Bytes}, isError reply = true → poppedIn key reply = [] := by
    intro reply he
    simp [poppedIn, Token.ofReply_of_isError he]
  revert h
  unfold Store.handleBlpop
  dsimp only
  repeat' split
  all_goals intro h
  · exact hread (isError_of_parseTimeout ‹_›)
  · exact hread isError_wrongType
  · rename_i hpop
    obtain ⟨-, rest, -, rfl⟩ := Store.tryBlpop_eq_some hpop
    simp [Store.popped, Store.queuePropagation] at h
  · rfl
  · exact hread (isError_arityError _)

theorem Call.returned_pop {key k value : Bytes} {data : Keyspace F} {rest : List Bytes}
    (h : data.listAt k = value :: rest) :
    (Call.pop data k).returned key = if k = key then [value] else [] := by
  by_cases hk : k = key
  · subst hk
    simp [returned, popsFrom, Call.data, Call.args, Keyspace.popCount, h]
  · simp [returned, popsFrom, hk]

theorem elementsIn_dispatchCommand (key : Bytes) (clock : Readings) (args : List Bytes)
    (store : Store F) (client : ClientState) :
    elementsIn key args (dispatchCommand clock args store client).1 =
      (dispatchCalls clock args store).flatMap (Call.returned key) := by
  rcases dispatchCalls_cases clock args store client with
    ⟨command, hn, hd, hcalls⟩ | ⟨k, value, rest, hn, -, hlist, hd, hcalls⟩ | ⟨-, happart, hcalls⟩
  · rw [hd, hcalls, List.flatMap_singleton, elementsIn_run key clock store.toKeyspace hn]
  · rw [hd, hcalls, List.flatMap_singleton]
    simp only [elementsIn, hn, poppedIn_pair, Call.returned_pop hlist]
  · rw [hcalls, List.flatMap_nil]
    unfold elementsIn
    split
    · rename_i hn
      simp [dispatchCalls, hn] at hcalls
    · rename_i hn
      have hp := happart.aside.propagations
      simp only [dispatchCommand, hn] at hp ⊢
      exact poppedIn_handleBlpop key args hp
    · rfl

/-- The parts of the reply to a request: the commands that it runs, each with its result. -/
def replyParts (clock : ℕ → Readings) (args : List Bytes) (store : Store F)
    (client : ClientState) : List (List Bytes × Bytes) :=
  let d := watchedDirty (clock 0) client.watched store.toKeyspace
  if refusal args store client = none ∧ upperName args = ascii "EXEC" ∧ client.inMulti ∧
      d.1 = false then
    client.queued.zip (execResults (fun i => clock (i + 1)) client.queued
      { store with toKeyspace := d.2 } client.leaveMulti)
  else [(args, (handleCommand clock args store client).1)]

def elementsInParts (key : Bytes) (parts : List (List Bytes × Bytes)) : List Bytes :=
  parts.flatMap fun p => elementsIn key p.1 p.2

/-- The parts make up a reply, which is that of an `EXEC` if an array header comes first. -/
def Spells (parts : List (List Bytes × Bytes)) (reply : Bytes) : Prop :=
  reply = (parts.map Prod.snd).flatten ∨
    reply = arrayHeader parts.length ++ (parts.map Prod.snd).flatten

theorem Spells.elements_nil {parts : List (List Bytes × Bytes)} (h : Spells parts [])
    (key : Bytes) : elementsInParts key parts = [] := by
  have hnil : (parts.map Prod.snd).flatten = [] := by
    rcases h with h | h
    · exact h.symm
    · exact (List.append_eq_nil_iff.mp h.symm).2
  apply List.flatMap_eq_nil_iff.mpr
  intro p hp
  have hempty : p.2 = [] := List.flatten_eq_nil_iff.mp hnil _ (List.mem_map_of_mem hp)
  rw [hempty]
  exact elementsIn_of_tokens_nil key p.1 rfl

theorem dispatchCalls_of_blocked {clock : Readings} {args : List Bytes} {store : Store F}
    {client : ClientState} (hb : store.pendingBlock = none)
    (h : (dispatchCommand clock args store client).2.1.pendingBlock.isSome = true) :
    dispatchCalls clock args store = [] := by
  rcases dispatchCalls_cases clock args store client with
    ⟨command, -, hd, -⟩ | ⟨key, value, rest, -, -, -, hd, -⟩ | ⟨-, -, hcalls⟩
  · simp [hd, hb] at h
  · simp [hd, Store.popped, Store.queuePropagation] at h
  · exact hcalls

theorem commandCalls_of_blocked {clock : ℕ → Readings} {args : List Bytes} {store : Store F}
    {client : ClientState} (hb : store.pendingBlock = none)
    (h : (handleCommand clock args store client).2.1.pendingBlock.isSome = true) :
    commandCalls clock args store client = [] := by
  have hd := handled_handleCommand clock args store client
  generalize handleCommand clock args store client = r at hd h
  generalize commandCalls clock args store client = calls at hd
  cases hd with
  | refused _ => rfl
  | steered _ => rfl
  | queued _ _ _ => rfl
  | dispatched _ _ _ => exact dispatchCalls_of_blocked hb h
  | exec _ _ =>
    unfold execTransaction at h
    unfold transactionCalls
    dsimp only at h ⊢
    split
    · rfl
    · rename_i hclean
      rw [if_neg hclean, (traced_execQueue _ _ (by exact hb) _).2] at h
      cases h

theorem elementsIn_execQueued (key : Bytes) (clock : Readings) (args : List Bytes)
    {store : Store F} (hb : store.pendingBlock = none) (client : ClientState) :
    elementsIn key args (execQueued clock args store client).1 =
      (dispatchCalls clock args store).flatMap (Call.returned key) := by
  unfold execQueued
  dsimp only
  split
  · rename_i h
    rw [dispatchCalls_of_blocked hb h]
    exact elementsIn_of_tokens_nil key args rfl
  · exact elementsIn_dispatchCommand key clock args store client

theorem elementsIn_execResults (key : Bytes) (clock : ℕ → Readings) (queue : List (List Bytes))
    {store : Store F} (hb : store.pendingBlock = none) (client : ClientState) :
    elementsInParts key (queue.zip (execResults clock queue store client)) =
      (execCalls clock queue store client).flatMap (Call.returned key) := by
  induction queue generalizing clock store client with
  | nil => rfl
  | cons args queue ih =>
    have hfirst := elementsIn_execQueued key (clock 0) args hb client
    have hrest := ih (fun i => clock (i + 1)) (traced_execQueued (clock 0) args hb client).2
      (execQueued (clock 0) args store client).2.2
    simp only [execResults, execCalls, List.zip_cons_cons, List.flatMap_append, ← hfirst, ← hrest]
    rfl

theorem reads_handleCommand (key : Bytes) (clock : ℕ → Readings) (args : List Bytes)
    {store : Store F} (hb : store.pendingBlock = none) (client : ClientState) :
    Spells (replyParts clock args store client) (handleCommand clock args store client).1 ∧
      elementsInParts key (replyParts clock args store client) =
        (commandCalls clock args store client).flatMap (Call.returned key) := by
  have hsingle : ∀ reply : Bytes, Spells [(args, reply)] reply ∧
      elementsInParts key [(args, reply)] = elementsIn key args reply := by
    intro reply
    exact ⟨.inl (by simp), by simp [elementsInParts]⟩
  cases hr : refusal args store client with
  | some reply =>
    have hreply : (handleCommand clock args store client).1 = reply := by
      simp only [handleCommand, hr]
    simp only [replyParts, commandCalls, hr, hreply, reduceCtorEq, false_and, if_false,
      Option.isSome_some, if_true, List.flatMap_nil]
    exact ⟨(hsingle reply).1,
      (hsingle reply).2.trans (elementsIn_of_isError key args (isError_of_refusal hr))⟩
  | none =>
    have hrun : handleCommand clock args store client = runCommand clock args store client := by
      simp only [handleCommand, hr]
    by_cases hexec : upperName args = ascii "EXEC" ∧ client.inMulti = true
    · obtain ⟨hname, hin⟩ := hexec
      have htransaction : runCommand clock args store client =
          execTransaction clock store client := by
        simp [runCommand, hname, hin, show ascii "EXEC" ≠ ascii "QUIT" by decide,
          show ascii "EXEC" ≠ ascii "RESET" by decide, show ascii "EXEC" ≠ ascii "MULTI" by decide,
          show ascii "EXEC" ≠ ascii "WATCH" by decide, show ascii "EXEC" ≠ ascii "UNWATCH" by decide,
          show ascii "EXEC" ≠ ascii "DISCARD" by decide]
      have hcalls : commandCalls clock args store client = transactionCalls clock store client := by
        simp [commandCalls, hr, hname, hin]
      simp only [replyParts, hr, hrun, htransaction, hcalls, hname, hin, true_and]
      unfold execTransaction transactionCalls
      dsimp only
      cases hdirty : (watchedDirty (clock 0) client.watched store.toKeyspace).1 with
      | true =>
        simp only [reduceCtorEq, if_false, if_true, List.flatMap_nil]
        exact ⟨(hsingle _).1, (hsingle _).2.trans (elementsIn_of_tokens_nil key args rfl)⟩
      | false =>
        simp only [Bool.false_eq_true, if_false, if_true]
        constructor
        · right
          rw [execQueue_fst, List.map_snd_zip (by rw [length_execResults]), List.length_zip,
            length_execResults, Nat.min_self]
        · exact elementsIn_execResults key _ client.queued (by exact hb) client.leaveMulti
    · have hparts : replyParts clock args store client =
          [(args, (runCommand clock args store client).1)] := by
        rw [replyParts, if_neg fun h => hexec ⟨h.2.1, h.2.2.1⟩, hrun]
      rw [hparts, hrun, (hsingle _).2]
      refine ⟨(hsingle _).1, ?_⟩
      have hd := handled_runCommand clock hr
      generalize runCommand clock args store client = r at hd
      generalize commandCalls clock args store client = calls at hd
      cases hd with
      | refused he => exact elementsIn_of_isError key args he
      | steered hs => exact elementsIn_of_control key hs.name _
      | queued _ _ _ => exact elementsIn_of_tokens_nil key args rfl
      | dispatched _ _ _ => exact elementsIn_dispatchCommand key (clock 0) args store client
      | exec hin hname => exact absurd ⟨hname, hin⟩ hexec

/-- An answer, with the parts that it has if it is the reply to a request. -/
structure Told where
  sent : Sent
  parts : List (List Bytes × Bytes)

namespace Told

def handed (key : Bytes) (t : Told) : List Bytes :=
  if t.sent.delivered then
    match t.sent.purpose with
    | .reply => elementsInParts key t.parts
    | .served => poppedIn key t.sent.payload
    | _ => []
  else []

/-- The answer is delivered, and a reply is made up of its parts. -/
structure Arrives (t : Told) : Prop where
  delivered : t.sent.delivered = true
  spelled : t.sent.purpose = .reply → Spells t.parts t.sent.payload

end Told

namespace Server

/-- Between two states the answers arrive, and they hand out what the calls return. -/
def Hands (key : Bytes) (parts : List (List Bytes × Bytes)) (s s' : Server F) : Prop :=
  ∃ calls new, s'.calls = s.calls ++ calls ∧ s'.answers = s.answers ++ new ∧
    (∀ x ∈ new, (Told.mk x parts).Arrives) ∧
    (new.flatMap fun x => (Told.mk x parts).handed key) = calls.flatMap (Call.returned key)

namespace Hands

variable {key : Bytes} {parts : List (List Bytes × Bytes)} {s s₁ s₂ : Server F}

theorem trans (h : Hands key parts s s₁) (h' : Hands key parts s₁ s₂) : Hands key parts s s₂ := by
  obtain ⟨calls, new, hcalls, hnew, hall, hhanded⟩ := h
  obtain ⟨calls', new', hcalls', hnew', hall', hhanded'⟩ := h'
  refine ⟨calls ++ calls', new ++ new', ?_, ?_, ?_, ?_⟩
  · rw [hcalls', hcalls, List.append_assoc]
  · rw [hnew', hnew, List.append_assoc]
  · exact List.forall_mem_append.mpr ⟨hall, hall'⟩
  · rw [List.flatMap_append, List.flatMap_append, hhanded, hhanded']

theorem of_quiet {calls : List (Call F)} (hc : s₁.calls = s.calls ++ calls)
    (ha : s₁.answers = s.answers) (hr : calls.flatMap (Call.returned key) = []) :
    Hands key parts s s₁ :=
  ⟨calls, [], hc, by rw [ha, List.append_nil], by simp, hr.symm⟩

theorem of_eq (hc : s₁.calls = s.calls) (ha : s₁.answers = s.answers) : Hands key parts s s₁ :=
  of_quiet (hc.trans (List.append_nil s.calls).symm) ha rfl

theorem refl (s : Server F) : Hands key parts s s := of_eq rfl rfl

theorem of_replication (h : Sends (Purpose.isReplication · = true) s s₁) : Hands key parts s s₁ :=
  of_eq h.calls h.answers_of_replication

theorem answer {x : Sent} {calls : List (Call F)} (hc : s₁.calls = s.calls ++ calls)
    (ha : s₁.answers = s.answers ++ [x]) (harrives : (Told.mk x parts).Arrives)
    (hhanded : (Told.mk x parts).handed key = calls.flatMap (Call.returned key)) :
    Hands key parts s s₁ := by
  refine ⟨calls, [x], hc, ha, List.forall_mem_singleton.mpr harrives, ?_⟩
  rw [List.flatMap_singleton, hhanded]

theorem served {env : Env} (hok : ∀ n, env.sendOk n = true) {calls : List (Call F)}
    (hc : s₁.calls = s.calls ++ calls) (ha : s₁.answers = s.answers) (fd : ℤ) {payload : Bytes}
    (hpopped : poppedIn key payload = calls.flatMap (Call.returned key)) :
    Hands key parts s (s₁.send env fd payload .served).2 := by
  have hanswers : (s₁.send env fd payload .served).2.answers =
      s.answers ++ [⟨fd, payload, .served, true⟩] := by rw [answers_send rfl, ha, hok]
  exact answer hc hanswers ⟨rfl, fun h => by cases h⟩ hpopped

end Hands

section Sending

variable {key : Bytes} {env : Env}

/-- The parts of the reply of an event. -/
def partsIn (env : Env) (event : Event) (s : Server F) : List (List Bytes × Bytes) :=
  match event with
  | .request fd r => replyParts (env.clock 0) r.args s.store (s.clients.getD fd {})
  | _ => []

theorem hands_command (hok : ∀ n, env.sendOk n = true) (fd : ℤ) (args : List Bytes) {s : Server F}
    (hb : s.store.pendingBlock = none) :
    Hands key (replyParts (env.clock 0) args s.store (s.clients.getD fd {})) s
      (s.command env fd args) := by
  cases hclient : s.clients[fd]? with
  | none =>
    have hsame : s.command env fd args = s := by simp only [command, hclient]
    rw [hsame]
    exact .refl s
  | some client =>
    cases hack : s.ackText args client with
    | some text =>
      have hsame : s.command env fd args = s.acknowledge fd text := by
        simp only [command, hclient, hack]
      rw [hsame]
      unfold acknowledge
      split
      · exact .of_eq rfl rfl
      · exact .refl s
    | none =>
      have hget : s.clients.getD fd {} = client := by
        simp [Std.ExtTreeMap.getD_eq_getD_getElem?, hclient]
      rw [hget]
      obtain ⟨hspell, hreads⟩ := reads_handleCommand key (env.clock 0) args hb client
      obtain ⟨t, ht, hcommand⟩ := command_ready env hclient hack
      obtain ⟨-, hucalls, hcases⟩ :=
        respond_cases env fd (handleCommand (env.clock 0) args s.store client).1 t
      generalize hu : t.respond env fd (handleCommand (env.clock 0) args s.store client).1 = u
        at hucalls hcases hcommand
      have hend : (s.command env fd args).calls = u.2.calls ∧
          (s.command env fd args).answers = u.2.answers := by
        rw [hcommand]
        dsimp only
        split
        · exact (answers_finish env fd u.2).symm
        · exact ⟨rfl, rfl⟩
      have hcalls := hend.1.trans (hucalls.trans ht.calls)
      rcases hcases with ⟨b, -, hblock, hanswers, -, -, -⟩ | ⟨-, hnil, rfl⟩ | ⟨-, -, hanswers⟩
      · apply Hands.of_quiet hcalls (hend.2.trans (hanswers.trans ht.answers))
        rw [commandCalls_of_blocked hb (by rw [← ht.block, hblock]; rfl)]
        rfl
      · apply Hands.of_quiet hcalls (hend.2.trans ht.answers)
        rw [hnil] at hspell
        rw [← hreads, hspell.elements_nil]
      · rw [ht.answers, hok] at hanswers
        apply Hands.answer hcalls (hend.2.trans hanswers)
        · exact ⟨rfl, fun _ => hspell⟩
        · exact hreads

theorem hands_serveWaiter {parts : List (List Bytes × Bytes)} (hok : ∀ n, env.sendOk n = true)
    (w : Waiter) (s : Server F) : Hands key parts s (s.serveWaiter env w).2 := by
  unfold serveWaiter
  split
  · split
    · exact .of_replication (.sendAcked env w.fd _ s)
    · exact .refl s
  · split
    · exact .refl s
    · rename_i k value store hpop
      obtain ⟨-, rest, hlist, rfl⟩ := Store.tryBlpop_eq_some hpop
      have hsends := Sends.propagatePopped env w.fd (s.store.popped k rest).pendingPropagations
        { s with
          store := { s.store.popped k rest with pendingPropagations := [] }
          calls := s.calls ++ [Call.pop s.store.toKeyspace k] }
      apply Hands.served hok hsends.calls hsends.answers_of_stream w.fd
      rw [poppedIn_pair, List.flatMap_singleton, Call.returned_pop hlist]
  · split
    · exact .refl s
    · rename_i reply hread
      apply Hands.served hok (List.append_nil s.calls).symm rfl w.fd
      exact poppedIn_tryXread key hread

theorem hands_serveAll {parts : List (List Bytes × Bytes)} (hok : ∀ n, env.sendOk n = true)
    (ws : List Waiter) (s : Server F) : Hands key parts s (serveAll env ws s).2 := by
  induction ws generalizing s with
  | nil => exact .refl s
  | cons w ws ih => exact (hands_serveWaiter hok w s).trans (ih _)

theorem hands_expireAll {parts : List (List Bytes × Bytes)} (hok : ∀ n, env.sendOk n = true)
    (ws : List Waiter) (s : Server F) : Hands key parts s (expireAll env ws s) := by
  induction ws generalizing s with
  | nil => exact .refl s
  | cons w ws ih =>
    unfold expireAll
    split
    · split
      · exact (Hands.of_replication (.sendAcked env w.fd _ s)).trans (ih _)
      · have hnull : Hands key parts s (s.send env w.fd nullArray.toBytes .served).2 :=
          .served hok (List.append_nil s.calls).symm rfl w.fd rfl
        exact hnull.trans (ih _)
    · exact ih s

theorem hands_step (hok : ∀ n, env.sendOk n = true) (event : Event) {s : Server F}
    (hb : s.store.pendingBlock = none) (hm : s.masterFd = none) :
    Hands key (partsIn env event s) s (s.step env event) := by
  unfold step
  split
  · exact .refl s
  cases event with
  | accept fd =>
    dsimp only [accept]
    split
    · exact .refl s
    · exact .of_eq rfl rfl
  | request fd r =>
    dsimp only
    split
    · exact .refl s
    · exact hands_command hok fd r.args hb
  | hangup fd =>
    dsimp only
    split
    · exact .of_eq rfl rfl
    · exact .refl s
  | chunk bytes =>
    simp only [fromMaster, hm]
    exact .refl s
  | masterClosed =>
    simp only [masterClosed, hm]
    exact .refl s
  | round =>
    have hserve : Hands key [] s (serveAll env s.waiters s).2 := hands_serveAll hok s.waiters s
    have hexpire : Hands key [] (s.serveWaiters env)
        (expireAll env (s.serveWaiters env).waiters (s.serveWaiters env)) :=
      hands_expireAll hok _ _
    exact ((hserve.trans (.of_eq rfl rfl)).trans hexpire).trans (.of_eq rfl rfl)

end Sending

/-- The answers along a run, each with its parts. -/
def transcript : List (Env × Event) → Server F → List Told
  | [], _ => []
  | (env, event) :: events, s =>
    ((s.step env event).answers.drop s.answers.length).map (Told.mk · (partsIn env event s)) ++
      transcript events (s.step env event)

/-- Along a run of a server without a primary whose sends succeed, the answers arrive and hand out
exactly what the calls return. -/
theorem transcript_run (key : Bytes) {events : List (Env × Event)}
    (hok : ∀ e ∈ events, ∀ n, e.1.sendOk n = true) {s : Server F} (hl : s.Logged Anything Always)
    (hs : s.Streamed) :
    ∃ calls, (run events s).calls = s.calls ++ calls ∧
      (run events s).answers = s.answers ++ (transcript events s).map Told.sent ∧
      (∀ t ∈ transcript events s, t.Arrives) ∧
      (transcript events s).flatMap (Told.handed key) = calls.flatMap (Call.returned key) := by
  induction events generalizing s with
  | nil => exact ⟨[], by simp [run, transcript]⟩
  | cons e events ih =>
    obtain ⟨env, event⟩ := e
    obtain ⟨hl', hs'⟩ := hs.accounted hl (accounted_step (T := Always) popClosed_anything hl.settled
      (fun _ _ => trivial) event.carries_anything (.inl hs.masterFd))
    have hstep : Hands key (partsIn env event s) s (s.step env event) :=
      hands_step (hok _ List.mem_cons_self) event hl.settled.block hs.masterFd
    obtain ⟨calls, new, hcalls, hnew, hall, hhanded⟩ := hstep
    obtain ⟨calls', hcalls', hanswers', hall', hhanded'⟩ :=
      ih (fun e' h => hok e' (List.mem_cons_of_mem _ h)) hl' hs'
    refine ⟨calls ++ calls', ?_, ?_, ?_, ?_⟩
    · rw [run, hcalls', hcalls, List.append_assoc]
    · rw [run, hanswers', transcript, hnew, List.drop_left, List.map_append, List.map_map,
        List.append_assoc]
      simp [Function.comp_def]
    · rw [transcript, hnew, List.drop_left]
      intro t ht
      rcases List.mem_append.mp ht with ht | ht
      · obtain ⟨x, hx, rfl⟩ := List.mem_map.mp ht
        exact hall x hx
      · exact hall' t ht
    · rw [transcript, hnew, List.drop_left, List.flatMap_append, List.flatMap_append, hhanded',
        List.flatMap_map, hhanded]

/-- The account of the elements of one list. Pushed elements are handed out by answers or are still
there: each answer hands out what its calls took from the head of the list, and nothing else. The
log has one `LPOP` for each call that removes elements. -/
structure AccountsFor (key : Bytes) (told : List Told) (s : Server F) : Prop where
  chain : Chain {} s.calls s.store.toKeyspace
  conserved : (s.calls.flatMap (Call.pushed key)).Perm
    (told.flatMap (Told.handed key) ++ s.store.listAt key)
  answers : told.map Told.sent = s.answers
  arrives : ∀ t ∈ told, t.Arrives
  handed : told.flatMap (Told.handed key) = s.calls.flatMap (Call.returned key)
  fromHead : ∀ c ∈ s.calls, c.returned key ≠ [] →
    c.data.listAt key = c.returned key ++ c.result.2.listAt key
  shown : ∀ c ∈ s.calls, c.popsFrom key = true → c.Shows key
  lpop : ∀ c ∈ s.calls, c.returned key ≠ [] →
    c.logged = true ∧ upperName c.args = ascii "LPOP" ∧ c.args[1]? = some key ∧
      ∀ clock, (execute clock c.args c.data).2.dynamicVector = c.result.2.dynamicVector
  log : s.aofOpen = true → IsLog (loggedArgs s.calls) s.aof

/-- The elements of a list that is never overwritten are neither lost nor duplicated. -/
theorem list_elements_conserved (config : Config) (replid : ReplId) (events : List (Env × Event))
    (key : Bytes) (hok : ∀ e ∈ events, ∀ n, e.1.sendOk n = true)
    (hkeep : ∀ c ∈ (run events (start config replid : Server F)).calls, c.overwrites key = false) :
    (run events (start config replid : Server F)).AccountsFor key
      (transcript events (start config replid : Server F)) := by
  have hstart : (start config replid : Server F).Logged Anything Always :=
    logged_start config replid
  have hlogged : (run events (start config replid : Server F)).Logged Anything Always :=
    Logged.run config replid none events
  obtain ⟨calls, hcalls, hanswers, hall, hhanded⟩ :=
    transcript_run key hok hstart (streamed_start config replid)
  have hreturned : (transcript events (start config replid : Server F)).flatMap (Told.handed key) =
      (run events (start config replid : Server F)).calls.flatMap (Call.returned key) := by
    rw [hcalls]
    exact hhanded
  constructor
  · exact hlogged.chain
  · rw [hreturned]
    simpa [Keyspace.listAt] using hlogged.chain.conserves hkeep
  · rw [hanswers]
    rfl
  · exact hall
  · exact hreturned
  · intro c hc hne
    rcases Call.listAt_result key (hkeep c hc) with ⟨-, h⟩ | ⟨h, -⟩
    · exact h
    · exact absurd h hne
  · exact fun c _ h => Call.shows_of_popsFrom h
  · exact fun c _ h => Call.logged_of_returned h
  · exact hlogged.log

def popping : List (Env × Event) :=
  [(.still, .accept 5), (.still, .accept 6),
    asks 5 [ascii "BLPOP", ascii "l", ascii "m", ascii "0"] (by decide),
    asks 6 [ascii "RPUSH", ascii "m", ascii "a", ascii "b", ascii "c", ascii "d"] (by decide),
    (.still, .round), asks 6 [ascii "multi"] (by decide),
    asks 6 [ascii "BLPOP", ascii "m", ascii "0"] (by decide),
    asks 6 [ascii "LPOP", ascii "m", ascii "1"] (by decide), asks 6 [ascii "exec"] (by decide)]

theorem list_elements_conserved_popping :
    (transcript popping (start {} .zeros : Server Whole)).map (Told.handed (ascii "m")) =
      [[], [ascii "a"], [], [], [], [ascii "b", ascii "c"]] ∧
    (run popping (start {} .zeros : Server Whole)).AccountsFor (ascii "m")
      (transcript popping (start {} .zeros : Server Whole)) :=
  ⟨by decide, list_elements_conserved {} .zeros popping (ascii "m")
    (by simp [popping, asks, Env.still]) (by decide)⟩

end Server

end TrueStore
