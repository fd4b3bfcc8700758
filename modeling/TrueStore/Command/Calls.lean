import TrueStore.Command.Sessions

/-! # The data along a run

A call is one run of a data command together with the data that it found. Between two calls
only expired keys can disappear, so the calls of a run determine how its data came about.
The calls that were successful writes are exactly what the server logs and propagates.
-/

namespace TrueStore

open RespType

variable {F : Type} [Platform F]

def dataCommand (args : List Bytes) : Option DataCommand :=
  match commandName (upperName args) with
  | some (.data command) => some command
  | _ => none

def execute (clock : Readings) (args : List Bytes) (ks : Keyspace F) : Bytes × Keyspace F :=
  match dataCommand args with
  | some command => command.dispatch clock args ks
  | none => (unknownCommand args, ks)

/-- A change of the data, with the data that it found: a data command and its clock readings, or
the pop of the blocking path, which is not dispatched. -/
inductive Call (F : Type) [Platform F] where
  | run (clock : Readings) (data : Keyspace F) (args : List Bytes)
  | pop (data : Keyspace F) (key : Bytes)

namespace Call

def data : Call F → Keyspace F
  | run _ data _ => data
  | pop data _ => data

/-- A pop is propagated as an `LPOP`. -/
def args : Call F → List Bytes
  | run _ _ args => args
  | pop _ key => [ascii "LPOP", key]

def result : Call F → Bytes × Keyspace F
  | run clock data args => execute clock args data
  | pop data key => data.handleLpop [ascii "LPOP", key]

/-- The call is a write that succeeded, the condition for logging and propagation. -/
def logged (c : Call F) : Bool :=
  isWriteCommand (upperName c.args) && !isError c.result.1

end Call

def loggedArgs (calls : List (Call F)) : List (List Bytes) := (calls.filter Call.logged).map Call.args

/-- How the data changes along a list of calls. -/
inductive Chain : Keyspace F → List (Call F) → Keyspace F → Prop where
  | nil (ks) : Chain ks [] ks
  | evict {ks ks' calls} (clock : Clock) (key : Bytes) : Chain (ks.evict clock key) calls ks' →
      Chain ks calls ks'
  | call {ks ks' calls} (c : Call F) : c.data = ks → Chain c.result.2 calls ks' →
      Chain ks (c :: calls) ks'

def dispatchCalls (clock : Readings) (args : List Bytes) (store : Store F) : List (Call F) :=
  match commandName (upperName args) with
  | some (.data _) => [.run clock store.toKeyspace args]
  | some .blpop =>
    -- a pop is the only thing for which a dispatched command queues a propagation
    match (store.handleBlpop args).2.pendingPropagations.drop store.pendingPropagations.length with
    | [_, key] :: _ => [.pop store.toKeyspace key]
    | _ => []
  | _ => []

def execCalls : (ℕ → Readings) → List (List Bytes) → Store F → ClientState → List (Call F)
  | _, [], _, _ => []
  | clock, args :: queue, store, client =>
    let r := execQueued (clock 0) args store client
    dispatchCalls (clock 0) args store ++ execCalls (fun i => clock (i + 1)) queue r.2.1 r.2.2

/-- The calls of `EXEC` inside a transaction. -/
def transactionCalls (clock : ℕ → Readings) (store : Store F) (client : ClientState) :
    List (Call F) :=
  let d := watchedDirty (clock 0) client.watched store.toKeyspace
  if d.1 then []
  else execCalls (fun i => clock (i + 1)) client.queued { store with toKeyspace := d.2 }
    client.leaveMulti

def commandCalls (clock : ℕ → Readings) (args : List Bytes) (store : Store F)
    (client : ClientState) : List (Call F) :=
  if (refusal args store client).isSome then []
  else if upperName args = ascii "EXEC" ∧ client.inMulti then transactionCalls clock store client
  else if upperName args ∈ controlCommands ∨ client.inMulti then []
  else dispatchCalls (clock 0) args store

/-- Everything that `handle_command` can do, with its calls. -/
inductive Handled (clock : ℕ → Readings) (args : List Bytes) (store : Store F)
    (client : ClientState) : Bytes × Store F × ClientState → List (Call F) → Prop where
  | refused {reply} : isError reply = true →
      Handled clock args store client (reply, store, client) []
  | steered {r} : Steered (clock 0) args store client r → Handled clock args store client r []
  | exec : client.inMulti = true → upperName args = ascii "EXEC" →
      Handled clock args store client (execTransaction clock store client)
        (transactionCalls clock store client)
  | queued : client.inMulti = true → args ≠ [] → upperName args ∉ controlCommands →
      Handled clock args store client
        ((simpleString (ascii "QUEUED")).toBytes, store, client.enqueue args) []
  | dispatched : client.inMulti = false → args ≠ [] → upperName args ∉ controlCommands →
      Handled clock args store client (dispatchCommand (clock 0) args store client)
        (dispatchCalls (clock 0) args store)

theorem commandCalls_of_control {clock : ℕ → Readings} {args : List Bytes} {store : Store F}
    {client : ClientState} (hn : upperName args ∈ controlCommands)
    (hx : ¬(upperName args = ascii "EXEC" ∧ client.inMulti = true)) :
    commandCalls clock args store client = [] := by
  unfold commandCalls
  simp [hx, hn]

theorem handled_runCommand (clock : ℕ → Readings) {args : List Bytes} {store : Store F}
    {client : ClientState} (hr : refusal args store client = none) :
    Handled clock args store client (runCommand clock args store client)
      (commandCalls clock args store client) := by
  have hargs := args_ne_nil_of_refusal hr
  have hname : ∀ name ∈ controlCommands, upperName args = name → name ≠ ascii "EXEC" →
      upperName args ∈ controlCommands ∧ commandCalls clock args store client = [] := by
    intro name hmem he hne
    subst he
    exact ⟨hmem, commandCalls_of_control hmem fun h => hne h.1⟩
  unfold runCommand
  dsimp only
  split
  · rename_i hq
    obtain ⟨hmem, hcalls⟩ : upperName args ∈ controlCommands ∧
        commandCalls clock args store client = [] := by
      rcases hq with h | h <;> exact hname _ (by decide) h (by decide)
    rw [hcalls]
    split
    · exact .refused rfl
    · exact .steered ⟨hmem, ⟨by simp, toBytes_ne_nil _⟩, .refl _, rfl, rfl, rfl, rfl, rfl, rfl,
        .inr rfl⟩
  split
  · rename_i hm
    obtain ⟨hmem, hcalls⟩ := hname _ (by decide) hm (by decide)
    rw [hcalls]
    repeat' split
    · exact .refused rfl
    · exact .refused rfl
    · exact .steered ⟨hmem, ⟨rfl, toBytes_ne_nil _⟩, .refl _, rfl, rfl, rfl, rfl, rfl, rfl,
        .inl rfl⟩
  split
  · rename_i hm
    obtain ⟨hmem, hcalls⟩ := hname _ (by decide) hm (by decide)
    rw [hcalls]
    repeat' split
    · exact .refused rfl
    · exact .refused rfl
    · exact .steered ⟨hmem, ⟨rfl, toBytes_ne_nil _⟩, evicts_watchKeys _ _ _, rfl, rfl, rfl, rfl,
        rfl, rfl, .inl rfl⟩
  split
  · rename_i hm
    obtain ⟨hmem, hcalls⟩ := hname _ (by decide) hm (by decide)
    rw [hcalls]
    exact .steered ⟨hmem, ⟨rfl, toBytes_ne_nil _⟩, .refl _, rfl, rfl, rfl, rfl, rfl, rfl, .inl rfl⟩
  split
  · rename_i hm
    obtain ⟨hmem, hcalls⟩ := hname _ (by decide) hm (by decide)
    rw [hcalls]
    split
    · exact .refused rfl
    · exact .steered ⟨hmem, ⟨rfl, toBytes_ne_nil _⟩, .refl _, rfl, rfl, rfl, rfl, rfl, rfl,
        .inr rfl⟩
  split
  · rename_i hm
    split
    · rename_i hin
      rw [commandCalls_of_control (hm ▸ by decide) fun h => by simp [h.2] at hin]
      exact .refused rfl
    · rename_i hin
      have hin : client.inMulti = true := by simpa using hin
      simp only [commandCalls, hr, hm, hin, Option.isSome_none, Bool.false_eq_true, if_false,
        and_self, if_true]
      exact .exec hin hm
  rename_i h₁ h₂ h₃ h₄ h₅ h₆
  have hnot : upperName args ∉ controlCommands := by
    intro hmem
    simp only [controlCommands, List.map_cons, List.map_nil, List.mem_cons, List.not_mem_nil,
      or_false] at hmem
    rcases hmem with h | h | h | h | h | h | h
    · exact h₁ (.inl h)
    · exact h₁ (.inr h)
    · exact h₂ h
    · exact h₃ h
    · exact h₄ h
    · exact h₅ h
    · exact h₆ h
  simp only [commandCalls, hr, h₆, hnot, Option.isSome_none, Bool.false_eq_true, if_false,
    false_and, false_or]
  split
  · rename_i hin
    exact .queued hin hargs hnot
  · rename_i hin
    exact .dispatched (by simpa using hin) hargs hnot

theorem handled_handleCommand (clock : ℕ → Readings) (args : List Bytes) (store : Store F)
    (client : ClientState) :
    Handled clock args store client (handleCommand clock args store client)
      (commandCalls clock args store client) := by
  unfold handleCommand
  split
  · rename_i reply hr
    simp only [commandCalls, hr, Option.isSome_some, if_true]
    exact .refused (isError_of_refusal hr)
  · exact handled_runCommand clock ‹_›

theorem Chain.trans {ks₁ ks₂ ks₃ : Keyspace F} {calls calls' : List (Call F)}
    (h : Chain ks₁ calls ks₂) (h' : Chain ks₂ calls' ks₃) : Chain ks₁ (calls ++ calls') ks₃ := by
  induction h with
  | nil => exact h'
  | evict clock key _ ih => exact .evict clock key (ih h')
  | call c hc _ ih => exact .call c hc (ih h')

theorem Chain.of_eq {ks ks' : Keyspace F} (h : ks' = ks) : Chain ks [] ks' := h ▸ .nil _

theorem Chain.of_evicts {clock : Readings} {ks ks' : Keyspace F}
    (h : Keyspace.Evicts clock ks ks') : Chain ks [] ks' := by
  induction h with
  | refl => exact .nil _
  | step i key _ ih => exact .evict (clock i) key ih

theorem loggedArgs_append (calls calls' : List (Call F)) :
    loggedArgs (calls ++ calls') = loggedArgs calls ++ loggedArgs calls' := by
  simp [loggedArgs]

/-- The commands that a dispatched command makes the server log: itself, when it is a write that
succeeds, and otherwise what it queued. -/
def directArgs (args : List Bytes) (reply : Bytes) : List (List Bytes) :=
  if isWriteCommand (upperName args) && !isError reply then [args] else []

/-- The calls and the propagations of a command describe the same writes. -/
structure Traced (store store' : Store F) (calls : List (Call F)) (direct : List (List Bytes)) :
    Prop where
  chain : Chain store.toKeyspace calls store'.toKeyspace
  logged : ∃ queued, store'.pendingPropagations = store.pendingPropagations ++ queued ∧
    loggedArgs calls = direct ++ queued ∧ (direct = [] ∨ queued = [])

theorem directArgs_of_not_write {args : List Bytes} {reply : Bytes}
    (h : isWriteCommand (upperName args) = true → isError reply = true) :
    directArgs args reply = [] := by
  unfold directArgs
  split
  · rename_i hw
    rw [Bool.and_eq_true] at hw
    simp [h hw.1] at hw
  · rfl

theorem isWriteCommand_lpop (key : Bytes) :
    isWriteCommand (upperName [ascii "LPOP", key]) = true := by
  change isWriteCommand (toUpper (ascii "LPOP")) = true
  decide

theorem Call.result_pop {ks : Keyspace F} {key value : Bytes} {rest : List Bytes}
    (h : ks.listAt key = value :: rest) :
    (Call.pop ks key).result = ((bulkString value).toBytes, ks.storeList key rest) :=
  Keyspace.handleLpop_of_listAt h (ascii "LPOP")

theorem loggedArgs_pop {ks : Keyspace F} {key value : Bytes} {rest : List Bytes}
    (h : ks.listAt key = value :: rest) :
    loggedArgs [Call.pop ks key] = [[ascii "LPOP", key]] := by
  have hlog : (Call.pop ks key).logged = true := by
    simp [Call.logged, Call.args, Call.result_pop h, isWriteCommand_lpop]
  simp [loggedArgs, hlog, Call.args]

theorem dispatchCalls_cases (clock : Readings) (args : List Bytes) (store : Store F)
    (client : ClientState) :
    (∃ command, commandName (upperName args) = some (.data command) ∧
      dispatchCommand clock args store client =
        ((command.dispatch clock args store.toKeyspace).1,
          { store with toKeyspace := (command.dispatch clock args store.toKeyspace).2 }, client) ∧
      dispatchCalls clock args store = [.run clock store.toKeyspace args]) ∨
    (∃ key value rest, commandName (upperName args) = some .blpop ∧ key ∈ args.tail.dropLast ∧
      store.listAt key = value :: rest ∧
      dispatchCommand clock args store client = ((array [key, value]).toBytes,
        { store with pendingBlock := none }.popped key rest, client) ∧
      dispatchCalls clock args store = [.pop store.toKeyspace key]) ∨
    (isWriteCommand (upperName args) = true →
        isError (dispatchCommand clock args store client).1 = true) ∧
      Apart store client (dispatchCommand clock args store client) ∧
      dispatchCalls clock args store = [] := by
  rcases dispatchCommand_cases clock args store client with
    ⟨command, hn, hd⟩ | ⟨hn, key, value, rest, hmem, hlist, hd⟩ | ⟨hnd, hw, happart⟩
  · exact .inl ⟨command, hn, hd, by simp only [dispatchCalls, hn]⟩
  · refine .inr (.inl ⟨key, value, rest, hn, hmem, hlist, hd, ?_⟩)
    have hp : (store.handleBlpop args).2.pendingPropagations =
        store.pendingPropagations ++ [[ascii "LPOP", key]] := by
      have := congrArg (fun r => r.2.1.pendingPropagations) hd
      simp only [dispatchCommand, hn] at this
      exact this
    simp only [dispatchCalls, hn, hp, List.drop_left]
  · refine .inr (.inr ⟨hw, happart, ?_⟩)
    unfold dispatchCalls
    split
    · exact absurd ‹_› (hnd _)
    · rename_i hn
      have hp := happart.aside.propagations
      simp only [dispatchCommand, hn] at hp
      rw [hp, List.drop_length]
    · rfl

theorem traced_dispatchCommand (clock : Readings) (args : List Bytes) (store : Store F)
    (client : ClientState) :
    Traced store (dispatchCommand clock args store client).2.1 (dispatchCalls clock args store)
      (directArgs args (dispatchCommand clock args store client).1) := by
  rcases dispatchCalls_cases clock args store client with
    ⟨command, hn, hd, hcalls⟩ | ⟨key, value, rest, hn, -, hlist, hd, hcalls⟩ |
      ⟨hw, happart, hcalls⟩
  · have hx : execute clock args store.toKeyspace = command.dispatch clock args store.toKeyspace := by
      simp only [execute, dataCommand, hn]
    rw [hd, hcalls]
    refine ⟨.call _ rfl ?_, [], by simp, ?_, .inr rfl⟩
    · simp only [Call.result, hx]
      exact .nil _
    · simp only [loggedArgs, directArgs, List.filter_cons, Call.logged, Call.args, Call.result, hx,
        List.filter_nil, List.append_nil]
      split <;> rfl
  · rw [hcalls, hd, directArgs_of_not_write (by simp [isWriteCommand_of_commandName hn,
      CommandName.isWrite])]
    refine ⟨.call _ rfl ?_, [[ascii "LPOP", key]], rfl, loggedArgs_pop hlist, .inl rfl⟩
    rw [Call.result_pop hlist]
    exact .nil _
  · rw [directArgs_of_not_write hw, hcalls]
    refine ⟨?_, [], by simp [happart.aside.propagations], rfl, .inl rfl⟩
    rw [happart.aside.data]
    exact .nil _

theorem directArgs_of_blocked {clock : Readings} {args : List Bytes} {store : Store F}
    {client : ClientState} (hb : store.pendingBlock = none)
    (h : (dispatchCommand clock args store client).2.1.pendingBlock.isSome = true) (reply : Bytes) :
    directArgs args reply = [] := by
  apply directArgs_of_not_write
  rcases dispatchCommand_cases clock args store client with
    ⟨command, -, hd⟩ | ⟨-, key, value, rest, -, -, hd⟩ | ⟨-, hw, happart⟩
  · rw [hd] at h
    simp [hb] at h
  · rw [hd] at h
    simp [Store.popped, Store.queuePropagation] at h
  · have hreply := happart.block hb (Option.isSome_iff_ne_none.mp h)
    intro hwrite
    rw [hreply] at hw
    cases hw hwrite

theorem queuePropagation_direct (store : Store F) (args : List Bytes) (reply : Bytes) :
    (if isWriteCommand (upperName args) && !isError reply then store.queuePropagation args
      else store) =
      { store with
        pendingPropagations := store.pendingPropagations ++ directArgs args reply } := by
  unfold directArgs
  split
  · rfl
  · rw [List.append_nil]

theorem execQueued_eq (clock : Readings) (args : List Bytes) {store : Store F}
    (hb : store.pendingBlock = none) (client : ClientState) :
    let r := dispatchCommand clock args store client
    (execQueued clock args store client).2 =
      ({ r.2.1 with
          pendingBlock := none
          pendingPropagations := r.2.1.pendingPropagations ++ directArgs args r.1 }, r.2.2) := by
  intro r
  have hdirect : directArgs args (if r.2.1.pendingBlock.isSome then nullArray.toBytes else r.1) =
      directArgs args r.1 := by
    split
    · rename_i h
      rw [directArgs_of_blocked hb h, directArgs_of_blocked hb h]
    · rfl
  simp only [execQueued, queuePropagation_direct, r, ← hdirect]

theorem traced_execQueued (clock : Readings) (args : List Bytes) {store : Store F}
    (hb : store.pendingBlock = none) (client : ClientState) :
    Traced store (execQueued clock args store client).2.1 (dispatchCalls clock args store) [] ∧
      (execQueued clock args store client).2.1.pendingBlock = none := by
  obtain ⟨hchain, queued, hq, hlog, heither⟩ := traced_dispatchCommand clock args store client
  rw [execQueued_eq clock args hb client]
  refine ⟨⟨hchain, queued ++ directArgs args (dispatchCommand clock args store client).1, ?_, ?_,
    .inl rfl⟩, rfl⟩
  · simp [hq]
  · rcases heither with h | h <;> simp [hlog, h]

theorem traced_execQueue (clock : ℕ → Readings) (queue : List (List Bytes)) {store : Store F}
    (hb : store.pendingBlock = none) (client : ClientState) :
    Traced store (execQueue clock queue store client).2.1 (execCalls clock queue store client) [] ∧
      (execQueue clock queue store client).2.1.pendingBlock = none := by
  induction queue generalizing clock store client with
  | nil => exact ⟨⟨.nil _, [], by simp [execQueue], rfl, .inl rfl⟩, hb⟩
  | cons args queue ih =>
    obtain ⟨⟨hchain, q, hq, hlog, -⟩, hb'⟩ := traced_execQueued (clock 0) args hb client
    obtain ⟨⟨hchain', q', hq', hlog', -⟩, hb''⟩ := ih (fun i => clock (i + 1)) hb'
      (execQueued (clock 0) args store client).2.2
    refine ⟨⟨hchain.trans hchain', q ++ q', ?_, ?_, .inl rfl⟩, hb''⟩
    · simp only [execQueue, hq', hq, List.append_assoc]
    · simp only [execCalls, loggedArgs_append, hlog, hlog', List.nil_append]

theorem isWriteCommand_of_control {args : List Bytes} (h : upperName args ∈ controlCommands) :
    ¬isWriteCommand (upperName args) = true := by
  have hall : ∀ name ∈ controlCommands, ¬isWriteCommand name = true := by decide
  exact hall _ h

/-- The commands that the server logs on its own for a command of a client outside a
transaction. -/
def ownArgs (args : List Bytes) (client : ClientState) (reply : Bytes) : List (List Bytes) :=
  if client.inMulti then [] else directArgs args reply

/-- The writes of a command, with the data that each one found, are exactly what the server logs
for it: the command itself and the propagations that it queued. -/
theorem traced_handleCommand (clock : ℕ → Readings) (args : List Bytes) {store : Store F}
    (hb : store.pendingBlock = none) (client : ClientState) :
    Traced store (handleCommand clock args store client).2.1 (commandCalls clock args store client)
      (ownArgs args client (handleCommand clock args store client).1) := by
  have hd := handled_handleCommand clock args store client
  generalize handleCommand clock args store client = r at hd
  generalize commandCalls clock args store client = calls at hd
  have hquiet : ∀ {reply}, (isWriteCommand (upperName args) = true → isError reply = true) →
      ownArgs args client reply = [] := by
    intro reply h
    unfold ownArgs
    split
    · rfl
    · exact directArgs_of_not_write h
  cases hd with
  | refused he =>
    rw [hquiet fun _ => he]
    exact ⟨.nil _, [], by simp, rfl, .inl rfl⟩
  | steered hs =>
    rw [hquiet fun h => absurd h (isWriteCommand_of_control hs.name)]
    exact ⟨.of_evicts hs.data, [], by simp [hs.propagations], rfl, .inl rfl⟩
  | queued hin _ _ =>
    simp only [ownArgs, hin, if_true]
    exact ⟨.nil _, [], by simp, rfl, .inl rfl⟩
  | dispatched hin _ _ =>
    simp only [ownArgs, hin, Bool.false_eq_true, if_false]
    exact traced_dispatchCommand (clock 0) args store client
  | exec hin _ =>
    simp only [ownArgs, hin, if_true]
    have he := evicts_watchedDirty client.watched (clock 0) store.toKeyspace
    unfold execTransaction transactionCalls
    dsimp only
    split
    · exact ⟨.of_evicts he, [], by simp, rfl, .inl rfl⟩
    · have hb' : { store with toKeyspace := (watchedDirty (clock 0) client.watched
          store.toKeyspace).2 }.pendingBlock = none := hb
      obtain ⟨⟨hchain, q, hq, hlog, -⟩, -⟩ := traced_execQueue (fun i => clock (i + 1))
        client.queued hb' client.leaveMulti
      exact ⟨(Chain.of_evicts he).trans hchain, q, hq, hlog, .inl rfl⟩

theorem Call.evicts_or_mutation (c : Call F) :
    ∃ clock ks₁, Keyspace.Evicts clock c.data ks₁ ∧ (c.result.2 = ks₁ ∨ Mutation ks₁ c.result.2) := by
  cases c with
  | run clock data args =>
    simp only [Call.data, Call.result, execute]
    split
    · rename_i command _
      rcases (command.outcome_dispatch clock args data).evicts_or_mutation with
        h | ⟨-, -, ks₁, he, hm⟩
      · exact ⟨clock, _, h, .inl rfl⟩
      · exact ⟨clock, ks₁, he, .inr hm⟩
    · exact ⟨clock, data, .refl _, .inl rfl⟩
  | pop data key =>
    refine ⟨fun _ => ⟨0, 0⟩, data, .refl _, ?_⟩
    rcases Keyspace.handleLpop_cases [ascii "LPOP", key] data with h | ⟨_, k, _, n, -, -, -, h⟩
    · exact .inl h
    · right
      simp only [Call.result, h]
      exact .pop _ _ _

/-- What neither lazy expiry nor a write can break holds of the data all along. -/
theorem Chain.preserves {P : Keyspace F → Prop}
    (hE : ∀ ks clock key, P ks → P (Keyspace.evict ks clock key))
    (hM : ∀ ks ks', Mutation ks ks' → P ks → P ks') {ks ks' : Keyspace F} {calls : List (Call F)}
    (h : Chain ks calls ks') (hks : P ks) : P ks' := by
  induction h with
  | nil => exact hks
  | evict clock key _ ih => exact ih (hE _ clock key hks)
  | call c hc _ ih =>
    subst hc
    obtain ⟨clock, ks₁, he, h | h⟩ := c.evicts_or_mutation
    · exact ih (h ▸ he.preserves (fun ks i key => hE ks _ key) hks)
    · exact ih (hM _ _ h (he.preserves (fun ks i key => hE ks _ key) hks))

end TrueStore
