import TrueStore.Command.Replies
import TrueStore.Command.Transactions

/-! # The reply of EXEC

`EXEC` announces as many results as there are queued commands and appends what each of them
answers. The announced array is complete unless a command answers with more than one reply.
-/

namespace TrueStore

open RespType

variable {F : Type} [Platform F]

def execResults : (ℕ → Readings) → List (List Bytes) → Store F → ClientState → List Bytes
  | _, [], _, _ => []
  | clock, args :: queue, store, client =>
    let r := execQueued (clock 0) args store client
    r.1 :: execResults (fun i => clock (i + 1)) queue r.2.1 r.2.2

theorem execQueue_fst (queue : List (List Bytes)) (clock : ℕ → Readings) (store : Store F)
    (client : ClientState) :
    (execQueue clock queue store client).1 = (execResults clock queue store client).flatten := by
  induction queue generalizing clock store client with
  | nil => rfl
  | cons args queue ih => simp [execQueue, execResults, ih]

theorem length_execResults (queue : List (List Bytes)) (clock : ℕ → Readings) (store : Store F)
    (client : ClientState) : (execResults clock queue store client).length = queue.length := by
  induction queue generalizing clock store client with
  | nil => rfl
  | cons args queue ih => simp [execResults, ih]

/-- The channels that `UNSUBSCRIBE` leaves. -/
def leftChannels (args : List Bytes) (subscriptions : Std.ExtTreeSet Bytes) : List Bytes :=
  if args.tail = [] then subscriptions.toList else args.tail

def subscriptionsAfter (args : List Bytes) (subscriptions : Std.ExtTreeSet Bytes) :
    Std.ExtTreeSet Bytes :=
  match commandName (upperName args) with
  | some .subscribe => args.tail.foldl (·.insert ·) subscriptions
  | some .unsubscribe => (leftChannels args subscriptions).foldl (·.erase ·) subscriptions
  | _ => subscriptions

/-- The queued command has one reply: it is not `PSYNC`, and it subscribes to at most one channel
or leaves at most one. -/
def SingleReply (args : List Bytes) (subscriptions : Std.ExtTreeSet Bytes) : Prop :=
  match commandName (upperName args) with
  | some .psync => False
  | some .subscribe => args.tail.length ≤ 1
  | some .unsubscribe => (leftChannels args subscriptions).length ≤ 1
  | _ => True

/-- Each command of the queue has one reply. A request to block that was left over hides the
reply of the first command. -/
def SingleReplies : Bool → Std.ExtTreeSet Bytes → List (List Bytes) → Prop
  | _, _, [] => True
  | blocked, subscriptions, args :: queue =>
    (blocked = true ∨ SingleReply args subscriptions) ∧
      SingleReplies false (subscriptionsAfter args subscriptions) queue

namespace Store

theorem isReply_subscriptionReply (kind : String) {channel : RespType}
    (h : IsReply channel.toBytes) (count : ℕ) :
    IsReply (subscriptionReply kind channel count) := by
  refine isReply_nestedArray fun element helement => ?_
  simp only [List.mem_cons, List.not_mem_nil, or_false] at helement
  rcases helement with rfl | rfl | rfl
  · simp
  · exact h
  · simp

theorem subscriptionReply_ne_nil (kind : String) (channel : RespType) (count : ℕ) :
    subscriptionReply kind channel count ≠ [] := toBytes_ne_nil _

theorem subscribeAll_client (channels : List Bytes) (s : Store F) (client : ClientState) :
    (subscribeAll channels s client).2.2.subscriptions =
      channels.foldl (·.insert ·) client.subscriptions := by
  induction channels generalizing s client with
  | nil => rfl
  | cons channel channels ih => exact ih _ _

theorem subscribeAll_pendingBlock (channels : List Bytes) (s : Store F) (client : ClientState) :
    (subscribeAll channels s client).2.1.pendingBlock = s.pendingBlock := by
  induction channels generalizing s client with
  | nil => rfl
  | cons channel channels ih => exact ih _ _

theorem unsubscribeAll_client (channels : List Bytes) (s : Store F) (client : ClientState) :
    (unsubscribeAll channels s client).2.2.subscriptions =
      channels.foldl (·.erase ·) client.subscriptions := by
  induction channels generalizing s client with
  | nil => rfl
  | cons channel channels ih => exact ih _ _

theorem unsubscribeAll_pendingBlock (channels : List Bytes) (s : Store F) (client : ClientState) :
    (unsubscribeAll channels s client).2.1.pendingBlock = s.pendingBlock := by
  induction channels generalizing s client with
  | nil => rfl
  | cons channel channels ih => exact ih _ _

theorem subscribeAll_single {channels : List Bytes} (s : Store F) (client : ClientState)
    (hne : channels ≠ []) :
    (channels.length ≤ 1 → IsReply (subscribeAll channels s client).1) ∧
      ∀ value, decode (subscribeAll channels s client).1 = some (value, []) →
        channels.length ≤ 1 := by
  obtain ⟨channel, channels, rfl⟩ := List.exists_cons_of_ne_nil hne
  have hfirst := fun count => isReply_subscriptionReply "subscribe" (isReply_bulkString channel) count
  rw [subscribeAll]
  dsimp only
  constructor
  · intro hlen
    obtain rfl : channels = [] := by simpa using hlen
    simpa [subscribeAll] using hfirst _
  · intro value h
    have hrest := (hfirst _).append_eq_nil h
    rcases channels with _ | ⟨second, channels⟩
    · simp
    · rw [subscribeAll] at hrest
      exact absurd (List.append_eq_nil_iff.mp hrest).1 (subscriptionReply_ne_nil _ _ _)

theorem unsubscribeAll_single {channels : List Bytes} (s : Store F) (client : ClientState)
    (hne : channels ≠ []) :
    (channels.length ≤ 1 → IsReply (unsubscribeAll channels s client).1) ∧
      ∀ value, decode (unsubscribeAll channels s client).1 = some (value, []) →
        channels.length ≤ 1 := by
  obtain ⟨channel, channels, rfl⟩ := List.exists_cons_of_ne_nil hne
  have hfirst := fun count =>
    isReply_subscriptionReply "unsubscribe" (isReply_bulkString channel) count
  rw [unsubscribeAll]
  dsimp only
  constructor
  · intro hlen
    obtain rfl : channels = [] := by simpa using hlen
    simpa [unsubscribeAll] using hfirst _
  · intro value h
    have hrest := (hfirst _).append_eq_nil h
    rcases channels with _ | ⟨second, channels⟩
    · simp
    · rw [unsubscribeAll] at hrest
      exact absurd (List.append_eq_nil_iff.mp hrest).1 (subscriptionReply_ne_nil _ _ _)

/-- The payload after `FULLRESYNC` is not terminated like a bulk string. -/
theorem decode_handlePsync (args : List Bytes) (s : Store F) (value : RespType) :
    decode (s.handlePsync args).1 ≠ some (value, []) := by
  intro h
  have hbytes : (s.handlePsync args).1 = 43 :: (s.fullresync ++ (crlf ++
      (36 :: decimal emptyRdb.length ++ crlf ++ emptyRdb))) := by
    simp [handlePsync, toBytes]
  rw [hbytes, decode, List.length_cons, decodeReply] at h
  split at h
  · cases h
  · rename_i line rest hline
    obtain ⟨-, he⟩ := oneLine_of_decodeLine hline
    cases h
    have hrdb : emptyRdb.getLast? = some 162 := by decide +kernel
    have hlast := congrArg List.getLast? he
    have hend : (line ++ (crlf ++ [])).getLast? = some 10 := by simp [crlf]
    rw [List.getLast?_append, List.getLast?_append, List.getLast?_append, hrdb, hend] at hlast
    have hbyte : (162 : UInt8) = 10 := Option.some.inj hlast
    exact absurd hbyte (by decide)

end Store

theorem execQueued_fst (clock : Readings) (args : List Bytes) (store : Store F)
    (client : ClientState) :
    (execQueued clock args store client).1 =
      if (dispatchCommand clock args store client).2.1.pendingBlock.isSome then nullArray.toBytes
      else (dispatchCommand clock args store client).1 := rfl

theorem mem_table_of_mem_manyReplies {name : Bytes} (h : name ∈ manyReplies) :
    commandName name = some .psync ∨ commandName name = some .subscribe ∨
      commandName name = some .unsubscribe := by
  have hall : ∀ name ∈ manyReplies, commandName name = some .psync ∨
      commandName name = some .subscribe ∨ commandName name = some .unsubscribe := by decide
  exact hall name h

theorem singleReply_of_not_mem {args : List Bytes} (h : upperName args ∉ manyReplies)
    (subscriptions : Std.ExtTreeSet Bytes) : SingleReply args subscriptions := by
  unfold SingleReply
  split
  · rename_i hname
    exact absurd (mem_manyReplies_of_mem_table _ (mem_table_of_commandName hname) (by simp)) h
  · rename_i hname
    exact absurd (mem_manyReplies_of_mem_table _ (mem_table_of_commandName hname) (by simp)) h
  · rename_i hname
    exact absurd (mem_manyReplies_of_mem_table _ (mem_table_of_commandName hname) (by simp)) h
  · trivial

theorem dispatch_manyReplies {args : List Bytes} (h : upperName args ∈ manyReplies)
    (clock : Readings) (store : Store F) (client : ClientState) :
    (dispatchCommand clock args store client).2.1.pendingBlock = store.pendingBlock ∧
      (SingleReply args client.subscriptions →
        IsReply (dispatchCommand clock args store client).1) ∧
      ∀ value, decode (dispatchCommand clock args store client).1 = some (value, []) →
        SingleReply args client.subscriptions := by
  rcases mem_table_of_mem_manyReplies h with hname | hname | hname
  · simp only [dispatchCommand, SingleReply, hname]
    exact ⟨rfl, False.elim, fun value h => Store.decode_handlePsync args store value h⟩
  · simp only [dispatchCommand, SingleReply, hname]
    unfold Store.handleSubscribe
    split
    · rename_i c channel channels
      obtain ⟨h₁, h₂⟩ :=
        Store.subscribeAll_single store client (List.cons_ne_nil channel channels)
      exact ⟨Store.subscribeAll_pendingBlock _ _ _, h₁, h₂⟩
    · rename_i hne
      refine ⟨rfl, fun _ => isReply_arityError (by decide), fun _ _ => ?_⟩
      rcases args with _ | ⟨c, _ | ⟨channel, channels⟩⟩
      · simp
      · simp
      · exact absurd rfl (hne c channel channels)
  · simp only [dispatchCommand, SingleReply, hname]
    unfold Store.handleUnsubscribe leftChannels
    split
    · rename_i hnil
      rw [hnil]
      exact ⟨rfl, fun _ => Store.isReply_subscriptionReply _ isReply_nullBulkString _,
        fun _ _ => Nat.zero_le _⟩
    · rename_i hne
      obtain ⟨h₁, h₂⟩ := Store.unsubscribeAll_single store client hne
      exact ⟨Store.unsubscribeAll_pendingBlock _ _ _, h₁, h₂⟩

theorem isReply_execQueued (hprint : ∀ x : F, OneLine (Platform.toStringF x)) (clock : Readings)
    {args : List Bytes} (hone : OneLine (args.headD [])) {store : Store F} {client : ClientState}
    (h : store.pendingBlock.isSome = true ∨ SingleReply args client.subscriptions) :
    IsReply (execQueued clock args store client).1 := by
  rw [execQueued_fst]
  by_cases hmany : upperName args ∈ manyReplies
  · obtain ⟨hblock, hsingle, -⟩ := dispatch_manyReplies hmany clock store client
    rw [hblock]
    split
    · exact isReply_nullArray
    · rename_i hb
      exact hsingle (h.resolve_left hb)
  · split
    · exact isReply_nullArray
    · rename_i hb
      rcases answered_dispatchCommand hprint clock hone hmany store client with h | ⟨-, h⟩
      · exact h
      · exact absurd h hb

theorem singleReply_of_decode {clock : Readings} {args : List Bytes} {store : Store F}
    {client : ClientState} {value : RespType}
    (h : decode (execQueued clock args store client).1 = some (value, [])) :
    store.pendingBlock.isSome = true ∨ SingleReply args client.subscriptions := by
  by_cases hmany : upperName args ∈ manyReplies
  · obtain ⟨hblock, -, hsingle⟩ := dispatch_manyReplies hmany clock store client
    rw [execQueued_fst, hblock] at h
    split at h
    · rename_i hb
      exact .inl hb
    · exact .inr (hsingle value h)
  · exact .inr (singleReply_of_not_mem hmany _)

theorem subscriptions_execQueued (clock : Readings) (args : List Bytes) (store : Store F)
    (client : ClientState) :
    (execQueued clock args store client).2.2.subscriptions =
      subscriptionsAfter args client.subscriptions := by
  change (dispatchCommand clock args store client).2.2.subscriptions = _
  unfold dispatchCommand subscriptionsAfter
  dsimp only
  split <;> rename_i hname <;> simp only [hname]
  · unfold Store.handleAuth Store.authenticate
    repeat' split
    all_goals rfl
  · unfold Store.handleSubscribe
    split
    · exact Store.subscribeAll_client _ _ _
    · rename_i hne
      rcases args with _ | ⟨c, _ | ⟨channel, channels⟩⟩
      · rfl
      · rfl
      · exact absurd rfl (hne c channel channels)
  · unfold Store.handleUnsubscribe leftChannels
    split
    · rename_i hnil
      rw [hnil]
      rfl
    · exact Store.unsubscribeAll_client _ _ _

/-- The results can be read one by one exactly when each command has one reply. -/
theorem execResults_single_iff (hprint : ∀ x : F, OneLine (Platform.toStringF x))
    {queue : List (List Bytes)} (hone : ∀ args ∈ queue, OneLine (args.headD []))
    (clock : ℕ → Readings) (store : Store F) (client : ClientState) :
    ((∃ values, List.Forall₂ (fun result value => decode result = some (value, []))
        (execResults clock queue store client) values) ↔
      SingleReplies store.pendingBlock.isSome client.subscriptions queue) ∧
    (SingleReplies store.pendingBlock.isSome client.subscriptions queue →
      ∀ result ∈ execResults clock queue store client, IsReply result) := by
  induction queue generalizing clock store client with
  | nil => exact ⟨iff_of_true ⟨[], .nil⟩ trivial, by simp [execResults]⟩
  | cons args queue ih =>
    obtain ⟨ihiff, ihreply⟩ := ih (fun q hq => hone q (List.mem_cons_of_mem _ hq))
      (fun i => clock (i + 1)) (execQueued (clock 0) args store client).2.1
      (execQueued (clock 0) args store client).2.2
    have hblock : (execQueued (clock 0) args store client).2.1.pendingBlock.isSome = false := by
      unfold execQueued
      dsimp only
      generalize (isWriteCommand (upperName args) && _) = write
      cases write <;> rfl
    rw [subscriptions_execQueued, hblock] at ihiff ihreply
    have hreply := fun h : store.pendingBlock.isSome = true ∨ SingleReply args client.subscriptions =>
      isReply_execQueued hprint (clock 0) (hone args List.mem_cons_self) h
    rw [execResults, SingleReplies]
    refine ⟨⟨?_, ?_⟩, ?_⟩
    · rintro ⟨values, hvalues⟩
      obtain ⟨value, rest, hvalue, hrest, rfl⟩ := List.forall₂_cons_left_iff.mp hvalues
      exact ⟨singleReply_of_decode hvalue, ihiff.mp ⟨rest, hrest⟩⟩
    · rintro ⟨hfirst, hrest⟩
      obtain ⟨values, hvalues⟩ := ihiff.mpr hrest
      obtain ⟨value, hvalue⟩ := (hreply hfirst).decodes
      exact ⟨value :: values, .cons hvalue.decode hvalues⟩
    · rintro ⟨hfirst, hrest⟩ result hresult
      rcases List.mem_cons.mp hresult with rfl | hresult
      · exact hreply hfirst
      · exact ihreply hrest result hresult

theorem subscriptions_of_exec {args : List Bytes} {store : Store F} {client : ClientState}
    (hexec : upperName args = ascii "EXEC") (hrun : refusal args store client = none) :
    client.subscriptions.isEmpty = true := by
  unfold refusal at hrun
  dsimp only at hrun
  rw [hexec] at hrun
  repeat' split at hrun
  · cases hrun
  · cases hrun
  · cases hrun
  · rename_i hsub
    by_contra hne
    exact hsub ⟨by simpa using hne, by decide⟩

/-- The reply of an `EXEC` that is not aborted is the announced array, with the result of each
queued command as one of its values, exactly when each queued command has one reply. -/
theorem exec_reply_array_iff (hprint : ∀ x : F, OneLine (Platform.toStringF x))
    (clock : ℕ → Readings) (args : List Bytes) (store : Store F) (client : ClientState)
    (hexec : upperName args = ascii "EXEC") (hmulti : client.inMulti = true)
    (hrun : refusal args store client = none)
    (hclean : (watchedDirty (clock 0) client.watched store.toKeyspace).1 = false)
    (hone : ∀ queued ∈ client.queued, OneLine (queued.headD [])) :
    (∃ values,
      decode (handleCommand clock args store client).1 = some (nestedArray values, []) ∧
      (handleCommand clock args store client).1 = arrayHeader client.queued.length ++
        (execResults (fun i => clock (i + 1)) client.queued
          { store with
            toKeyspace := (watchedDirty (clock 0) client.watched store.toKeyspace).2 }
          client.leaveMulti).flatten ∧
      List.Forall₂ (fun result value => decode result = some (value, []))
        (execResults (fun i => clock (i + 1)) client.queued
          { store with
            toKeyspace := (watchedDirty (clock 0) client.watched store.toKeyspace).2 }
          client.leaveMulti) values) ↔
    SingleReplies store.pendingBlock.isSome ∅ client.queued := by
  have hnone : client.leaveMulti.subscriptions = ∅ :=
    Std.ExtTreeSet.isEmpty_iff.mp (subscriptions_of_exec hexec hrun)
  have hreply : (handleCommand clock args store client).1 = arrayHeader client.queued.length ++
      (execResults (fun i => clock (i + 1)) client.queued
        { store with toKeyspace := (watchedDirty (clock 0) client.watched store.toKeyspace).2 }
        client.leaveMulti).flatten := by
    unfold handleCommand
    rw [hrun]
    dsimp only
    rw [runCommand_exec hexec clock store hmulti, execTransaction]
    simp only [hclean, Bool.false_eq_true, if_false, execQueue_fst]
  have hlength := length_execResults client.queued (fun i => clock (i + 1))
    { store with toKeyspace := (watchedDirty (clock 0) client.watched store.toKeyspace).2 }
    client.leaveMulti
  obtain ⟨hiff, hreplies⟩ := execResults_single_iff hprint hone (fun i => clock (i + 1))
    { store with toKeyspace := (watchedDirty (clock 0) client.watched store.toKeyspace).2 }
    client.leaveMulti
  rw [hnone] at hiff hreplies
  generalize execResults (fun i => clock (i + 1)) client.queued
    { store with toKeyspace := (watchedDirty (clock 0) client.watched store.toKeyspace).2 }
    client.leaveMulti = results at hreply hlength hiff hreplies
  constructor
  · rintro ⟨values, -, -, hvalues⟩
    exact hiff.mp ⟨values, hvalues⟩
  · intro hsingle
    obtain ⟨values, hvalues⟩ := exists_forall₂ fun r hr => (hreplies hsingle r hr).decodes
    refine ⟨values, ?_, hreply, hvalues.imp fun _ _ h => h.decode⟩
    rw [hreply, ← hlength]
    exact (decodes_array hvalues).decode

/-- A queue with a write, a read, a command that would block and an unknown one. -/
theorem exec_reply_array_iff_blpop :
    let client : ClientState :=
      { inMulti := true
        queued := [[ascii "SET", ascii "k", ascii "v"], [ascii "GET", ascii "k"],
          [ascii "BLPOP", ascii "l", ascii "0"], [ascii "NOP"]] }
    let r := handleCommand (fun _ _ => ⟨0, 0⟩) [ascii "exec"] ({} : Store Whole) client
    r.1 = ascii "*4\r\n+OK\r\n$1\r\nv\r\n*-1\r\n-ERR unknown command 'NOP'\r\n" ∧
      ∃ values, decode r.1 = some (nestedArray values, []) := by
  intro client r
  have hprint : ∀ x : Whole, OneLine (Platform.toStringF x) := fun x =>
    (oneLine_decimalInt x).append (by decide)
  have hsingle : SingleReplies false ∅ client.queued :=
    ⟨.inr trivial, .inr trivial, .inr trivial, .inr trivial, trivial⟩
  obtain ⟨values, h, -⟩ := (exec_reply_array_iff hprint (fun _ _ => ⟨0, 0⟩) [ascii "exec"] {} client
    (by decide) rfl (by decide) (by decide) (by decide)).mpr hsingle
  exact ⟨by decide, values, h⟩

/-- A queued `SUBSCRIBE` of two channels puts two replies where one is announced. -/
theorem exec_subscribe_two_replies :
    let client : ClientState :=
      { inMulti := true, queued := [[ascii "SUBSCRIBE", ascii "a", ascii "b"]] }
    let r := handleCommand (fun _ _ => ⟨0, 0⟩) [ascii "EXEC"] ({} : Store Whole) client
    r.1 ≠ nullArray.toBytes ∧
      (decode r.1).map Prod.snd =
        some (ascii "*3\r\n$9\r\nsubscribe\r\n$1\r\nb\r\n:2\r\n") ∧
      ¬∃ values, decode r.1 = some (nestedArray values, []) := by
  have hrest : (decode (handleCommand (fun _ _ => ⟨0, 0⟩) [ascii "EXEC"] ({} : Store Whole)
      { inMulti := true, queued := [[ascii "SUBSCRIBE", ascii "a", ascii "b"]] }).1).map Prod.snd =
      some (ascii "*3\r\n$9\r\nsubscribe\r\n$1\r\nb\r\n:2\r\n") := by decide
  refine ⟨by decide, hrest, ?_⟩
  rintro ⟨values, h⟩
  rw [h] at hrest
  have hne : ascii "*3\r\n$9\r\nsubscribe\r\n$1\r\nb\r\n:2\r\n" ≠ [] := by decide
  exact hne (Option.some.inj hrest).symm

end TrueStore
