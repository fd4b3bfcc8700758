import TrueStore.Command.Effects
import TrueStore.Store.Replies

/-! # Every command answers with one reply

The only text of a request that an error repeats is the name of the command. As long as the name
fits on a line, a client that reads a reply knows where it ends.
-/

namespace TrueStore

open RespType

variable {F : Type} [Platform F]

namespace DataCommand

open Keyspace

theorem isReply_handle (hprint : ∀ x : F, OneLine (Platform.toStringF x)) (command : DataCommand)
    (clock : Readings) (args : List Bytes) (ks : Keyspace F) :
    IsReply (command.handle clock args ks).1 := by
  cases command with
  | zadd => exact isReply_handleZadd clock args ks
  | zrank => exact isReply_handleZrank clock args ks
  | zrange => exact isReply_handleZrange clock args ks
  | zcard => exact isReply_handleZcard clock args ks
  | zscore => exact isReply_handleZscore clock args ks
  | zrem => exact isReply_handleZrem clock args ks
  | geoadd => exact isReply_handleGeoadd hprint clock args ks
  | geopos => exact isReply_handleGeopos clock args ks
  | geodist => exact isReply_handleGeodist clock args ks
  | geosearch => exact isReply_handleGeosearch hprint clock args ks
  | set => exact isReply_handleSet clock args ks
  | get => exact isReply_handleGet clock args ks
  | strlen => exact isReply_handleStrlen clock args ks
  | incr => exact isReply_handleIncr args ks
  | setbit => exact isReply_handleSetbit clock args ks
  | getbit => exact isReply_handleGetbit clock args ks
  | bitcount => exact isReply_handleBitcount clock args ks
  | bitop => exact isReply_handleBitop clock args ks
  | rpush => exact isReply_handleRpush args ks
  | lpush => exact isReply_handleLpush args ks
  | lrange => exact isReply_handleLrange args ks
  | llen => exact isReply_handleLlen args ks
  | lpop => exact isReply_handleLpop args ks
  | type => exact isReply_handleType clock args ks
  | keys => exact isReply_handleKeys clock args ks
  | xadd => exact isReply_handleXadd clock args ks
  | xrange => exact isReply_handleXrange args ks

end DataCommand

theorem isReply_ping (args : List Bytes) (client : ClientState) : IsReply (ping args client) := by
  unfold ping
  repeat' split
  all_goals first | exact isReply_arityError (by decide) | exact isReply_simpleString (by decide) | simp

theorem isReply_echo (args : List Bytes) : IsReply (echo args) := by
  unfold echo
  split
  · simp
  · exact isReply_arityError (by decide)

def manyReplies : List Bytes := ["PSYNC", "SUBSCRIBE", "UNSUBSCRIBE"].map ascii

theorem isReply_unknownCommand {args : List Bytes} (h : OneLine (args.headD [])) :
    IsReply (unknownCommand args) := by
  have hbefore : OneLine (ascii "ERR unknown command '") := by decide
  exact isReply_errorReply ((hbefore.append h).append (by decide))

theorem mem_manyReplies_of_mem_table : ∀ p ∈ commandTable,
    p.2 = .psync ∨ p.2 = .subscribe ∨ p.2 = .unsubscribe → p.1 ∈ manyReplies := by
  decide

theorem answered_dispatchCommand (hprint : ∀ x : F, OneLine (Platform.toStringF x))
    (clock : Readings) {args : List Bytes} (hone : OneLine (args.headD []))
    (hmany : upperName args ∉ manyReplies) (store : Store F) (client : ClientState) :
    Store.Answered ((dispatchCommand clock args store client).1,
      (dispatchCommand clock args store client).2.1) := by
  unfold dispatchCommand
  dsimp only
  split
  · exact .inl (isReply_unknownCommand hone)
  · exact .inl (Store.isReply_handleAcl args store)
  · exact .inl (Store.isReply_handleAuth args store client)
  · exact .inl (isReply_ping args client)
  · rename_i hname
    exact absurd (mem_manyReplies_of_mem_table _ (mem_table_of_commandName hname) (by simp)) hmany
  · rename_i hname
    exact absurd (mem_manyReplies_of_mem_table _ (mem_table_of_commandName hname) (by simp)) hmany
  · exact .inl (Store.isReply_handlePublish args store)
  · exact .inl (isReply_echo args)
  · exact Store.answered_handleBlpop args store
  · exact Store.answered_handleXread args store
  · exact .inl (isReply_bulkString _)
  · exact .inl isReply_ok
  · rename_i hname
    exact absurd (mem_manyReplies_of_mem_table _ (mem_table_of_commandName hname) (by simp)) hmany
  · exact Store.answered_handleWait args store
  · exact .inl (Store.isReply_handleConfigGet args store)
  · rename_i command _
    refine .inl ?_
    rcases command.dispatch_cases clock args store.toKeyspace with
      ⟨-, h⟩ | ⟨_, _, _, -, -, ⟨-, h⟩ | ⟨-, h⟩⟩ <;> simp only [Store.onData, h]
    · exact command.isReply_handle hprint clock args _
    · exact isReply_wrongType
    · exact command.isReply_handle hprint clock.later args _

theorem upperByte_eq_iff {b c : UInt8} (hc : c < 65) : upperByte b = c ↔ b = c := by
  unfold upperByte
  split
  · simp only [UInt8.le_iff_toNat_le, UInt8.lt_iff_toNat_lt, ← UInt8.toNat_inj,
      UInt8.toNat_sub] at *
    simp at *
    have := b.toNat_lt
    omega
  · rfl

theorem lowerByte_eq_iff {b c : UInt8} (hc : c < 65) : lowerByte b = c ↔ b = c := by
  unfold lowerByte
  split
  · simp only [UInt8.le_iff_toNat_le, UInt8.lt_iff_toNat_lt, ← UInt8.toNat_inj,
      UInt8.toNat_add] at *
    simp at *
    have := b.toNat_lt
    omega
  · rfl

theorem oneLine_map {f : UInt8 → UInt8} (hf : ∀ b c, c < 65 → (f b = c ↔ b = c)) (text : Bytes) :
    OneLine (text.map f) ↔ OneLine text := by
  have h13 : ∀ b, f b = 13 ↔ b = 13 := fun b => hf b 13 (by decide)
  have h10 : ∀ b, f b = 10 ↔ b = 10 := fun b => hf b 10 (by decide)
  simp [OneLine, h13, h10]

theorem oneLine_toUpper (text : Bytes) : OneLine (toUpper text) ↔ OneLine text :=
  oneLine_map (fun _ _ => upperByte_eq_iff) text

theorem oneLine_toLower (text : Bytes) : OneLine (toLower text) ↔ OneLine text :=
  oneLine_map (fun _ _ => lowerByte_eq_iff) text

theorem upperName_ne {args : List Bytes} {name : Bytes} (h : ¬OneLine (args.headD []))
    (hname : OneLine name) : upperName args ≠ name := by
  rintro rfl
  exact h ((oneLine_toUpper _).mp hname)

theorem commandName_of_not_oneLine {args : List Bytes} (h : ¬OneLine (args.headD [])) :
    commandName (upperName args) = none := by
  have htable : ∀ p ∈ commandTable, OneLine p.1 := by decide
  by_contra hne
  obtain ⟨name, hname⟩ := Option.ne_none_iff_exists'.mp hne
  exact upperName_ne h (htable _ (mem_table_of_commandName hname)) rfl

theorem oneLine_of_decode_unknownCommand {args : List Bytes} {value : RespType}
    (h : decode (unknownCommand args) = some (value, [])) : OneLine (args.headD []) :=
  (oneLine_append_iff.mp (oneLine_append_iff.mp (oneLine_of_decode_errorReply h)).1).2

def refusedSubscribed (args : List Bytes) : Bytes :=
  errorReply (ascii "ERR Can't execute '" ++ toLower (args.headD []) ++
    ascii "' in subscribed mode")

theorem isReply_refusedSubscribed {args : List Bytes} (h : OneLine (args.headD [])) :
    IsReply (refusedSubscribed args) := by
  have hbefore : OneLine (ascii "ERR Can't execute '") := by decide
  exact isReply_errorReply ((hbefore.append ((oneLine_toLower _).mpr h)).append (by decide))

theorem oneLine_of_decode_refusedSubscribed {args : List Bytes} {value : RespType}
    (h : decode (refusedSubscribed args) = some (value, [])) : OneLine (args.headD []) := by
  have htext := oneLine_append_iff.mp (oneLine_append_iff.mp (oneLine_of_decode_errorReply h)).1
  exact (oneLine_toLower _).mp htext.2

theorem isReply_refusal {args : List Bytes} (hone : OneLine (args.headD [])) {store : Store F}
    {client : ClientState} {reply : Bytes} (h : refusal args store client = some reply) :
    IsReply reply := by
  unfold refusal at h
  dsimp only at h
  repeat' split at h
  all_goals cases h
  · exact isReply_errorReply (by decide)
  · exact isReply_errorReply (by decide)
  · exact isReply_refusedSubscribed hone

theorem framed_runCommand (hprint : ∀ x : F, OneLine (Platform.toStringF x))
    (clock : ℕ → Readings) {args : List Bytes} (hone : OneLine (args.headD []))
    (hmany : upperName args ∉ ascii "EXEC" :: manyReplies) (store : Store F)
    (client : ClientState) :
    (runCommand clock args store client).1 = [] ∨ IsReply (runCommand clock args store client).1 := by
  have hexec : upperName args ≠ ascii "EXEC" := fun h => hmany (h ▸ List.mem_cons_self)
  have hdispatch := answered_dispatchCommand hprint (clock 0) hone
    (fun h => hmany (List.mem_cons_of_mem _ h)) store client
  unfold runCommand
  dsimp only
  split
  · split
    · exact .inr (isReply_errorReply (by decide))
    · refine .inr (isReply_simpleString ?_)
      split <;> decide
  · split
    · repeat' split
      · exact .inr (isReply_arityError (by decide))
      · exact .inr (isReply_errorReply (by decide))
      · exact .inr isReply_ok
    · split
      · repeat' split
        · exact .inr (isReply_arityError (by decide))
        · exact .inr (isReply_errorReply (by decide))
        · exact .inr isReply_ok
      · split
        · exact .inr isReply_ok
        · split
          · split
            · exact .inr (isReply_errorReply (by decide))
            · exact .inr isReply_ok
          · split
            · exact .inr (isReply_simpleString (by decide))
            · exact hdispatch.symm.imp And.left id

theorem runCommand_of_not_oneLine (clock : ℕ → Readings) {args : List Bytes}
    (h : ¬OneLine (args.headD [])) (store : Store F) (client : ClientState) :
    (runCommand clock args store client).1 =
      if client.inMulti then (simpleString (ascii "QUEUED")).toBytes else unknownCommand args := by
  have hne : ∀ name : String, OneLine (ascii name) → upperName args ≠ ascii name :=
    fun name hname => upperName_ne h hname
  unfold runCommand
  dsimp only
  rw [if_neg (by simp [hne "QUIT" (by decide), hne "RESET" (by decide)]),
    if_neg (hne "MULTI" (by decide)), if_neg (hne "WATCH" (by decide)),
    if_neg (hne "UNWATCH" (by decide)), if_neg (hne "DISCARD" (by decide)),
    if_neg (hne "EXEC" (by decide))]
  split
  · rfl
  · rw [dispatchCommand, commandName_of_not_oneLine h]

theorem handleCommand_of_not_oneLine (clock : ℕ → Readings) {args : List Bytes}
    (h : ¬OneLine (args.headD [])) (store : Store F) (client : ClientState) :
    (handleCommand clock args store client).1 =
      if client.authenticated = false ∧ store.defaultUserAutoAuth = false then noAuth
      else if client.subscriptions.isEmpty = false then refusedSubscribed args
      else if client.inMulti then (simpleString (ascii "QUEUED")).toBytes
      else unknownCommand args := by
  have hargs : args ≠ [] := by
    rintro rfl
    exact h (by simp [OneLine])
  have hne : ∀ name : String, OneLine (ascii name) → upperName args ≠ ascii name :=
    fun name hname => upperName_ne h hname
  have hallowed : upperName args ∉ allowedWhenSubscribed := by
    have hone : ∀ name ∈ allowedWhenSubscribed, OneLine name := by decide
    exact fun hmem => upperName_ne h (hone _ hmem) rfl
  unfold handleCommand refusal
  simp only [hargs, if_false, hne "AUTH" (by decide), hne "QUIT" (by decide),
    hne "RESET" (by decide), hallowed, ne_eq, not_false_eq_true, and_true, Bool.not_eq_true']
  by_cases hauth : client.authenticated = false ∧ store.defaultUserAutoAuth = false
  · rw [if_pos hauth, if_pos hauth]
  · rw [if_neg hauth, if_neg hauth]
    by_cases hsub : client.subscriptions.isEmpty = false
    · rw [if_pos hsub, if_pos hsub]
      rfl
    · rw [if_neg hsub, if_neg hsub]
      exact runCommand_of_not_oneLine clock h store client

/-- Replies cannot be forged, except through the name of a command: a reply is read as exactly
one value unless the request is answered with its name and the name has a line break. A client
that must authenticate first or that is inside a transaction gets no name back. -/
theorem reply_framed_iff (hprint : ∀ x : F, OneLine (Platform.toStringF x)) (clock : ℕ → Readings)
    (args : List Bytes) (store : Store F) (client : ClientState)
    (hmany : upperName args ∉ ascii "EXEC" :: manyReplies) :
    ((handleCommand clock args store client).1 = [] ∨
      ∃ value, decode (handleCommand clock args store client).1 = some (value, [])) ↔
    OneLine (args.headD []) ∨
      (client.authenticated = false ∧ store.defaultUserAutoAuth = false) ∨
      (client.subscriptions.isEmpty = true ∧ client.inMulti = true) := by
  by_cases hone : OneLine (args.headD [])
  · have hframed : (handleCommand clock args store client).1 = [] ∨
        IsReply (handleCommand clock args store client).1 := by
      unfold handleCommand
      split
      · rename_i hr
        exact .inr (isReply_refusal hone hr)
      · exact framed_runCommand hprint clock hone hmany store client
    refine iff_of_true (hframed.imp id fun h => ?_) (.inl hone)
    obtain ⟨value, hvalue⟩ := h.decodes
    exact ⟨value, hvalue.decode⟩
  · rw [handleCommand_of_not_oneLine clock hone store client]
    by_cases hauth : client.authenticated = false ∧ store.defaultUserAutoAuth = false
    · rw [if_pos hauth]
      obtain ⟨value, hvalue⟩ := (isReply_errorReply (by decide) : IsReply noAuth).decodes
      exact iff_of_true (.inr ⟨value, hvalue.decode⟩) (.inr (.inl hauth))
    · rw [if_neg hauth]
      by_cases hsub : client.subscriptions.isEmpty = false
      · rw [if_pos hsub]
        refine iff_of_false ?_ ?_
        · rintro (h | ⟨value, h⟩)
          · exact toBytes_ne_nil _ h
          · exact hone (oneLine_of_decode_refusedSubscribed h)
        · rintro (h | h | ⟨h, -⟩)
          · exact hone h
          · exact hauth h
          · simp [hsub] at h
      · rw [if_neg hsub]
        split
        · rename_i hmulti
          obtain ⟨value, hvalue⟩ :=
            (isReply_simpleString (by decide : OneLine (ascii "QUEUED"))).decodes
          exact iff_of_true (.inr ⟨value, hvalue.decode⟩) (.inr (.inr ⟨by simpa using hsub, hmulti⟩))
        · rename_i hmulti
          refine iff_of_false ?_ ?_
          · rintro (h | ⟨value, h⟩)
            · exact toBytes_ne_nil _ h
            · exact hone (oneLine_of_decode_unknownCommand h)
          · rintro (h | h | ⟨-, h⟩)
            · exact hone h
            · exact hauth h
            · exact hmulti h

/-- Coordinates out of range, which the error repeats. -/
theorem reply_framed_iff_geoadd :
    let r := handleCommand (fun _ _ => ⟨0, 0⟩)
      [ascii "GEOADD", ascii "places", ascii "200", ascii "10", ascii "here"] ({} : Store Whole) {}
    r.1 = errorReply (ascii "ERR invalid longitude,latitude pair 200.000000,10.000000") ∧
      (r.1 = [] ∨ ∃ value, decode r.1 = some (value, [])) := by
  have hprint : ∀ x : Whole, OneLine (Platform.toStringF x) := fun x =>
    (oneLine_decimalInt x).append (by decide)
  exact ⟨by decide, (reply_framed_iff hprint _ _ _ _ (by decide)).mpr (.inl (by decide))⟩

/-- A command name with a line break makes the server send a second reply of the client's
choice. -/
theorem unknownCommand_forged :
    let r := handleCommand (fun _ _ => ⟨0, 0⟩) [ascii "x\r\n+OK\r\n"] ({} : Store Whole) {}
    r.1 ≠ [] ∧ (decode r.1).map Prod.snd = some (ascii "+OK\r\n'\r\n") ∧
      ¬∃ value, decode r.1 = some (value, []) := by
  have hrest : (decode (handleCommand (fun _ _ => ⟨0, 0⟩) [ascii "x\r\n+OK\r\n"]
      ({} : Store Whole) {}).1).map Prod.snd = some (ascii "+OK\r\n'\r\n") := by decide
  refine ⟨by decide, hrest, ?_⟩
  rintro ⟨value, h⟩
  rw [h] at hrest
  have hne : ascii "+OK\r\n'\r\n" ≠ [] := by decide
  exact hne (Option.some.inj hrest).symm

end TrueStore
