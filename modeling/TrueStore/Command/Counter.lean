import TrueStore.Command.Watching

/-! # Counting with watched keys

Clients that read a number under `WATCH` and write its successor in a transaction never lose an
update, in whatever order their commands come.
-/

namespace TrueStore

open RespType Keyspace

variable {F : Type} [Platform F]

def integerOf (text : Bytes) : ℤ :=
  match scanInteger text with
  | some (sign, magnitude) => applySign sign magnitude
  | none => 0

def bulkText (reply : Bytes) : Bytes :=
  match readTillCrlf reply.tail with
  | some (_, length) => ((reply.tail.drop length).dropLast).dropLast
  | none => []

theorem integerOf_decimalInt (z : ℤ) : integerOf (decimalInt z) = z := by
  obtain ⟨sign, magnitude, hscan, hsign⟩ := scanInteger_decimalInt z
  rw [integerOf, hscan]
  exact hsign

theorem bulkText_toBytes (text : Bytes) : bulkText (bulkString text).toBytes = text := by
  have htail : (bulkString text).toBytes.tail =
      decimal text.length ++ (crlf ++ (text ++ crlf)) := by
    simp [toBytes, bulkBytes]
  have hdrop : (decimal text.length ++ (crlf ++ (text ++ crlf))).drop
      ((decimal text.length).length + 2) = text ++ crlf := by
    rw [← List.append_assoc]
    exact List.drop_left' (by simp [crlf])
  rw [bulkText, htail, readTillCrlf_decimal]
  dsimp only
  rw [hdrop]
  simp [crlf, List.dropLast_append_of_ne_nil]

/-- Where a client is in its loop, with the number that it has read. -/
inductive Stage where
  | watch
  | get
  | multi (number : ℤ)
  | set (number : ℤ)
  | exec (number : ℤ)

def Stage.args (key : Bytes) : Stage → List Bytes
  | watch => [ascii "WATCH", key]
  | get => [ascii "GET", key]
  | multi _ => [ascii "MULTI"]
  | set number => [ascii "SET", key, decimalInt (number + 1)]
  | exec _ => [ascii "EXEC"]

def Stage.next (reply : Bytes) : Stage → Stage
  | watch => get
  | get => multi (integerOf (bulkText reply))
  | multi number => set number
  | set number => exec number
  | exec _ => watch

/-- Clients in their loops, and how many times `EXEC` was not aborted. -/
structure Counting (F : Type) [Platform F] where
  world : World F
  stage : ℤ → Stage
  committed : ℕ

namespace Counting

def start (w : World F) : Counting F := ⟨w, fun _ => .watch, 0⟩

def step (key : Bytes) (fd : ℤ) (clock : ℕ → Readings) (s : Counting F) : Counting F :=
  let args := (s.stage fd).args key
  let reply := s.world.reply fd clock args
  { world := s.world.play (.command fd clock args)
    stage := Function.update s.stage fd ((s.stage fd).next reply)
    committed := match s.stage fd with
      | .exec _ => if reply = nullArray.toBytes then s.committed else s.committed + 1
      | _ => s.committed }

def run (key : Bytes) (schedule : List (ℤ × (ℕ → Readings))) (s : Counting F) : Counting F :=
  schedule.foldl (fun s turn => s.step key turn.1 turn.2) s

/-- A client that has watched a number and read one that is not smaller. -/
def Watches (key : Bytes) (low high : ℤ) (client : ClientState) : Prop :=
  ∃ text, client.watched = [(key, some text)] ∧ integerOf text ≤ low ∧ low ≤ high

def Consistent (key : Bytes) (current : ℤ) (client : ClientState) : Stage → Prop
  | .watch => client.inMulti = false ∧ client.queued = [] ∧ client.watched = []
  | .get => client.inMulti = false ∧ client.queued = [] ∧ Watches key current current client
  | .multi number => client.inMulti = false ∧ client.queued = [] ∧ Watches key number current client
  | .set number => client.inMulti = true ∧ client.queued = [] ∧ Watches key number current client
  | .exec number => client.inMulti = true ∧
      client.queued = [[ascii "SET", key, decimalInt (number + 1)]] ∧
      Watches key number current client

/-- The number counts the transactions. -/
structure Counts (key : Bytes) (initial : ℤ) (s : Counting F) : Prop where
  settled : s.world.store.Settled
  expiry : s.world.store.expirations[key]? = none
  value : ∃ text, s.world.store.storage[key]? = some text ∧
    integerOf text = initial + s.committed
  allowed : ∀ fd, (s.world.clients fd).authenticated = true ∧
    (s.world.clients fd).subscriptions.isEmpty = true
  consistent : ∀ fd,
    Consistent key (initial + s.committed) (s.world.clients fd) (s.stage fd)

theorem Consistent.mono {key : Bytes} {current current' : ℤ} {client : ClientState} {stage : Stage}
    (h : Consistent key current client stage) (hle : current ≤ current') :
    Consistent key current' client stage := by
  cases stage with
  | watch => exact h
  | get =>
    obtain ⟨hin, hq, text, hw, hlow, -⟩ := h
    exact ⟨hin, hq, text, hw, hlow.trans hle, le_rfl⟩
  | multi number | set number | exec number =>
    obtain ⟨hin, hq, text, hw, hlow, hhigh⟩ := h
    exact ⟨hin, hq, text, hw, hlow, hhigh.trans hle⟩

theorem Counts.turn {key : Bytes} {initial : ℤ} {s : Counting F} (h : Counts key initial s)
    {fd : ℤ} {clock : ℕ → Readings} {reply : Bytes} {store : Store F} {client : ClientState}
    (hh : s.world.handle fd clock ((s.stage fd).args key) = (reply, store, client))
    {committed : ℕ} (hcommitted : (s.step key fd clock).committed = committed)
    (hle : s.committed ≤ committed)
    (hexp : store.expirations[key]? = none)
    (hvalue : ∃ text, store.storage[key]? = some text ∧ integerOf text = initial + committed)
    (hallowed : client.authenticated = true ∧ client.subscriptions.isEmpty = true)
    (hclient : Consistent key (initial + committed) client ((s.stage fd).next reply)) :
    Counts key initial (s.step key fd clock) := by
  have hreply : s.world.reply fd clock ((s.stage fd).args key) = reply := by
    rw [World.reply, hh]
  refine ⟨World.settled_play _ _, ?_, ?_, fun fd' => ?_, fun fd' => ?_⟩
  · simp only [step, World.play, hh]
    exact hexp
  · rw [hcommitted]
    simp only [step, World.play, hh]
    exact hvalue
  · simp only [step, World.play, hh]
    by_cases hfd : fd' = fd
    · subst hfd
      rw [Function.update_self]
      exact hallowed
    · rw [Function.update_of_ne hfd]
      exact h.allowed fd'
  · rw [hcommitted]
    simp only [step, World.play, hh, hreply]
    by_cases hfd : fd' = fd
    · subst hfd
      rw [Function.update_self, Function.update_self]
      exact hclient
    · rw [Function.update_of_ne hfd, Function.update_of_ne hfd]
      exact (h.consistent fd').mono (by omega)

section Commands

variable {client : ClientState} {store : Store F} {key text : Bytes}

theorem handleCommand_watch_one (hauth : client.authenticated = true)
    (hsub : client.subscriptions.isEmpty = true) (hin : client.inMulti = false)
    (hexp : store.expirations[key]? = none) (clock : ℕ → Readings) :
    handleCommand clock [ascii "WATCH", key] store client =
      (ok, { store with toKeyspace := store.evict (clock 0 0) key },
        { client with watched := client.watched ++ [(key, store.storage[key]?)] }) := by
  rw [handleCommand, refusal_of_free hauth hsub (by simp)]
  unfold runCommand
  have hname : upperName [ascii "WATCH", key] = ascii "WATCH" := rfl
  dsimp only
  rw [hname, if_neg (by decide), if_neg (by decide), if_pos rfl, if_neg (by simp), hin,
    if_neg Bool.false_ne_true]
  simp only [List.tail_cons, watchKeys, peek_of_no_expiry hexp, peek_snd]

theorem handleCommand_get_one (hfree : Free client) (hexp : store.expirations[key]? = none)
    (hval : store.storage[key]? = some text) (clock : ℕ → Readings) :
    handleCommand clock [ascii "GET", key] store client =
      ((bulkString text).toBytes,
        { store with toKeyspace := (store.evict (clock 0 0) key).evict (clock 0 1) key }, client) := by
  obtain ⟨hexp', hval'⟩ := evict_of_no_expiry hexp (clock 0 0) key
  have hname : commandName (upperName [ascii "GET", key]) = some (.data .get) := rfl
  have htype : (store.keyType (clock 0 0) key).1 ≠ .zset := by
    have hmem : store.storage.contains key = true := by
      rw [Std.ExtTreeMap.contains_eq_isSome_getElem?, hval]
      rfl
    simp [keyType, isExpired, hexp, typeOf, hmem]
  have hget : handleGet (Readings.later (clock 0)) [ascii "GET", key]
      (store.evict (clock 0 0) key) = ((bulkString text).toBytes,
        (store.evict (clock 0 0) key).evict (clock 0 1) key) := by
    simp only [handleGet, isExpired_snd]
    rw [isExpired, hexp']
    dsimp only
    rw [if_neg Bool.false_ne_true]
    have hsame := (evict_of_no_expiry hexp' (Readings.later (clock 0) 0) key).2
    rw [hsame, hval', hval]
    rfl
  rw [handleCommand_of_free hfree rfl, dispatchCommand, hname]
  simp only [Store.onData, DataCommand.dispatch, DataCommand.incompatibleWithSortedSet]
  rw [if_neg htype]
  simp only [DataCommand.handle, keyType_snd, hget]

theorem execQueue_set_one (hb : store.pendingBlock = none) (value : Bytes)
    (clock : ℕ → Readings) :
    (execQueue clock [[ascii "SET", key, value]] store client).1 = ok ∧
    (execQueue clock [[ascii "SET", key, value]] store client).2.1.toKeyspace =
      store.assignForever key value ∧
    (execQueue clock [[ascii "SET", key, value]] store client).2.2 = client := by
  have hname : commandName (upperName [ascii "SET", key, value]) = some (.data .set) := rfl
  have hd : dispatchCommand (clock 0) [ascii "SET", key, value] store client =
      (ok, { store with toKeyspace := store.assignForever key value }, client) := by
    rw [dispatchCommand, hname]
    rfl
  have hblock : { store with toKeyspace := store.assignForever key value }.pendingBlock = none := hb
  simp only [execQueue, List.append_nil]
  rw [execQueued_eq (clock 0) _ hb client, hd]
  refine ⟨?_, rfl, rfl⟩
  simp only [execQueued, hd, hblock, Option.isSome_none, Bool.false_eq_true, if_false]

theorem handleCommand_exec_one (hauth : client.authenticated = true)
    (hsub : client.subscriptions.isEmpty = true) (hin : client.inMulti = true) {value : Bytes}
    (hq : client.queued = [[ascii "SET", key, value]]) {watched : Option Bytes}
    (hw : client.watched = [(key, watched)]) (hb : store.pendingBlock = none)
    (hexp : store.expirations[key]? = none) (clock : ℕ → Readings) :
    ∃ reply store', handleCommand clock [ascii "EXEC"] store client =
        (reply, store', client.leaveMulti) ∧
      (if store.storage[key]? = watched then
        reply ≠ nullArray.toBytes ∧ store'.expirations[key]? = none ∧
          store'.storage[key]? = some value
      else reply = nullArray.toBytes ∧ store'.expirations[key]? = none ∧
        store'.storage[key]? = store.storage[key]?) := by
  have hname : upperName [ascii "EXEC"] = ascii "EXEC" := rfl
  have hheader : arrayHeader 1 ++ ok ≠ nullArray.toBytes := by decide
  obtain ⟨hexp', hval'⟩ := evict_of_no_expiry hexp (clock 0 0) key
  have hdirty : watchedDirty (clock 0) client.watched store.toKeyspace =
      (decide (store.storage[key]? ≠ watched), store.evict (clock 0 0) key) := by
    rw [hw]
    simp only [watchedDirty, peek_of_no_expiry hexp, peek_snd]
    split
    · rename_i hne
      simp [hne]
    · rename_i heq
      simp [heq]
  rw [handleCommand, refusal_of_free hauth hsub (by simp)]
  dsimp only
  rw [runCommand_exec hname _ _ hin, execTransaction, hdirty]
  dsimp only
  by_cases hsame : store.storage[key]? = watched
  · rw [if_neg (by simp [hsame]), hq]
    generalize hr : execQueue (fun i => clock (i + 1)) [[ascii "SET", key, value]]
      { store with toKeyspace := store.evict (clock 0 0) key } client.leaveMulti = r
    have hset : r.1 = ok ∧ r.2.1.toKeyspace =
        (store.evict (clock 0 0) key).assignForever key value ∧ r.2.2 = client.leaveMulti := by
      have hb' : { store with toKeyspace := store.evict (clock 0 0) key }.pendingBlock = none := hb
      rw [← hr]
      exact execQueue_set_one hb' value _
    refine ⟨arrayHeader 1 ++ r.1, r.2.1, Prod.ext rfl (Prod.ext rfl hset.2.2), ?_⟩
    rw [if_pos hsame, hset.1, hset.2.1]
    refine ⟨hheader, ?_, ?_⟩
    · simp [assignForever]
    · simp [assignForever, assign]
  · rw [if_pos (by simp [hsame])]
    refine ⟨_, _, rfl, ?_⟩
    rw [if_neg hsame]
    exact ⟨rfl, hexp', hval'⟩

end Commands

theorem counts_step {key : Bytes} {initial : ℤ} {s : Counting F} (h : Counts key initial s) (fd : ℤ)
    (clock : ℕ → Readings) : Counts key initial (s.step key fd clock) := by
  obtain ⟨text, hval, hint⟩ := h.value
  obtain ⟨hauth, hsub⟩ := h.allowed fd
  have hcons := h.consistent fd
  have hcommitted : (∀ number, s.stage fd ≠ .exec number) →
      (s.step key fd clock).committed = s.committed := by
    intro hne
    unfold step
    dsimp only
    split
    · rename_i number hst
      exact absurd hst (hne number)
    · rfl
  cases hst : s.stage fd with
  | watch =>
    rw [hst] at hcons
    obtain ⟨hin, hq, hw⟩ := hcons
    obtain ⟨hexp', hval'⟩ := evict_of_no_expiry h.expiry (clock 0 0) key
    have hh : s.world.handle fd clock ((s.stage fd).args key) =
        (ok, { s.world.store with toKeyspace := s.world.store.evict (clock 0 0) key },
          { s.world.clients fd with
            watched := (s.world.clients fd).watched ++ [(key, s.world.store.storage[key]?)] }) := by
      rw [hst]
      exact handleCommand_watch_one hauth hsub hin h.expiry clock
    refine h.turn hh (hcommitted (by simp [hst])) le_rfl hexp' ⟨text, hval'.trans hval, hint⟩
      ⟨hauth, hsub⟩ ?_
    rw [hst]
    exact ⟨hin, hq, text, by simp [hw, hval], hint.le, le_rfl⟩
  | get =>
    rw [hst] at hcons
    obtain ⟨hin, hq, watched, hw, hlow, -⟩ := hcons
    obtain ⟨hexp', hval'⟩ := evict_of_no_expiry h.expiry (clock 0 0) key
    obtain ⟨hexp'', hval''⟩ := evict_of_no_expiry hexp' (clock 0 1) key
    have hh : s.world.handle fd clock ((s.stage fd).args key) =
        ((bulkString text).toBytes, { s.world.store with
          toKeyspace := (s.world.store.evict (clock 0 0) key).evict (clock 0 1) key },
          s.world.clients fd) := by
      rw [hst]
      exact handleCommand_get_one ⟨hauth, hsub, hin⟩ h.expiry hval clock
    refine h.turn hh (hcommitted (by simp [hst])) le_rfl hexp''
      ⟨text, (hval''.trans hval').trans hval, hint⟩
      ⟨hauth, hsub⟩ ?_
    rw [hst, Stage.next, bulkText_toBytes, hint]
    exact ⟨hin, hq, watched, hw, hlow, le_rfl⟩
  | multi number =>
    rw [hst] at hcons
    obtain ⟨hin, hq, hw⟩ := hcons
    have hname : upperName [ascii "MULTI"] = ascii "MULTI" := rfl
    have hh : s.world.handle fd clock ((s.stage fd).args key) =
        (ok, s.world.store, { s.world.clients fd with inMulti := true }) := by
      rw [hst, World.handle, handleCommand, refusal_of_free hauth hsub (by simp [Stage.args])]
      dsimp only [Stage.args]
      rw [runCommand_multi hname, if_neg (by simp), hin, if_neg Bool.false_ne_true]
    refine h.turn hh (hcommitted (by simp [hst])) le_rfl h.expiry ⟨text, hval, hint⟩ ⟨hauth, hsub⟩ ?_
    rw [hst]
    exact ⟨rfl, hq, hw⟩
  | set number =>
    rw [hst] at hcons
    obtain ⟨hin, hq, hw⟩ := hcons
    have hset : toUpper (ascii "SET") ∉ controlCommands := by decide
    have hname : upperName [ascii "SET", key, decimalInt (number + 1)] ∉ controlCommands := hset
    have hh : s.world.handle fd clock ((s.stage fd).args key) =
        ((simpleString (ascii "QUEUED")).toBytes, s.world.store,
          (s.world.clients fd).enqueue [ascii "SET", key, decimalInt (number + 1)]) := by
      rw [hst, World.handle, handleCommand, refusal_of_free hauth hsub (by simp [Stage.args])]
      dsimp only [Stage.args]
      rw [runCommand_of_not_control hname, hin, if_pos rfl]
    refine h.turn hh (hcommitted (by simp [hst])) le_rfl h.expiry ⟨text, hval, hint⟩ ⟨hauth, hsub⟩ ?_
    rw [hst]
    exact ⟨hin, by simp [ClientState.enqueue, hq], hw⟩
  | exec number =>
    rw [hst] at hcons
    obtain ⟨hin, hq, watched, hw, hlow, hhigh⟩ := hcons
    obtain ⟨reply, store, hh, hspec⟩ := handleCommand_exec_one hauth hsub hin hq hw h.settled.block
      h.expiry clock
    have hreply : s.world.reply fd clock ((s.stage fd).args key) = reply := by
      rw [hst, World.reply, World.handle]
      exact congrArg Prod.fst hh
    have hleft : Consistent key (initial + (s.step key fd clock).committed)
        (s.world.clients fd).leaveMulti ((s.stage fd).next reply) := by
      rw [hst]
      exact ⟨rfl, rfl, rfl⟩
    have hhandle : s.world.handle fd clock ((s.stage fd).args key) =
        (reply, store, (s.world.clients fd).leaveMulti) := by
      rw [hst]
      exact hh
    by_cases hsame : s.world.store.storage[key]? = some watched
    · rw [if_pos hsame] at hspec
      obtain ⟨hnull, hexp', hval'⟩ := hspec
      have hnew : (s.step key fd clock).committed = s.committed + 1 := by
        simp only [step, hreply]
        rw [hst]
        exact if_neg hnull
      -- the watched number is the current one, so it is also the one that was read
      have hnumber : number = initial + s.committed := by
        rw [hval, Option.some.injEq] at hsame
        rw [← hsame, hint] at hlow
        exact le_antisymm hhigh hlow
      refine h.turn hhandle hnew (Nat.le_succ _) hexp' ⟨_, hval', ?_⟩ ⟨hauth, hsub⟩ (hnew ▸ hleft)
      rw [integerOf_decimalInt, hnumber]
      push_cast
      ring
    · rw [if_neg hsame] at hspec
      obtain ⟨hnull, hexp', hval'⟩ := hspec
      have hold : (s.step key fd clock).committed = s.committed := by
        simp only [step, hreply]
        rw [hst]
        exact if_pos hnull
      exact h.turn hhandle hold le_rfl hexp' ⟨text, hval'.trans hval, hint⟩ ⟨hauth, hsub⟩
        (hold ▸ hleft)

theorem counts_run {key : Bytes} {initial : ℤ} (schedule : List (ℤ × (ℕ → Readings)))
    {s : Counting F} (h : Counts key initial s) : Counts key initial (s.run key schedule) := by
  induction schedule generalizing s with
  | nil => exact h
  | cons turn schedule ih => exact ih (counts_step h turn.1 turn.2)

structure Idle (client : ClientState) : Prop extends Free client where
  queued : client.queued = []
  watched : client.watched = []

theorem counts_start {w : World F} (hs : w.store.Settled) (hidle : ∀ fd, Idle (w.clients fd))
    {key text : Bytes} (hexp : w.store.expirations[key]? = none)
    (hval : w.store.storage[key]? = some text) : Counts key (integerOf text) (start w) where
  settled := hs
  expiry := hexp
  value := ⟨text, hval, by simp [start]⟩
  allowed fd := ⟨(hidle fd).authenticated, (hidle fd).subscriptions⟩
  consistent fd := ⟨(hidle fd).inMulti, (hidle fd).queued, (hidle fd).watched⟩

/-- When no string of a watched key comes back, an `EXEC` that is not aborted found the key as
`WATCH` left it all along, and so clients that count lose no update. -/
theorem watch_prevents_lost_updates :
    (∀ (w : World F) (before between after : List (Turn F)) (fd : ℤ) (clock clock' : ℕ → Readings)
      (watch exec : List Bytes) (key : Bytes), w.store.Settled →
      World.NoExpiry key (before ++ .command fd clock watch ::
        (between ++ .command fd clock' exec :: after)) w →
      World.NoReturn (World.values key (before ++ .command fd clock watch ::
        (between ++ .command fd clock' exec :: after)) w) →
      upperName watch = ascii "WATCH" → key ∈ watch.tail →
      (World.playAll before w).reply fd clock watch = ok →
      (∀ clock args, Turn.command fd clock args ∈ between → upperName args ∉ unwatchCommands) →
      upperName exec = ascii "EXEC" →
      isError ((World.playAll (before ++ .command fd clock watch :: between) w).reply fd clock'
        exec) = false →
      (World.playAll (before ++ .command fd clock watch :: between) w).reply fd clock' exec ≠
        nullArray.toBytes →
      ∀ v ∈ World.values key between ((World.playAll before w).play (.command fd clock watch)),
        v = (World.playAll before w).store.storage[key]?) ∧
    (∀ (w : World F) (key text : Bytes) (schedule : List (ℤ × (ℕ → Readings))),
      w.store.Settled → (∀ fd, Idle (w.clients fd)) → w.store.expirations[key]? = none →
      w.store.storage[key]? = some text → (scanInteger text).isSome = true →
      ∃ text', ((start w).run key schedule).world.store.storage[key]? = some text' ∧
        integerOf text' = integerOf text + ((start w).run key schedule).committed) := by
  constructor
  · intro w before between after fd clock clock' watch exec key hs hexp hret hwatch hkey hok hkeep
      hexec herr hnull
    exact World.unchanged_of_exec hs hexp hret hwatch hkey hok hkeep hexec herr hnull
  · intro w key text schedule hs hidle hexp hval _
    exact (counts_run schedule (counts_start hs hidle hexp hval)).value

def numbered : World Whole :=
  World.fresh { storage := (∅ : Map Bytes).insert (ascii "k") (ascii "1") }

def turn (fd : ℤ) (args : List Bytes) : Turn Whole := .command fd (fun _ _ => ⟨0, 0⟩) args

/-- Two clients count in turns; the second one is aborted once. -/
def contending : List (ℤ × (ℕ → Readings)) :=
  [5, 6, 5, 6, 5, 5, 5, 6, 6, 6, 6, 6, 6, 6, 6].map fun fd => (fd, fun _ _ => ⟨0, 0⟩)

theorem watch_prevents_lost_updates_contending :
    ((start numbered).run (ascii "k") contending).committed = 2 ∧
    (∃ text', ((start numbered).run (ascii "k") contending).world.store.storage[ascii "k"]? =
        some text' ∧ integerOf text' = integerOf (ascii "1") +
          ((start numbered).run (ascii "k") contending).committed) ∧
    ∀ v ∈ World.values (ascii "k")
      [turn 5 [ascii "MULTI"], turn 5 [ascii "SET", ascii "k", ascii "2"]]
      ((World.playAll [] numbered).play (turn 5 [ascii "WATCH", ascii "k"])),
      v = (World.playAll [] numbered).store.storage[ascii "k"]? := by
  have hidle : ∀ fd, Idle (numbered.clients fd) := fun fd => ⟨⟨rfl, rfl, rfl⟩, rfl, rfl⟩
  have hhistory : World.values (ascii "k") [turn 5 [ascii "WATCH", ascii "k"],
      turn 5 [ascii "MULTI"], turn 5 [ascii "SET", ascii "k", ascii "2"], turn 5 [ascii "EXEC"]]
      numbered = [some (ascii "1"), some (ascii "2")] := by decide
  have hkeep : ∀ clock args, Turn.command 5 clock args ∈
      [turn 5 [ascii "MULTI"], turn 5 [ascii "SET", ascii "k", ascii "2"]] →
      upperName args ∉ unwatchCommands := by
    intro clock args hmem
    simp only [List.mem_cons, List.not_mem_nil, or_false, turn, Turn.command.injEq] at hmem
    rcases hmem with ⟨-, -, rfl⟩ | ⟨-, -, rfl⟩ <;> decide
  refine ⟨by decide, ?_, ?_⟩
  · exact watch_prevents_lost_updates.2 numbered (ascii "k") (ascii "1") contending
      (Store.settled_settle _ _) hidle (by decide) (by decide) (by decide)
  · refine watch_prevents_lost_updates.1 numbered [] _ [] 5 _ (fun _ _ => ⟨0, 0⟩)
      [ascii "WATCH", ascii "k"] [ascii "EXEC"] (ascii "k") (Store.settled_settle _ _)
      ⟨by decide, by decide⟩ ?_ (by decide)
      (by decide) (by decide) hkeep (by decide) (by decide) (by decide)
    intro x y hsub
    have hlen := hsub.length_le.trans_eq (congrArg List.length hhistory)
    simp at hlen

def removal : List (Turn Whole) :=
  [turn 6 [ascii "SET", ascii "l", ascii "v"],
    turn 6 [ascii "BITOP", ascii "AND", ascii "l", ascii "m", ascii "n"], turn 5 [ascii "MULTI"]]

def discarding : List (Turn Whole) :=
  [turn 5 [ascii "MULTI"], turn 5 [ascii "DISCARD"], turn 6 [ascii "SET", ascii "k", ascii "2"],
    turn 5 [ascii "MULTI"]]

/-- Each string of the key is a new one and there is no `UNWATCH`, and yet `EXEC` goes on after a
change: the key is absent again, or `DISCARD` has ended the watch. -/
theorem exec_after_change :
    (((World.values (ascii "l") (turn 5 [ascii "WATCH", ascii "l"] ::
        (removal ++ [turn 5 [ascii "EXEC"]])) numbered).filterMap id).Nodup ∧
      (World.playAll (turn 5 [ascii "WATCH", ascii "l"] :: removal) numbered).reply 5
        (fun _ _ => ⟨0, 0⟩) [ascii "EXEC"] = (array []).toBytes ∧
      ∃ v ∈ World.values (ascii "l") removal (numbered.play (turn 5 [ascii "WATCH", ascii "l"])),
        v ≠ numbered.store.storage[ascii "l"]?) ∧
    ((World.values (ascii "k") (turn 5 [ascii "WATCH", ascii "k"] ::
        (discarding ++ [turn 5 [ascii "EXEC"]])) numbered).Nodup ∧
      (World.playAll (turn 5 [ascii "WATCH", ascii "k"] :: discarding) numbered).reply 5
        (fun _ _ => ⟨0, 0⟩) [ascii "EXEC"] = (array []).toBytes ∧
      ∃ v ∈ World.values (ascii "k") discarding (numbered.play (turn 5 [ascii "WATCH", ascii "k"])),
        v ≠ numbered.store.storage[ascii "k"]?) := by
  refine ⟨⟨by decide, by decide, some (ascii "v"), by decide, by decide⟩,
    by decide, by decide, some (ascii "2"), by decide, by decide⟩

end Counting

end TrueStore
