import TrueStore.Store.Services

/-! # Command dispatch

`dispatch_command` finds the handler of a command, and `handle_command` puts authentication,
subscribed mode and transactions around it. Commands that only touch the data are kept apart
from those that use the rest of the store or the client.
-/

namespace TrueStore

open RespType

variable {F : Type} [Platform F]

/-- The commands that work on the data alone. -/
inductive DataCommand where
  | zadd | zrank | zrange | zcard | zscore | zrem
  | geoadd | geopos | geodist | geosearch
  | set | get | strlen | incr
  | setbit | getbit | bitcount | bitop
  | rpush | lrange | lpush | llen | lpop
  | type | keys
  | xadd | xrange
  deriving DecidableEq, Repr

inductive CommandName where
  | acl | auth | ping | subscribe | unsubscribe | publish
  | echo | blpop | xread | info | replconf | psync | wait | config
  | data (command : DataCommand)
  deriving DecidableEq, Repr

def CommandName.toData : CommandName → Option DataCommand
  | .data command => some command
  | _ => none

theorem CommandName.toData_eq_some_iff {name : CommandName} {command : DataCommand} :
    name.toData = some command ↔ name = .data command := by
  cases name <;> simp [toData]

/-- The names that `dispatch_command` knows. -/
def commandTable : List (Bytes × CommandName) := [
  (ascii "ACL", .acl), (ascii "AUTH", .auth), (ascii "PING", .ping),
  (ascii "SUBSCRIBE", .subscribe), (ascii "UNSUBSCRIBE", .unsubscribe),
  (ascii "PUBLISH", .publish), (ascii "ZADD", .data .zadd), (ascii "ZRANK", .data .zrank),
  (ascii "ZRANGE", .data .zrange), (ascii "ZCARD", .data .zcard),
  (ascii "ZSCORE", .data .zscore), (ascii "ZREM", .data .zrem),
  (ascii "GEOADD", .data .geoadd), (ascii "GEOPOS", .data .geopos),
  (ascii "GEODIST", .data .geodist), (ascii "GEOSEARCH", .data .geosearch),
  (ascii "ECHO", .echo), (ascii "SET", .data .set), (ascii "GET", .data .get),
  (ascii "STRLEN", .data .strlen), (ascii "SETBIT", .data .setbit),
  (ascii "GETBIT", .data .getbit), (ascii "BITCOUNT", .data .bitcount),
  (ascii "BITOP", .data .bitop), (ascii "RPUSH", .data .rpush),
  (ascii "LRANGE", .data .lrange), (ascii "LPUSH", .data .lpush),
  (ascii "LLEN", .data .llen), (ascii "LPOP", .data .lpop), (ascii "BLPOP", .blpop),
  (ascii "TYPE", .data .type), (ascii "KEYS", .data .keys), (ascii "XADD", .data .xadd),
  (ascii "XRANGE", .data .xrange), (ascii "XREAD", .xread), (ascii "INCR", .data .incr),
  (ascii "INFO", .info), (ascii "REPLCONF", .replconf), (ascii "PSYNC", .psync),
  (ascii "WAIT", .wait), (ascii "CONFIG", .config)]

def commandName (command : Bytes) : Option CommandName := commandTable.lookup command

def upperName (args : List Bytes) : Bytes := toUpper (args.headD [])

/-- The set of `is_write_command`, with names that no handler implements. -/
def writeCommands : List Bytes := [
  "SET", "SETNX", "SETEX", "PSETEX", "GETSET", "GETDEL",
  "APPEND", "SETRANGE", "MSET", "MSETNX", "DEL", "UNLINK",
  "INCR", "DECR", "INCRBY", "DECRBY", "INCRBYFLOAT", "EXPIRE",
  "PEXPIRE", "EXPIREAT", "PEXPIREAT", "PERSIST", "RPUSH", "LPUSH",
  "RPUSHX", "LPUSHX", "LPOP", "RPOP", "LSET", "LREM",
  "LTRIM", "LINSERT", "XADD", "XDEL", "XTRIM", "SADD",
  "SREM", "HSET", "HDEL", "ZADD", "ZREM", "RENAME",
  "COPY", "FLUSHALL", "FLUSHDB", "GEOADD", "SETBIT", "BITOP"].map ascii

def isWriteCommand (command : Bytes) : Bool := writeCommands.contains command

namespace DataCommand

/-- `incompatible_with_sorted_set`: the commands that the dispatcher refuses on a sorted set. -/
def incompatibleWithSortedSet : DataCommand → Bool
  | .get | .incr | .rpush | .lpush | .llen | .lrange | .lpop | .xadd | .xrange => true
  | _ => false

/-- The data commands that `is_write_command` lists. -/
def isWrite : DataCommand → Bool
  | .set | .incr | .rpush | .lpush | .lpop | .xadd | .zadd | .zrem | .geoadd | .setbit
  | .bitop => true
  | _ => false

def handle (command : DataCommand) (clock : Readings) (args : List Bytes) (ks : Keyspace F) :
    Bytes × Keyspace F :=
  match command with
  | .zadd => ks.handleZadd clock args
  | .zrank => ks.handleZrank clock args
  | .zrange => ks.handleZrange clock args
  | .zcard => ks.handleZcard clock args
  | .zscore => ks.handleZscore clock args
  | .zrem => ks.handleZrem clock args
  | .geoadd => ks.handleGeoadd clock args
  | .geopos => ks.handleGeopos clock args
  | .geodist => ks.handleGeodist clock args
  | .geosearch => ks.handleGeosearch clock args
  | .set => ks.handleSet clock args
  | .get => ks.handleGet clock args
  | .strlen => ks.handleStrlen clock args
  | .incr => ks.handleIncr args
  | .setbit => ks.handleSetbit clock args
  | .getbit => ks.handleGetbit clock args
  | .bitcount => ks.handleBitcount clock args
  | .bitop => ks.handleBitop clock args
  | .rpush => ks.handleRpush args
  | .lrange => ks.handleLrange args
  | .lpush => ks.handleLpush args
  | .llen => ks.handleLlen args
  | .lpop => ks.handleLpop args
  | .type => ks.handleType clock args
  | .keys => ks.handleKeys clock args
  | .xadd => ks.handleXadd clock args
  | .xrange => ks.handleXrange args

/-- A data command behind the dispatcher's check for sorted sets. -/
def dispatch (command : DataCommand) (clock : Readings) (args : List Bytes) (ks : Keyspace F) :
    Bytes × Keyspace F :=
  match command.incompatibleWithSortedSet, args with
  | true, _ :: key :: _ =>
    let t := ks.keyType (clock 0) key
    if t.1 = .zset then (wrongType, t.2) else command.handle clock.later args t.2
  | _, _ => command.handle clock args ks

end DataCommand

def ping (args : List Bytes) (client : ClientState) : Bytes :=
  match args with
  | _ :: _ :: _ :: _ => arityError "ping"
  | [_, text] =>
    if client.subscriptions.isEmpty then (bulkString text).toBytes
    else (array [ascii "pong", text]).toBytes
  | _ =>
    if client.subscriptions.isEmpty then (simpleString (ascii "PONG")).toBytes
    else (array [ascii "pong", []]).toBytes

def echo (args : List Bytes) : Bytes :=
  match args with
  | [_, text] => (bulkString text).toBytes
  | _ => arityError "echo"

def unknownCommand (args : List Bytes) : Bytes :=
  errorReply (ascii "ERR unknown command '" ++ args.headD [] ++ ascii "'")

def dispatchCommand (clock : Readings) (args : List Bytes) (store : Store F)
    (client : ClientState) : Bytes × Store F × ClientState :=
  let keep (r : Bytes × Store F) : Bytes × Store F × ClientState := (r.1, r.2, client)
  match commandName (upperName args) with
  | none => (unknownCommand args, store, client)
  | some .acl => keep (store.handleAcl args)
  | some .auth =>
    let r := store.handleAuth args client
    (r.1, store, r.2)
  | some .ping => (ping args client, store, client)
  | some .subscribe => store.handleSubscribe args client
  | some .unsubscribe => store.handleUnsubscribe args client
  | some .publish => keep (store.handlePublish args)
  | some .echo => (echo args, store, client)
  | some .blpop => keep (store.handleBlpop args)
  | some .xread => keep (store.handleXread args)
  | some .info => keep (store.handleInfo args)
  | some .replconf => keep (store.handleReplconf args)
  | some .psync => keep (store.handlePsync args)
  | some .wait => keep (store.handleWait args)
  | some .config => keep (store.handleConfigGet args)
  | some (.data command) => keep (store.onData (command.dispatch clock args))

def allowedWhenSubscribed : List Bytes :=
  ["SUBSCRIBE", "UNSUBSCRIBE", "PSUBSCRIBE", "PUNSUBSCRIBE", "PING", "QUIT", "RESET"].map ascii

/-- The loop of `WATCH` over its keys. -/
def watchKeys : Readings → List Bytes → Keyspace F → List (Bytes × Option Bytes) × Keyspace F
  | _, [], ks => ([], ks)
  | clock, key :: keys, ks =>
    let p := ks.peek (clock 0) key
    let rest := watchKeys clock.later keys p.2
    ((key, p.1) :: rest.1, rest.2)

/-- The check of `EXEC`: whether a watched key has changed. It stops at the first one. -/
def watchedDirty : Readings → List (Bytes × Option Bytes) → Keyspace F → Bool × Keyspace F
  | _, [], ks => (false, ks)
  | clock, (key, snapshot) :: rest, ks =>
    let p := ks.peek (clock 0) key
    if p.1 ≠ snapshot then (true, p.2) else watchedDirty clock.later rest p.2

/-- One queued command of `EXEC`: its result and the state in which it leaves the store. -/
def execQueued (clock : Readings) (args : List Bytes) (store : Store F) (client : ClientState) :
    Bytes × Store F × ClientState :=
  let r := dispatchCommand clock args store client
  let result := if r.2.1.pendingBlock.isSome then nullArray.toBytes else r.1
  let s := { r.2.1 with pendingBlock := none }
  (result,
    if isWriteCommand (upperName args) && !isError result then s.queuePropagation args else s,
    r.2.2)

/-- The loop of `EXEC` over the queue. Each command has its own clock readings. -/
def execQueue : (ℕ → Readings) → List (List Bytes) → Store F → ClientState →
    Bytes × Store F × ClientState
  | _, [], store, client => ([], store, client)
  | clock, args :: queue, store, client =>
    let r := execQueued (clock 0) args store client
    let rest := execQueue (fun i => clock (i + 1)) queue r.2.1 r.2.2
    (r.1 ++ rest.1, rest.2)

def noAuth : Bytes := errorReply (ascii "NOAUTH Authentication required.")

def ClientState.leaveMulti (client : ClientState) : ClientState :=
  { client with inMulti := false, queued := [], watched := [] }

/-- `EXEC` inside a transaction: watched keys are checked at the first readings, and each queued
command runs at its own. -/
def execTransaction (clock : ℕ → Readings) (store : Store F) (client : ClientState) :
    Bytes × Store F × ClientState :=
  let d := watchedDirty (clock 0) client.watched store.toKeyspace
  let store := { store with toKeyspace := d.2 }
  if d.1 then (nullArray.toBytes, store, client.leaveMulti)
  else
    let r := execQueue (fun i => clock (i + 1)) client.queued store client.leaveMulti
    (arrayHeader client.queued.length ++ r.1, r.2)

/-- The commands of `handle_command` that end a session or steer a transaction, the rest going
to the queue or to the dispatcher. -/
def runCommand (clock : ℕ → Readings) (args : List Bytes) (store : Store F) (client : ClientState) :
    Bytes × Store F × ClientState :=
  let command := upperName args
  if command = ascii "QUIT" ∨ command = ascii "RESET" then
    if args.length ≠ 1 then (errorReply (ascii "ERR wrong number of arguments"), store, client)
    else
      ((simpleString (if command = ascii "QUIT" then ascii "OK" else ascii "RESET")).toBytes,
        store.removeSubscriber client.fd,
        { client.leaveMulti with
          subscriptions := ∅
          authenticated := store.defaultUserAutoAuth
          closeAfterReply := command = ascii "QUIT" })
  else if command = ascii "MULTI" then
    if args.length ≠ 1 then (arityError "multi", store, client)
    else if client.inMulti then
      (errorReply (ascii "ERR MULTI calls can not be nested"), store, client)
    else (ok, store, { client with inMulti := true })
  else if command = ascii "WATCH" then
    if args.length < 2 then (arityError "watch", store, client)
    else if client.inMulti then
      (errorReply (ascii "ERR WATCH inside MULTI is not allowed"), store, client)
    else
      let w := watchKeys (clock 0) args.tail store.toKeyspace
      (ok, { store with toKeyspace := w.2 }, { client with watched := client.watched ++ w.1 })
  else if command = ascii "UNWATCH" then (ok, store, { client with watched := [] })
  else if command = ascii "DISCARD" then
    if !client.inMulti then (errorReply (ascii "ERR DISCARD without MULTI"), store, client)
    else (ok, store, client.leaveMulti)
  else if command = ascii "EXEC" then
    if !client.inMulti then (errorReply (ascii "ERR EXEC without MULTI"), store, client)
    else execTransaction clock store client
  else if client.inMulti then
    ((simpleString (ascii "QUEUED")).toBytes, store, { client with queued := client.queued ++ [args] })
  else dispatchCommand (clock 0) args store client

/-- The checks before any command is run: a reply, unless the command may go on. -/
def refusal (args : List Bytes) (store : Store F) (client : ClientState) : Option Bytes :=
  let command := upperName args
  if args = [] then some (errorReply (ascii "ERR empty command"))
  else if !client.authenticated ∧ !store.defaultUserAutoAuth ∧ command ≠ ascii "AUTH" ∧
      command ≠ ascii "QUIT" ∧ command ≠ ascii "RESET" then
    some noAuth
  else if !client.subscriptions.isEmpty ∧ command ∉ allowedWhenSubscribed then
    some (errorReply (ascii "ERR Can't execute '" ++ toLower (args.headD []) ++
      ascii "' in subscribed mode"))
  else none

def handleCommand (clock : ℕ → Readings) (args : List Bytes) (store : Store F)
    (client : ClientState) : Bytes × Store F × ClientState :=
  match refusal args store client with
  | some reply => (reply, store, client)
  | none => runCommand clock args store client

/-- The commands that `handle_command` treats itself. -/
def controlCommands : List Bytes :=
  ["QUIT", "RESET", "MULTI", "WATCH", "UNWATCH", "DISCARD", "EXEC"].map ascii

def CommandName.isWrite : CommandName → Bool
  | .data command => command.isWrite
  | _ => false

theorem isWriteCommand_of_mem_table :
    ∀ p ∈ commandTable, isWriteCommand p.1 = p.2.isWrite := by
  decide

theorem not_mem_controlCommands_of_mem_table : ∀ p ∈ commandTable, p.1 ∉ controlCommands := by
  decide

theorem mem_table_of_commandName {command : Bytes} {name : CommandName}
    (h : commandName command = some name) : (command, name) ∈ commandTable := by
  obtain ⟨l₁, l₂, he, -⟩ := List.lookup_eq_some_iff.mp h
  simp [he]

theorem isWriteCommand_of_commandName {command : Bytes} {name : CommandName}
    (h : commandName command = some name) :
    isWriteCommand command = name.isWrite :=
  isWriteCommand_of_mem_table _ (mem_table_of_commandName h)

theorem not_mem_controlCommands_of_commandName {command : Bytes} {name : CommandName}
    (h : commandName command = some name) : command ∉ controlCommands :=
  not_mem_controlCommands_of_mem_table _ (mem_table_of_commandName h)

end TrueStore
