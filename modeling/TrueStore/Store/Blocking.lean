import TrueStore.Store.Geospatial

/-! # The store and the commands that block

Besides the data, the store holds what a command leaves for the event loop: a request to
block, the writes to propagate and the messages to deliver.
-/

namespace TrueStore

open RespType

inductive BlockKind where
  | list
  | stream
  | wait
  deriving DecidableEq, Repr

structure BlockRequest (F : Type) where
  kind : BlockKind
  keys : List Bytes := []
  ids : List StreamID := []
  count : ℕ := 0
  timeout : F

/-- `Store`, with the fields of `Keyspace` among its own. -/
structure Store (F : Type) [Platform F] extends Keyspace F where
  pendingBlock : Option (BlockRequest F) := none
  pendingPropagations : List (List Bytes) := []
  subscribers : Map (Std.ExtTreeSet ℤ) := ∅
  pendingMessages : List (ℤ × Bytes) := []
  defaultUserEnabled : Bool := true
  defaultUserNopass : Bool := true
  defaultUserPasswords : List Bytes := []
  isReplica : Bool := false
  masterHost : Bytes := []
  masterPort : ℤ := 0
  masterReplid : Bytes := []
  masterReplOffset : ℤ := 0
  dir : Bytes := []
  appendonly : Bytes := []
  appenddirname : Bytes := []
  appendfilename : Bytes := []
  appendfsync : Bytes := []

/-- What the server remembers of a connection. -/
structure ClientState where
  fd : ℤ := -1
  authenticated : Bool := false
  subscriptions : Std.ExtTreeSet Bytes := ∅
  closeAfterReply : Bool := false
  inMulti : Bool := false
  queued : List (List Bytes) := []
  watched : List (Bytes × Option Bytes) := []
  replOffset : ℤ := 0

namespace Store

variable {F : Type} [Platform F]

def defaultUserAutoAuth (s : Store F) : Bool := s.defaultUserEnabled && s.defaultUserNopass

def queuePropagation (s : Store F) (args : List Bytes) : Store F :=
  { s with pendingPropagations := s.pendingPropagations ++ [args] }

/-- A handler of the data, run on the store. -/
def onData (s : Store F) (handler : Keyspace F → Bytes × Keyspace F) : Bytes × Store F :=
  ((handler s.toKeyspace).1, { s with toKeyspace := (handler s.toKeyspace).2 })

/-- `Store::try_blpop`: a pop is propagated as an `LPOP`. -/
def tryBlpop (s : Store F) (keys : List Bytes) : Option (Bytes × Bytes × Store F) :=
  (s.popFirst keys).map fun p =>
    (p.1, p.2.1, { s with toKeyspace := p.2.2 }.queuePropagation [ascii "LPOP", p.1])

/-- The timeout of `BLPOP`, or the reply to an invalid one. -/
def parseTimeout (text : Bytes) : Except Bytes F :=
  match Platform.stod text with
  | none => .error (errorReply (ascii "ERR timeout is not a float or out of range"))
  | some (value, consumed) =>
    if consumed ≠ text.length then
      .error (errorReply (ascii "ERR timeout is not a float or out of range"))
    else match value with
      | none => .error (errorReply (ascii "ERR timeout is negative"))
      | some timeout =>
        if timeout < Platform.ofRat 0 then .error (errorReply (ascii "ERR timeout is negative"))
        else .ok timeout

def handleBlpop (args : List Bytes) (store : Store F) : Bytes × Store F :=
  let s := { store with pendingBlock := none }
  match args with
  | _ :: first :: second :: rest =>
    let last := (first :: second :: rest).getLastD []
    let keys := (first :: second :: rest).dropLast
    match parseTimeout (F := F) last with
    | .error failure => (failure, s)
    | .ok timeout =>
      if keys.any fun key => s.sortedSets.contains key then (wrongType, s)
      else match s.tryBlpop keys with
        | some (key, value, s') => ((array [key, value]).toBytes, s')
        | none => ([], { s with pendingBlock := some { kind := .list, keys, timeout } })
  | _ => (arityError "blpop", s)

/-- The options of `XREAD` before `STREAMS`. -/
structure ReadOptions (F : Type) where
  count : ℕ := 0
  blocking : Bool := false
  timeout : F

/-- The option loop of `XREAD`: the options and the arguments after `STREAMS`. -/
def readOptions (o : ReadOptions F) : List Bytes → Except Bytes (ReadOptions F × List Bytes)
  | [] => .error Keyspace.syntaxError
  | arg :: rest =>
    if toUpper arg = ascii "STREAMS" then .ok (o, rest)
    else if toUpper arg ≠ ascii "COUNT" ∧ toUpper arg ≠ ascii "BLOCK" then
      .error Keyspace.syntaxError
    else match rest with
      | [] => .error Keyspace.syntaxError
      | text :: more =>
        match stoll text with
        | none =>
          .error (if toUpper arg = ascii "BLOCK" then
            errorReply (ascii "ERR timeout is not an integer or out of range")
          else Keyspace.notInteger)
        | some parsed =>
          if toUpper arg = ascii "COUNT" then
            readOptions { o with count := if 0 < parsed then parsed.toNat else 0 } more
          else if parsed < 0 then .error (errorReply (ascii "ERR timeout is negative"))
          else readOptions
            { o with
              blocking := true
              timeout := Platform.div (Platform.ofI64 parsed) (Platform.ofRat 1000) } more

/-- The ID from which a stream is read: `$` stands for the last one of the stream. -/
def readId (s : Store F) (key text : Bytes) : Option StreamID :=
  if text = ascii "$" then
    some (match s.streams[key]? with
      | none => ⟨0, 0⟩
      | some stream => stream.maxId.getD ⟨0, 0⟩)
  else parseReadId text

/-- The loop of `XREAD` over keys and ID texts. -/
def readIds (s : Store F) : List (Bytes × Bytes) → Except Bytes (List StreamID)
  | [] => .ok []
  | (key, text) :: rest =>
    if s.sortedSets.contains key then .error wrongType
    else match s.readId key text with
      | none => .error Keyspace.invalidStreamId
      | some id =>
        match s.readIds rest with
        | .error failure => .error failure
        | .ok ids => .ok (id :: ids)

def unbalanced : Bytes := errorReply (ascii
  "ERR Unbalanced XREAD list of streams: for each stream key an ID or '$' must be specified.")

def handleXread (args : List Bytes) (store : Store F) : Bytes × Store F :=
  let s := { store with pendingBlock := none }
  match readOptions { timeout := Platform.ofRat 0 } args.tail with
  | .error failure => (failure, s)
  | .ok (o, rest) =>
    if rest.length = 0 ∨ rest.length % 2 ≠ 0 then (unbalanced, s)
    else
      let keys := rest.take (rest.length / 2)
      match s.readIds (keys.zip (rest.drop (rest.length / 2))) with
      | .error failure => (failure, s)
      | .ok ids =>
        match s.tryXread keys ids o.count with
        | some reply => (reply, s)
        | none =>
          if o.blocking then
            ([], { s with
              pendingBlock := some
                { kind := .stream, keys, ids, count := o.count, timeout := o.timeout } })
          else (nullArray.toBytes, s)

def handleWait (args : List Bytes) (s : Store F) : Bytes × Store F :=
  match args with
  | [_, replicasText, timeoutText] =>
    match stoll replicasText, stoll timeoutText with
    | some numreplicas, some timeoutMs =>
      ([], { s with
        pendingBlock := some
          { kind := .wait
            count := if 0 < numreplicas then numreplicas.toNat else 0
            timeout := Platform.div (Platform.ofI64 timeoutMs) (Platform.ofRat 1000) } })
    | _, _ => (Keyspace.notInteger, s)
  | _ => (arityError "wait", s)

end Store

end TrueStore
