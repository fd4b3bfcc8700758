import TrueStore.Command.Frame
import TrueStore.Resp.RoundTrip

/-! # The event loop

One step of the loop is a new connection, a request of a client, a hang-up, a chunk from the
primary, or the round over the waiting clients. A step takes from its environment what it does
not determine: the clock readings and which calls of `send_all` succeed. Besides the state of the
source, the server carries its own history: what it sent, the calls on its data and the stream
that it passed to its replicas.
-/

namespace TrueStore

open RespType

/-- The options that the store and the event loop read. -/
structure Config where
  port : ℕ := 6379
  isReplica : Bool := false
  masterHost : Bytes := []
  masterPort : ℤ := 0
  dir : Bytes := []
  appendonly : Bytes := ascii "no"
  appenddirname : Bytes := ascii "appendonlydir"
  appendfilename : Bytes := ascii "appendonly.aof"
  appendfsync : Bytes := ascii "everysec"

/-- The result of `generate_replid`. -/
structure ReplId where
  text : Bytes
  length_eq : text.length = 40
  hex : text.all Store.isHexDigit = true

def ReplId.zeros : ReplId := ⟨List.replicate 40 48, by decide, by decide⟩

/-- A client that waits for data or for acknowledgements. -/
structure Waiter where
  fd : ℤ
  kind : BlockKind
  keys : List Bytes := []
  ids : List StreamID := []
  count : ℕ
  deadline : Option ℤ
  targetOffset : ℤ := 0

def Waiter.expired (w : Waiter) (now : ℤ) : Bool := w.deadline.any (· ≤ now)

/-- What a call of `send_all` is for. A reply to `WAIT` comes with the offset that it is about
and the replicas registered at that moment. -/
inductive Purpose where
  | reply
  | message
  | stream
  | served
  | ack (offset : ℤ)
  | waited (acked : ℕ) (target : ℤ) (replicas : Std.ExtTreeMap ℤ ℤ)

/-- One call of `send_all`. -/
structure Sent where
  fd : ℤ
  payload : Bytes
  purpose : Purpose
  delivered : Bool

/-- A command passed to the replicas, with the client whose write it was. -/
structure Propagation where
  client : Option ℤ
  args : List Bytes

/-- What a step takes from outside: the clock readings of the commands that it runs, the time at
which it looks at deadlines, and the outcome of each `send_all` by its number. -/
structure Env where
  clock : ℕ → ℕ → Readings
  now : ℤ
  sendOk : ℕ → Bool

/-- Clocks that stand still and sends that succeed. -/
def Env.still : Env := ⟨fun _ _ _ => ⟨0, 0⟩, 0, fun _ => true⟩

structure Server (F : Type) [Platform F] where
  store : Store F
  aofOpen : Bool
  aof : Bytes := []
  clients : Std.ExtTreeMap ℤ ClientState := ∅
  waiters : List Waiter := []
  replicas : Std.ExtTreeMap ℤ ℤ := ∅
  masterFd : Option ℤ := none
  masterBuffer : Bytes := []
  replicaOffset : ℤ := 0
  halted : Bool := false
  /-- History: the calls of `send_all`. -/
  sends : List Sent := []
  /-- History: the calls on the data. -/
  calls : List (Call F) := []
  /-- History: the commands passed to the replicas. -/
  stream : List Propagation := []
  /-- History: the length of the stream when a connection was accepted. -/
  joined : Std.ExtTreeMap ℤ ℕ := ∅

variable {F : Type} [Platform F]

/-- `Store::init` on a store without data. -/
def Store.init (config : Config) (replid : ReplId) : Store F where
  isReplica := config.isReplica
  masterHost := config.masterHost
  masterPort := config.masterPort
  masterReplid := replid.text
  dir := config.dir
  appendonly := config.appendonly
  appenddirname := config.appenddirname
  appendfilename := config.appendfilename
  appendfsync := config.appendfsync

namespace Server

def start (config : Config) (replid : ReplId) : Server F where
  store := Store.init config replid
  aofOpen := config.appendonly = ascii "yes"

def append (args : List Bytes) (s : Server F) : Server F :=
  { s with aof := if s.aofOpen then s.aof ++ encode args else s.aof }

def transactionBytes (commands : List (List Bytes)) : Bytes :=
  encode [ascii "MULTI"] ++ commands.flatMap encode ++ encode [ascii "EXEC"]

def appendTransaction (commands : List (List Bytes)) (s : Server F) : Server F :=
  { s with
    aof := if !s.aofOpen ∨ commands = [] then s.aof else s.aof ++ transactionBytes commands }

def send (env : Env) (fd : ℤ) (payload : Bytes) (purpose : Purpose) (s : Server F) :
    Bool × Server F :=
  let delivered := env.sendOk s.sends.length
  (delivered, { s with sends := s.sends ++ [⟨fd, payload, purpose, delivered⟩] })

/-- `close_client`. -/
def closeClient (fd : ℤ) (s : Server F) : Server F :=
  { s with
    store := s.store.removeSubscriber fd
    clients := s.clients.erase fd
    waiters := s.waiters.filter (·.fd ≠ fd)
    replicas := s.replicas.erase fd
    masterBuffer := if s.masterFd = some fd then [] else s.masterBuffer }

/-- The loop of `deliver_messages`: a recipient that cannot be reached is disconnected. -/
def deliverAll (env : Env) : List (ℤ × Bytes) → Server F → Server F
  | [], s => s
  | (recipient, message) :: messages, s =>
    if s.clients.contains recipient then
      let r := s.send env recipient message .message
      deliverAll env messages (if r.1 then r.2 else r.2.closeClient recipient)
    else deliverAll env messages s

def deliverMessages (env : Env) (s : Server F) : Server F :=
  deliverAll env s.store.pendingMessages { s with store := { s.store with pendingMessages := [] } }

/-- The loop of `send_to_replicas`: a replica that cannot be reached is no longer one. -/
def sendToAll (env : Env) (payload : Bytes) : List ℤ → Server F → Server F
  | [], s => s
  | fd :: fds, s =>
    let r := s.send env fd payload .stream
    sendToAll env payload fds
      (if r.1 then r.2 else { r.2 with replicas := r.2.replicas.erase fd })

/-- `send_to_replicas`; the offset counts the bytes whether or not there are replicas. -/
def sendToReplicas (env : Env) (client : Option ℤ) (args : List Bytes) (s : Server F) : Server F :=
  sendToAll env (encode args) s.replicas.keys
    { s with
      store := { s.store with
        masterReplOffset := s.store.masterReplOffset + (encode args).length }
      stream := s.stream ++ [⟨client, args⟩] }

/-- `propagate_to_replicas` on behalf of a client, which remembers the offset. -/
def propagate (env : Env) (fd : ℤ) (args : List Bytes) (s : Server F) : Server F :=
  let s := s.sendToReplicas env (some fd) args
  { s with
    clients := s.clients.insert fd
      { s.clients.getD fd {} with replOffset := s.store.masterReplOffset } }

def propagateAll (env : Env) (fd : ℤ) : List (List Bytes) → Server F → Server F
  | [], s => s
  | args :: queue, s => propagateAll env fd queue (s.propagate env fd args)

def countAcked (target : ℤ) (s : Server F) : ℕ := s.replicas.values.countP (target ≤ ·)

/-- A reply to `WAIT`. -/
def sendAcked (env : Env) (fd : ℤ) (target : ℤ) (s : Server F) : Server F :=
  (s.send env fd (integer (s.countAcked target)).toBytes
    (.waited (s.countAcked target) target s.replicas)).2

/-- One waiter of `serve_waiters`, and whether it has been served. -/
def serveWaiter (env : Env) (w : Waiter) (s : Server F) : Bool × Server F :=
  match w.kind with
  | .wait =>
    if w.count ≤ s.countAcked w.targetOffset then (true, s.sendAcked env w.fd w.targetOffset)
    else (false, s)
  | .list =>
    match s.store.tryBlpop w.keys with
    | none => (false, s)
    | some (key, value, store) =>
      let pending := store.pendingPropagations
      let s := { s with
        store := { store with pendingPropagations := [] }
        calls := s.calls ++ [Call.pop s.store.toKeyspace key] }
      let s := pending.foldl (fun s args => (s.append args).propagate env w.fd args) s
      (true, (s.send env w.fd (array [key, value]).toBytes .served).2)
  | .stream =>
    match s.store.tryXread w.keys w.ids w.count with
    | none => (false, s)
    | some reply => (true, (s.send env w.fd reply .served).2)

/-- The loop of `serve_waiters`: the waiters that keep waiting, and the server. -/
def serveAll (env : Env) : List Waiter → Server F → List Waiter × Server F
  | [], s => ([], s)
  | w :: ws, s =>
    let r := s.serveWaiter env w
    let rest := serveAll env ws r.2
    (if r.1 then rest.1 else w :: rest.1, rest.2)

def serveWaiters (env : Env) (s : Server F) : Server F :=
  let r := serveAll env s.waiters s
  { r.2 with waiters := r.1 }

/-- The loop of `expire_waiters`. -/
def expireAll (env : Env) : List Waiter → Server F → Server F
  | [], s => s
  | w :: ws, s =>
    if w.expired env.now then
      expireAll env ws
        (if w.kind = .wait then s.sendAcked env w.fd w.targetOffset
        else (s.send env w.fd nullArray.toBytes .served).2)
    else expireAll env ws s

def expireWaiters (env : Env) (s : Server F) : Server F :=
  { expireAll env s.waiters s with
    waiters := s.waiters.filter fun w => !w.expired env.now }

/-- The acknowledged offset, when the request is a `REPLCONF ACK` that the loop intercepts. -/
def ackText (args : List Bytes) (client : ClientState) (s : Server F) : Option Bytes :=
  match args with
  | name :: sub :: text :: _ =>
    if (client.authenticated || s.store.defaultUserAutoAuth) && client.subscriptions.isEmpty &&
        toUpper name = ascii "REPLCONF" && toUpper sub = ascii "ACK" then some text
    else none
  | _ => none

/-- A number that is out of range, or comes from a client that is no replica, is ignored. -/
def acknowledge (fd : ℤ) (text : Bytes) (s : Server F) : Server F :=
  match stoll text with
  | some offset =>
    { s with replicas := if s.replicas.contains fd then s.replicas.insert fd offset else s.replicas }
  | none => s

/-- `handle_command` and its effect on the server. The number of the command selects its clock
readings. -/
def handle (env : Env) (number : ℕ) (fd : ℤ) (args : List Bytes) (s : Server F) :
    Bytes × Server F :=
  let client := s.clients.getD fd {}
  let r := handleCommand (env.clock number) args s.store client
  (r.1, { s with
    store := r.2.1
    clients := s.clients.insert fd r.2.2
    calls := s.calls ++ commandCalls (env.clock number) args s.store client })

/-- A client whose `PSYNC` succeeded becomes a replica. -/
def register (fd : ℤ) (args : List Bytes) (inMulti : Bool) (reply : Bytes) (s : Server F) :
    Server F :=
  if upperName args = ascii "PSYNC" ∧ !inMulti ∧ reply ≠ [] ∧ !isError reply then
    { s with replicas := s.replicas.insertIfNew fd s.store.masterReplOffset }
  else s

def logOwn (args : List Bytes) (inMulti : Bool) (reply : Bytes) (s : Server F) : Server F :=
  if !inMulti && isWriteCommand (upperName args) && !isError reply then s.append args else s

/-- The writes that the request queued go to the log, those of a transaction as one. -/
def logPending (inMulti : Bool) (s : Server F) : Server F :=
  let pending := s.store.pendingPropagations
  if inMulti then s.appendTransaction pending
  else pending.foldl (fun s args => s.append args) s

def publish (env : Env) (fd : ℤ) (args : List Bytes) (inMulti : Bool) (reply : Bytes)
    (s : Server F) : Server F :=
  let s := s.logOwn args inMulti reply
  let s := if !inMulti && isWriteCommand (upperName args) && !isError reply then
    s.propagate env fd args else s
  let pending := s.store.pendingPropagations
  let s := s.logPending inMulti
  propagateAll env fd pending
    { s with store := { s.store with pendingPropagations := [] } }

/-- The deadline of a client that blocks now. -/
def deadlineAfter (env : Env) (timeout : F) : Option ℤ :=
  if Platform.ofRat 0 < timeout then some (env.now + Platform.secondsToTicks timeout) else none

/-- A request that blocks: `WAIT` is answered at once when it can be. -/
def block (env : Env) (fd : ℤ) (b : BlockRequest F) (s : Server F) : Server F :=
  match b.kind with
  | .wait =>
    let target := (s.clients.getD fd {}).replOffset
    if s.replicas.isEmpty ∨ b.count ≤ s.countAcked target then s.sendAcked env fd target
    else
      let s := s.sendToReplicas env none [ascii "REPLCONF", ascii "GETACK", ascii "*"]
      { s with
        waiters := s.waiters ++
          [⟨fd, .wait, [], [], b.count, deadlineAfter env b.timeout, target⟩] }
  | kind =>
    { s with
      waiters := s.waiters ++ [⟨fd, kind, b.keys, b.ids, b.count, deadlineAfter env b.timeout, 0⟩] }

def respond (env : Env) (fd : ℤ) (reply : Bytes) (s : Server F) : Bool × Server F :=
  match s.store.pendingBlock with
  | some b => (true, { s with store := { s.store with pendingBlock := none } }.block env fd b)
  | none =>
    if reply = [] then (true, s)
    else
      let r := s.send env fd reply .reply
      if r.1 then r else (false, r.2.closeClient fd)

/-- The end of a request: messages are delivered, and a client that quit is disconnected. -/
def finish (env : Env) (fd : ℤ) (s : Server F) : Server F :=
  let s := s.deliverMessages env
  if (s.clients.getD fd {}).closeAfterReply then s.closeClient fd else s

def command (env : Env) (fd : ℤ) (args : List Bytes) (s : Server F) : Server F :=
  match s.clients[fd]? with
  | none => s
  | some client =>
    match s.ackText args client with
    | some text => s.acknowledge fd text
    | none =>
      let r := s.handle env 0 fd args
      let s := r.2.register fd args client.inMulti r.1
      let s := s.publish env fd args client.inMulti r.1
      let t := s.respond env fd r.1
      if t.1 then t.2.finish env fd else t.2

def isGetack (args : List Bytes) : Bool :=
  match args with
  | name :: sub :: _ => toUpper name = ascii "REPLCONF" && toUpper sub = ascii "GETACK"
  | _ => false

/-- A command of the primary that is not a `GETACK`: it is run and logged, not answered. -/
def obey (env : Env) (number : ℕ) (fd : ℤ) (args : List Bytes) (s : Server F) : Server F :=
  let inMulti := (s.clients.getD fd {}).inMulti
  let r := s.handle env number fd args
  let s := (r.2.logOwn args inMulti r.1).logPending inMulti
  { s with store := { s.store with pendingPropagations := [], pendingBlock := none } }

/-- One command from the buffer of the link. An acknowledgement does not count the bytes of the
request for it. -/
def replicate (env : Env) (fd : ℤ) (args : List Bytes) (consumed : ℕ) (st : ℕ × Server F) :
    (ℕ × Server F) × Option Exn :=
  let s := if isGetack args then
    (st.2.send env fd (encode [ascii "REPLCONF", ascii "ACK", decimalInt st.2.replicaOffset])
      (.ack st.2.replicaOffset)).2
    else st.2.obey env st.1 fd args
  ((st.1 + 1, { s with replicaOffset := s.replicaOffset + consumed }), none)

/-- A chunk from the primary. A protocol error closes the link; any other exception ends the
server. -/
def fromMaster (env : Env) (chunk : Bytes) (s : Server F) : Server F :=
  match s.masterFd with
  | none => s
  | some fd =>
    if !s.clients.contains fd then s
    else
      let r := Framing.feed (parseCommand unlimited) (replicate env fd) (0, s) s.masterBuffer chunk
      let s := r.1.2
      match r.2 with
      | .ok rest =>
        { s with
          masterBuffer := rest
          store := { s.store with masterReplOffset := s.replicaOffset } }
      | .error (.respError _) =>
        let s := s.closeClient fd
        { s with
          masterFd := none
          store := { s.store with masterReplOffset := s.replicaOffset } }
      | .error _ => { s with halted := true }

def masterClosed (s : Server F) : Server F :=
  match s.masterFd with
  | none => s
  | some fd =>
    if !s.clients.contains fd then s else { s.closeClient fd with masterFd := none }

/-- The server after a handshake with a primary: the link is a client of its own. -/
def follow (fd : ℤ) (offset : ℤ) (s : Server F) : Server F :=
  { s with
    masterFd := some fd
    replicaOffset := offset
    clients := s.clients.insert fd { authenticated := true } }

/-- A fresh server, with a link to a primary or without one. -/
def boot (config : Config) (replid : ReplId) : Option (ℤ × ℤ) → Server F
  | none => start config replid
  | some (fd, offset) => (start config replid).follow fd offset

inductive Event where
  | accept (fd : ℤ)
  | request (fd : ℤ) (r : Request)
  | hangup (fd : ℤ)
  | chunk (bytes : Bytes)
  | masterClosed
  | round

def accept (fd : ℤ) (s : Server F) : Server F :=
  if s.clients.contains fd then s
  else
    { s with
      clients := s.clients.insert fd { fd, authenticated := s.store.defaultUserAutoAuth }
      joined := s.joined.insert fd s.stream.length }

/-- One step of the event loop. The link to the primary is not a client. -/
def step (env : Env) (event : Event) (s : Server F) : Server F :=
  if s.halted then s
  else match event with
    | .accept fd => s.accept fd
    | .request fd r => if s.masterFd = some fd then s else s.command env fd r.args
    | .hangup fd => if s.clients.contains fd then s.closeClient fd else s
    | .chunk bytes => s.fromMaster env bytes
    | .masterClosed => s.masterClosed
    | .round => (s.serveWaiters env).expireWaiters env

def run : List (Env × Event) → Server F → Server F
  | [], s => s
  | (env, event) :: events, s => run events (s.step env event)

end Server

end TrueStore
