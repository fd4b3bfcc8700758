import TrueStore.Store.Blocking

/-! # Authentication, publish/subscribe, replication and configuration commands -/

namespace TrueStore

open RespType

variable {F : Type} [Platform F]

namespace Store

def hexDigit (n : ℕ) : UInt8 := UInt8.ofNat (if n < 10 then 48 + n else 87 + n)

def passwordHash (F : Type) [Platform F] (password : Bytes) : Bytes :=
  (Platform.sha256 F password).flatMap fun b => [hexDigit (b.toNat / 16), hexDigit (b.toNat % 16)]

def isHexDigit (b : UInt8) : Bool := isDigit b || (97 ≤ b && b ≤ 102)

/-- The part of the store that `ACL SETUSER` changes. -/
structure AclUser where
  enabled : Bool
  nopass : Bool
  passwords : List Bytes
  deriving DecidableEq

def aclUser (s : Store F) : AclUser :=
  ⟨s.defaultUserEnabled, s.defaultUserNopass, s.defaultUserPasswords⟩

/-- One rule of `ACL SETUSER`. The bytes 62, 60, 35 and 33 are `>`, `<`, `#` and `!`. -/
def aclRule (F : Type) [Platform F] (u : AclUser) (rule : Bytes) : Except Bytes AclUser :=
  let addPassword (hash : Bytes) : AclUser :=
    { u with
      passwords := if hash ∈ u.passwords then u.passwords else u.passwords ++ [hash]
      nopass := false }
  let removePassword (hash : Bytes) : AclUser := { u with passwords := u.passwords.filter (· ≠ hash) }
  let checkHash (hash : Bytes) (user : AclUser) : Except Bytes AclUser :=
    if hash.length ≠ 64 ∨ !hash.all isHexDigit then
      .error (errorReply (ascii "ERR password hash must contain 64 lowercase hex characters"))
    else .ok user
  if rule = ascii "on" ∨ rule = ascii "off" then .ok { u with enabled := rule = ascii "on" }
  else if rule = ascii "nopass" ∨ rule = ascii "resetpass" then
    .ok { u with passwords := [], nopass := rule = ascii "nopass" }
  else match rule with
    | 62 :: password => .ok (addPassword (passwordHash F password))
    | 60 :: password => .ok (removePassword (passwordHash F password))
    | 35 :: hash => checkHash hash (addPassword hash)
    | 33 :: hash => checkHash hash (removePassword hash)
    | _ => .error (errorReply (ascii "ERR unsupported ACL rule"))

/-- The rule loop of `ACL SETUSER`. -/
def aclRules (F : Type) [Platform F] (u : AclUser) : List Bytes → Except Bytes AclUser
  | [] => .ok u
  | rule :: rules =>
    match aclRule F u rule with
    | .error failure => .error failure
    | .ok u' => aclRules F u' rules

def aclGetUser (s : Store F) : Bytes :=
  (nestedArray [
    bulkString (ascii "flags"),
    array ((if s.defaultUserEnabled then ascii "on" else ascii "off") ::
      (if s.defaultUserNopass then [ascii "nopass"] else [])),
    bulkString (ascii "passwords"), array s.defaultUserPasswords,
    bulkString (ascii "commands"), bulkString (ascii "+@all"),
    bulkString (ascii "keys"), bulkString (ascii "~*"),
    bulkString (ascii "channels"), bulkString (ascii "&*"),
    bulkString (ascii "selectors"), array []]).toBytes

def handleAcl (args : List Bytes) (s : Store F) : Bytes × Store F :=
  match args with
  | _ :: name :: rest =>
    if toUpper name = ascii "WHOAMI" then
      if rest ≠ [] then (arityError "acl|whoami", s)
      else ((bulkString (ascii "default")).toBytes, s)
    else if toUpper name = ascii "GETUSER" then
      match rest with
      | [user] =>
        if user ≠ ascii "default" then (nullBulkString.toBytes, s) else (s.aclGetUser, s)
      | _ => (arityError "acl|getuser", s)
    else if toUpper name ≠ ascii "SETUSER" then
      (errorReply (ascii "ERR unknown ACL subcommand"), s)
    else match rest with
      | [] => (arityError "acl|setuser", s)
      | user :: rules =>
        if user ≠ ascii "default" then
          (errorReply (ascii "ERR only the default user is supported"), s)
        else match aclRules F s.aclUser rules with
          | .error failure => (failure, s)
          | .ok u =>
            (ok, { s with
              defaultUserEnabled := u.enabled
              defaultUserNopass := u.nopass
              defaultUserPasswords := u.passwords })
  | _ => (arityError "acl", s)

/-- `CRYPTO_memcmp` compares as many bytes as the computed hash has. -/
def passwordMatches (s : Store F) (password : Bytes) : Bool :=
  let hash := passwordHash F password
  s.defaultUserNopass || s.defaultUserPasswords.any fun p => p.take hash.length = hash

/-- `AUTH` once its user name and password are known. -/
def authenticate (s : Store F) (user password : Bytes) (client : ClientState) :
    Bytes × ClientState :=
  if !s.defaultUserEnabled ∨ user ≠ ascii "default" ∨ !s.passwordMatches password then
    (errorReply (ascii "WRONGPASS invalid username-password pair or user is disabled."), client)
  else (ok, { client with authenticated := true })

def handleAuth (args : List Bytes) (s : Store F) (client : ClientState) : Bytes × ClientState :=
  match args with
  | [_, password] =>
    if s.defaultUserNopass then
      (errorReply (ascii ("ERR AUTH <password> called without any password configured for the " ++
        "default user. Are you sure your configuration is correct?")), client)
    else s.authenticate (ascii "default") password client
  | [_, user, password] => s.authenticate user password client
  | _ => (arityError "auth", client)

def subscriptionReply (kind : String) (channel : RespType) (count : ℕ) : Bytes :=
  (nestedArray [bulkString (ascii kind), channel, integer count]).toBytes

def addSubscriber (s : Store F) (fd : ℤ) (channel : Bytes) : Store F :=
  { s with
    subscribers := s.subscribers.insert channel ((s.subscribers.getD channel ∅).insert fd) }

/-- The loop of `SUBSCRIBE` over its channels. -/
def subscribeAll : List Bytes → Store F → ClientState → Bytes × Store F × ClientState
  | [], s, client => ([], s, client)
  | channel :: channels, s, client =>
    let client := { client with subscriptions := client.subscriptions.insert channel }
    let r := subscribeAll channels (s.addSubscriber client.fd channel) client
    (subscriptionReply "subscribe" (bulkString channel) client.subscriptions.size ++ r.1, r.2)

def handleSubscribe (args : List Bytes) (s : Store F) (client : ClientState) :
    Bytes × Store F × ClientState :=
  match args with
  | _ :: channel :: channels => subscribeAll (channel :: channels) s client
  | _ => (arityError "subscribe", s, client)

def dropSubscriber (fd : ℤ) (fds : Std.ExtTreeSet ℤ) : Option (Std.ExtTreeSet ℤ) :=
  if (fds.erase fd).isEmpty then none else some (fds.erase fd)

def leaveChannel (s : Store F) (fd : ℤ) (channel : Bytes) : Store F :=
  { s with
    subscribers := match s.subscribers[channel]? with
      | none => s.subscribers
      | some fds =>
        match dropSubscriber fd fds with
        | none => s.subscribers.erase channel
        | some fds' => s.subscribers.insert channel fds' }

/-- The loop of `UNSUBSCRIBE` over its channels. -/
def unsubscribeAll : List Bytes → Store F → ClientState → Bytes × Store F × ClientState
  | [], s, client => ([], s, client)
  | channel :: channels, s, client =>
    let client := { client with subscriptions := client.subscriptions.erase channel }
    let r := unsubscribeAll channels (s.leaveChannel client.fd channel) client
    (subscriptionReply "unsubscribe" (bulkString channel) client.subscriptions.size ++ r.1, r.2)

/-- Without arguments the client leaves every channel. -/
def handleUnsubscribe (args : List Bytes) (s : Store F) (client : ClientState) :
    Bytes × Store F × ClientState :=
  match if args.tail = [] then client.subscriptions.toList else args.tail with
  | [] => (subscriptionReply "unsubscribe" nullBulkString 0, s, client)
  | channels => unsubscribeAll channels s client

def handlePublish (args : List Bytes) (s : Store F) : Bytes × Store F :=
  match args with
  | [_, channel, text] =>
    match s.subscribers[channel]? with
    | none => ((integer 0).toBytes, s)
    | some fds =>
      let message := (array [ascii "message", channel, text]).toBytes
      ((integer fds.size).toBytes,
        { s with pendingMessages := s.pendingMessages ++ fds.toList.map fun fd => (fd, message) })
  | _ => (arityError "publish", s)

def removeSubscriber (s : Store F) (fd : ℤ) : Store F :=
  { s with subscribers := s.subscribers.filterMap fun _ fds => dropSubscriber fd fds }

def handleReplconf (_args : List Bytes) (s : Store F) : Bytes × Store F := (ok, s)

def hexValue (b : UInt8) : UInt8 := if isDigit b then b - 48 else b - 87

def hexToBytes : Bytes → Bytes
  | high :: low :: rest => (hexValue high * 16 + hexValue low) :: hexToBytes rest
  | _ => []

/-- The empty database that starts every full resynchronisation. -/
def emptyRdb : Bytes := hexToBytes (ascii ("524544495330303131fa0972656469732d76657205372e322e30" ++
  "fa0a72656469732d62697473c040fa056374696d65c26d08bc65fa08757365642d6d656dc2b0c41000fa08616f662d" ++
  "62617365c000fff06e3bfec0ff5aa2"))

def fullresync (s : Store F) : Bytes :=
  ascii "FULLRESYNC " ++ s.masterReplid ++ ascii " " ++ decimalInt s.masterReplOffset

def handlePsync (_args : List Bytes) (s : Store F) : Bytes × Store F :=
  ((simpleString s.fullresync).toBytes ++ (36 :: decimal emptyRdb.length ++ crlf ++ emptyRdb), s)

def handleInfo (_args : List Bytes) (s : Store F) : Bytes × Store F :=
  let role :=
    if s.isReplica then
      ascii "role:slave" ++ crlf ++ ascii "master_host:" ++ s.masterHost ++ crlf ++
        ascii "master_port:" ++ decimalInt s.masterPort ++ crlf
    else ascii "role:master" ++ crlf
  ((bulkString (ascii "# Replication" ++ crlf ++ role ++
    ascii "master_replid:" ++ s.masterReplid ++ crlf ++
    ascii "master_repl_offset:" ++ decimalInt s.masterReplOffset ++ crlf)).toBytes, s)

def handleConfigGet (args : List Bytes) (s : Store F) : Bytes × Store F :=
  match args with
  | [_, name, param] =>
    if toUpper name ≠ ascii "GET" then (arityError "config|get", s)
    else if toUpper param = ascii "DIR" then ((array [ascii "dir", s.dir]).toBytes, s)
    else if toUpper param = ascii "APPENDONLY" then
      ((array [ascii "appendonly", s.appendonly]).toBytes, s)
    else if toUpper param = ascii "APPENDDIRNAME" then
      ((array [ascii "appenddirname", s.appenddirname]).toBytes, s)
    else if toUpper param = ascii "APPENDFILENAME" then
      ((array [ascii "appendfilename", s.appendfilename]).toBytes, s)
    else if toUpper param = ascii "APPENDFSYNC" then
      ((array [ascii "appendfsync", s.appendfsync]).toBytes, s)
    else ((array []).toBytes, s)
  | _ => (arityError "config|get", s)

end Store

end TrueStore
