import TrueStore.Text.Numeral

/-! # RESP values and their encoding

Replies and requests are RESP values. The first byte of an encoding gives its kind:
`+` (43) a simple string, `-` (45) an error, `:` (58) an integer, `$` (36) a bulk
string and `*` (42) an array. Bulk strings and arrays are length-prefixed.
-/

namespace TrueStore

inductive RespType where
  | simpleString (value : Bytes)
  | bulkString (value : Bytes)
  | simpleError (value : Bytes)
  | nullBulkString
  | integer (value : ℤ)
  | array (elements : List Bytes)
  | nestedArray (nested : List RespType)
  | nullArray

namespace RespType

def bulkBytes (value : Bytes) : Bytes := 36 :: decimal value.length ++ crlf ++ value ++ crlf

def arrayHeader (count : ℕ) : Bytes := 42 :: decimal count ++ crlf

mutual

def toBytes : RespType → Bytes
  | simpleString value => 43 :: value ++ crlf
  | bulkString value => bulkBytes value
  | simpleError value => 45 :: value ++ crlf
  | nullBulkString => 36 :: 45 :: 49 :: crlf
  | nullArray => 42 :: 45 :: 49 :: crlf
  | integer value => 58 :: decimalInt value ++ crlf
  | array elements => arrayHeader elements.length ++ elements.flatMap bulkBytes
  | nestedArray nested => arrayHeader nested.length ++ nestedBytes nested

def nestedBytes : List RespType → Bytes
  | [] => []
  | element :: rest => toBytes element ++ nestedBytes rest

end

end RespType

/-- A reply that starts with `-`, the test behind logging, propagation and replay. -/
def isError (reply : Bytes) : Bool := reply.head? == some 45

open RespType

/-- The error replies of the program, `RespType::SimpleError(text).to_bytes()`. -/
def errorReply (text : Bytes) : Bytes := (simpleError text).toBytes

def wrongType : Bytes :=
  errorReply (ascii "WRONGTYPE Operation against a key holding the wrong kind of value")

def arityError (command : String) : Bytes :=
  errorReply (ascii "ERR wrong number of arguments for '" ++ ascii command ++ ascii "' command")

def ok : Bytes := (simpleString (ascii "OK")).toBytes

@[simp] theorem isError_errorReply (text : Bytes) : isError (errorReply text) = true := rfl

@[simp] theorem isError_wrongType : isError wrongType = true := rfl

@[simp] theorem isError_arityError (command : String) : isError (arityError command) = true := rfl

@[simp] theorem isError_nil : isError [] = false := rfl

@[simp] theorem isError_ok : isError ok = false := rfl

@[simp] theorem isError_toBytes (r : RespType) :
    isError r.toBytes = match r with
      | .simpleError _ => true
      | _ => false := by
  cases r <;> simp [toBytes, isError, bulkBytes, arrayHeader]

theorem toBytes_ne_nil (r : RespType) : r.toBytes ≠ [] := by
  cases r <;> simp [toBytes, bulkBytes, arrayHeader]

/-- A request on the wire: the encoding of an array of bulk strings. -/
def encode (args : List Bytes) : Bytes := (array args).toBytes

theorem encode_eq (args : List Bytes) :
    encode args = arrayHeader args.length ++ args.flatMap bulkBytes := by
  simp [encode, toBytes]

theorem length_bulkBytes (value : Bytes) :
    (bulkBytes value).length = (decimal value.length).length + value.length + 5 := by
  simp [bulkBytes, crlf]
  omega

theorem length_arrayHeader (count : ℕ) :
    (arrayHeader count).length = (decimal count).length + 3 := by
  simp [arrayHeader, crlf]

theorem encode_ne_nil (args : List Bytes) : encode args ≠ [] := toBytes_ne_nil _

end TrueStore
