import TrueStore.Framing.Reader
import TrueStore.Order.BigEndian
import TrueStore.Text.Numeral

/-! # The RDB loader

A file is a header of nine bytes and a sequence of records, each behind an opcode. The loader
keeps the expiry that an opcode announces until the next entry, and stops at the opcode for the
end of the file or where the bytes run out.
-/

namespace TrueStore.Rdb

open Framing

inductive Error where
  | unexpectedEnd
  | invalidLength
  | unsupportedString
  | missingHeader
  | unsupportedOpcode
  deriving DecidableEq, Repr

abbrev Reader (α : Type) := Framing.Reader Error α

def byte : Reader UInt8 := Reader.next .unexpectedEnd

def bytes (count : ℕ) : Reader Bytes := Reader.take .unexpectedEnd count

/-- The loop of `little_endian` from byte `i` on. -/
def littleEndianFrom (value i : ℕ) : ℕ → Reader ℕ
  | 0 => pure value
  | width + 1 => do
    let b ← byte
    littleEndianFrom (value ||| b.toNat <<< (8 * i)) (i + 1) width

def littleEndian (width : ℕ) : Reader ℕ := littleEndianFrom 0 0 width

/-- The loop of `big_endian`. -/
def bigEndianFrom (value : ℕ) : ℕ → Reader ℕ
  | 0 => pure value
  | width + 1 => do
    let b ← byte
    bigEndianFrom (value <<< 8 ||| b.toNat) width

def bigEndian (width : ℕ) : Reader ℕ := bigEndianFrom 0 width

def length : Reader ℕ := do
  let first ← byte
  if first >>> 6 = 0 then pure (first &&& 0x3F).toNat
  else if first >>> 6 = 1 then do
    let b ← byte
    pure ((first &&& 0x3F).toNat <<< 8 ||| b.toNat)
  else if first = 0x80 then bigEndian 4
  else if first = 0x81 then bigEndian 8
  else throw .invalidLength

/-- The string behind its first byte, when that byte announces an integer. -/
def integerText (first : UInt8) : Reader Bytes :=
  if first = 0xC0 then do
    let b ← byte
    pure (decimalInt (Int.bmod b.toNat (2 ^ 8)))
  else if first = 0xC1 then do
    let n ← littleEndian 2
    pure (decimalInt (Int.bmod n (2 ^ 16)))
  else if first = 0xC2 then do
    let n ← littleEndian 4
    pure (decimalInt (Int.bmod n (2 ^ 32)))
  else throw .unsupportedString

def string : Reader Bytes := fun data =>
  match data with
  | [] => .error .unexpectedEnd
  | first :: rest =>
    if first >>> 6 = 3 then integerText first rest
    else (do
      let count ← length
      bytes count) data

structure Entry where
  key : Bytes
  value : Bytes
  expireAtMs : Option ℕ
  deriving DecidableEq, Repr

/-- What the loop carries from record to record: the expiry read ahead and the entries. -/
structure State where
  expireAtMs : Option ℕ := none
  entries : List Entry := []
  deriving DecidableEq, Repr

def record (opcode : UInt8) (s : State) : Reader State :=
  if opcode = 0xFA then do
    let _ ← string
    let _ ← string
    pure s
  else if opcode = 0xFE then do
    let _ ← length
    pure s
  else if opcode = 0xFB then do
    let _ ← length
    let _ ← length
    pure s
  else if opcode = 0xFC then do
    let ms ← littleEndian 8
    pure { s with expireAtMs := some ms }
  else if opcode = 0xFD then do
    let seconds ← littleEndian 4
    pure { s with expireAtMs := some (seconds * 1000) }
  else if opcode = 0x00 then do
    let key ← string
    let value ← string
    pure { expireAtMs := none, entries := s.entries ++ [⟨key, value, s.expireAtMs⟩] }
  else throw .unsupportedOpcode

/-- The loop of `load_rdb`. Every turn consumes an opcode, so that the number of bytes bounds the
number of turns. -/
def loop : ℕ → State → Bytes → Except Error (List Entry)
  | _, s, [] => .ok s.entries
  | 0, s, _ => .ok s.entries
  | fuel + 1, s, opcode :: rest =>
    if opcode = 0xFF then .ok s.entries
    else match record opcode s rest with
      | .error e => .error e
      | .ok (s, rest) => loop fuel s rest

/-- `load_rdb`; there may be no file at the path. -/
def loadRdb : Option Bytes → Except Error (List Entry)
  | none => .ok []
  | some data =>
    match bytes 9 data with
    | .error e => .error e
    | .ok (header, rest) =>
      if header.take 5 = ascii "REDIS" then loop rest.length {} rest else .error .missingHeader

end TrueStore.Rdb
