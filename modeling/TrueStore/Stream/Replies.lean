import TrueStore.Resp.Tokens
import TrueStore.Stream.Log
import TrueStore.Store.Streams

/-! # Entries in replies

The reply to an `XREAD` of one stream, and how a client reads the entries in it.
-/

namespace TrueStore

open RespType Keyspace

/-- The reply to an `XREAD` of one stream. -/
def xreadReply (key : Bytes) (entries : List (StreamID × StreamEntryData)) : Bytes :=
  (nestedArray [nestedArray [bulkString key, entriesToResp (entries.map showEntry)]]).toBytes

def readPairs : List Token → StreamEntryData
  | .bulk field :: .bulk value :: rest => (field, value) :: readPairs rest
  | _ => []

def readEntries : ℕ → List Token → List (StreamID × StreamEntryData)
  | n + 1, .header _ :: .bulk text :: .header count :: rest =>
    match StreamID.parse text with
    | some id => (id, readPairs (rest.take count)) :: readEntries n (rest.drop count)
    | none => []
  | _, _ => []

/-- The entries of a stream that a reply shows, none if it is another kind of reply. -/
def entriesIn (key : Bytes) (reply : Bytes) : List (StreamID × StreamEntryData) :=
  match Token.ofReply reply with
  | .header _ :: .header _ :: .bulk k :: .header n :: rest => if k = key then readEntries n rest else []
  | _ => []

def entryTokens (e : StreamID × StreamEntryData) : List Token :=
  .header 2 :: .bulk e.1.toString :: .header (2 * e.2.length) ::
    e.2.flatMap fun p => [.bulk p.1, .bulk p.2]

theorem flatMap_bulkBytes (data : StreamEntryData) :
    (data.flatMap fun p => [p.1, p.2]).flatMap bulkBytes =
      (data.flatMap fun p => [Token.bulk p.1, Token.bulk p.2]).flatMap Token.bytes := by
  induction data with
  | nil => rfl
  | cons p data ih => simp [Token.bytes, ih]

theorem length_flatMap_pairs {α β : Type*} (data : List α) (f g : α → β) :
    (data.flatMap fun p => [f p, g p]).length = 2 * data.length := by
  induction data with
  | nil => rfl
  | cons p data ih =>
    simp only [List.flatMap_cons, List.length_append, List.length_cons, List.length_nil, ih]
    omega

theorem nestedBytes_entries (entries : List (StreamID × StreamEntryData)) :
    nestedBytes ((entries.map showEntry).map fun e =>
      nestedArray [bulkString e.1, array (e.2.flatMap fun p => [p.1, p.2])]) =
      (entries.flatMap entryTokens).flatMap Token.bytes := by
  induction entries with
  | nil => rfl
  | cons e entries ih =>
    simp only [List.map_cons, nestedBytes, ih, List.flatMap_cons, List.flatMap_append]
    simp [toBytes, nestedBytes, showEntry, entryTokens, Token.bytes, flatMap_bulkBytes]
    rw [Nat.mul_comm]

theorem xreadReply_eq (key : Bytes) (entries : List (StreamID × StreamEntryData)) :
    xreadReply key entries = (.header 1 :: .header 2 :: .bulk key :: .header entries.length ::
      entries.flatMap entryTokens).flatMap Token.bytes := by
  simp only [xreadReply, toBytes, nestedBytes, entriesToResp, nestedBytes_entries,
    List.flatMap_cons, Token.bytes, List.length_map, List.length_cons, List.length_nil,
    List.append_nil, Nat.zero_add, Nat.reduceAdd]

theorem readPairs_tokens (data : StreamEntryData) :
    readPairs (data.flatMap fun p => [Token.bulk p.1, Token.bulk p.2]) = data := by
  induction data with
  | nil => rfl
  | cons p data ih => simp [readPairs, ih]

theorem readEntries_tokens (entries : List (StreamID × StreamEntryData)) :
    readEntries entries.length (entries.flatMap entryTokens) = entries := by
  induction entries with
  | nil => rfl
  | cons e entries ih =>
    have hlen : (e.2.flatMap fun p => [Token.bulk p.1, Token.bulk p.2]).length = 2 * e.2.length :=
      length_flatMap_pairs e.2 _ _
    simp only [List.length_cons, List.flatMap_cons, entryTokens, List.cons_append, readEntries,
      StreamID.parse_toString]
    rw [List.take_left' hlen, List.drop_left' hlen, readPairs_tokens]
    exact congrArg _ ih

theorem entriesIn_xreadReply (key : Bytes) (entries : List (StreamID × StreamEntryData)) :
    entriesIn key (xreadReply key entries) = entries := by
  rw [entriesIn, xreadReply_eq, Token.ofReply_flatMap]
  dsimp only
  rw [if_pos rfl, readEntries_tokens]

theorem entriesIn_of_isError (key : Bytes) {reply : Bytes} (h : isError reply = true) :
    entriesIn key reply = [] := by
  match reply, h with
  | b :: rest, h =>
    obtain rfl : b = 45 := by simpa [isError] using h
    rfl

end TrueStore
