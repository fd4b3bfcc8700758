import TrueStore.Store.Lists

/-! # Stream commands -/

namespace TrueStore

namespace Keyspace

open RespType

variable {F : Type} [Platform F]

def invalidStreamId : Bytes :=
  errorReply (ascii "ERR Invalid stream ID specified as stream command argument")

/-- The reply of `XADD` to a refused ID. -/
def streamAddError : StreamAddError → Bytes
  | .zeroID => errorReply (ascii "ERR The ID specified in XADD must be greater than 0-0")
  | .notGreater => errorReply (ascii
      "ERR The ID specified in XADD is equal or smaller than the target stream top item")
  | .invalidID => invalidStreamId

def entriesToResp (entries : List (Bytes × StreamEntryData)) : RespType :=
  nestedArray (entries.map fun e =>
    nestedArray [bulkString e.1, array (e.2.flatMap fun p => [p.1, p.2])])

def fieldPairs : List Bytes → StreamEntryData
  | field :: value :: rest => (field, value) :: fieldPairs rest
  | _ => []

def streamAt (ks : Keyspace F) (key : Bytes) : Stream := ks.streams.getD key {}

/-- A stream that was created for a refused entry is removed again. -/
def handleXadd (clock : Readings) (args : List Bytes) (ks : Keyspace F) : Bytes × Keyspace F :=
  match args with
  | _ :: key :: id :: fields =>
    if fields.length < 2 ∨ fields.length % 2 ≠ 0 then (arityError "xadd", ks)
    else
      let created := !ks.streams.contains key
      let streams := if created then ks.streams.insert key {} else ks.streams
      match (streams.getD key {}).insert (clock 0).unixMs id (fieldPairs fields) with
      | .ok (assigned, stream) =>
        ((bulkString assigned.toString).toBytes,
          { ks with streams := streams.insert key stream })
      | .error e =>
        (streamAddError e,
          { ks with streams := if created then streams.erase key else streams })
  | _ => (arityError "xadd", ks)

/-- The optional `COUNT` of `XRANGE`: a reply, or the number of entries asked for. -/
def rangeCount : List Bytes → Except Bytes ℕ
  | [option, text] =>
    if toUpper option ≠ ascii "COUNT" then .error syntaxError
    else match stoll text with
      | none => .error notInteger
      | some parsed => if parsed ≤ 0 then .error (array []).toBytes else .ok parsed.toNat
  | _ => .ok 0

def handleXrange (args : List Bytes) (ks : Keyspace F) : Bytes × Keyspace F :=
  match args with
  | _ :: key :: first :: last :: more =>
    if more.length ≠ 0 ∧ more.length ≠ 2 then (arityError "xrange", ks)
    else match parseRangeStart first, parseRangeEnd last with
      | some start, some endId =>
        match rangeCount more with
        | .error reply => (reply, ks)
        | .ok count =>
          match ks.streams[key]? with
          | none => ((array []).toBytes, ks)
          | some stream => ((entriesToResp (stream.getRange start endId count)).toBytes, ks)
      | _, _ => (invalidStreamId, ks)
  | _ => (arityError "xrange", ks)

/-- What one stream contributes to an `XREAD`. -/
def readStream (ks : Keyspace F) (count : ℕ) (key : Bytes) (id : StreamID) : Option RespType :=
  match ks.streams[key]?, advanceId id with
  | some stream, some start =>
    match stream.getRange start ⟨maxU64, maxU64⟩ count with
    | [] => none
    | entries => some (nestedArray [bulkString key, entriesToResp entries])
  | _, _ => none

def tryXread (ks : Keyspace F) (keys : List Bytes) (ids : List StreamID) (count : ℕ) :
    Option Bytes :=
  match (keys.zip ids).filterMap fun p => ks.readStream count p.1 p.2 with
  | [] => none
  | replies => some (nestedArray replies).toBytes

@[simp] theorem isError_streamAddError (e : StreamAddError) : isError (streamAddError e) = true := by
  cases e <;> rfl

theorem insert_erase_of_not_contains {V : Type} {m : Map V} {key : Bytes} (value : V)
    (h : m.contains key = false) : (m.insert key value).erase key = m := by
  apply Std.ExtTreeMap.ext_getElem?
  intro k
  rw [Std.ExtTreeMap.getElem?_erase, Std.ExtTreeMap.getElem?_insert]
  by_cases hk : key = k
  · subst hk
    simp [Std.ExtTreeMap.getElem?_eq_none_of_contains_eq_false h]
  · simp [hk]

theorem insert_insert_self {V : Type} (m : Map V) (key : Bytes) (v w : V) :
    (m.insert key v).insert key w = m.insert key w := by
  apply Std.ExtTreeMap.ext_getElem?
  intro k
  simp only [Std.ExtTreeMap.getElem?_insert]
  split <;> rfl

/-- `XADD` without the temporary stream of the source. -/
theorem handleXadd_eq (clock : Readings) (c key id : Bytes) {fields : List Bytes}
    (hf : ¬(fields.length < 2 ∨ fields.length % 2 ≠ 0)) (ks : Keyspace F) :
    handleXadd clock (c :: key :: id :: fields) ks =
      match (ks.streamAt key).insert (clock 0).unixMs id (fieldPairs fields) with
      | .ok (assigned, stream) =>
        ((bulkString assigned.toString).toBytes, { ks with streams := ks.streams.insert key stream })
      | .error e => (streamAddError e, ks) := by
  simp only [handleXadd, if_neg hf, streamAt]
  cases hc : ks.streams.contains key with
  | true =>
    simp only [Bool.not_true, Bool.false_eq_true, if_false]
  | false =>
    have hnone : ks.streams.getD key {} = ({} : Stream) := by
      simp [Std.ExtTreeMap.getD_eq_getD_getElem?,
        Std.ExtTreeMap.getElem?_eq_none_of_contains_eq_false hc]
    simp only [Bool.not_false, if_true, Std.ExtTreeMap.getD_insert_self, hnone, insert_insert_self,
      insert_erase_of_not_contains _ hc]

theorem handleXadd_cases (clock : Readings) (args : List Bytes) (ks : Keyspace F) :
    (isError (handleXadd clock args ks).1 = true ∧ (handleXadd clock args ks).2 = ks) ∨
    (∃ c key id fields assigned stream, args = c :: key :: id :: fields ∧
      ¬(fields.length < 2 ∨ fields.length % 2 ≠ 0) ∧
      (ks.streamAt key).insert (clock 0).unixMs id (fieldPairs fields) = .ok (assigned, stream) ∧
      handleXadd clock args ks = ((bulkString assigned.toString).toBytes,
        { ks with streams := ks.streams.insert key stream })) := by
  match args with
  | [] | [_] | [_, _] => exact .inl ⟨rfl, rfl⟩
  | c :: key :: id :: fields =>
    by_cases hf : fields.length < 2 ∨ fields.length % 2 ≠ 0
    · rw [handleXadd, if_pos hf]
      exact .inl ⟨rfl, rfl⟩
    · rw [handleXadd_eq clock c key id hf]
      split
      · rename_i assigned stream h
        exact .inr ⟨c, key, id, fields, assigned, stream, rfl, hf, h, rfl⟩
      · exact .inl ⟨by simp, rfl⟩

end Keyspace

end TrueStore
