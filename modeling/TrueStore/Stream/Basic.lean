import Mathlib
import TrueStore.Text.Numeral

/-! # Streams

A stream is an ordered map from 16-byte keys to entries, together with the largest ID
ever inserted. The keys are big-endian, so the lexicographic order of the radix tree is
the order of IDs. The tree is taken to be a map iterated in lexicographic byte order.
-/

namespace TrueStore

abbrev StreamEntryData := List (Bytes × Bytes)

structure StreamID where
  milliseconds : UInt64
  sequence : UInt64
  deriving DecidableEq, Repr

def maxU64 : UInt64 := 18446744073709551615

namespace StreamID

/-- `operator<` on IDs. -/
def lt (a b : StreamID) : Bool :=
  if a.milliseconds ≠ b.milliseconds then a.milliseconds < b.milliseconds
  else a.sequence < b.sequence

def toString (id : StreamID) : Bytes :=
  decimal id.milliseconds.toNat ++ 45 :: decimal id.sequence.toNat

def splitDash (text : Bytes) : Option (Bytes × Bytes) :=
  (text.idxOf? 45).map fun dash => (text.take dash, text.drop (dash + 1))

def parse (text : Bytes) : Option StreamID :=
  match splitDash text with
  | none => none
  | some (ms, seq) =>
    if ms = [] ∨ seq = [] ∨ 45 ∈ seq then none
    else match fromCharsU64 ms, fromCharsU64 seq with
      | some milliseconds, some sequence => some ⟨milliseconds, sequence⟩
      | _, _ => none

end StreamID

def parseRangeBound (text : Bytes) (defaultSequence : UInt64) : Option StreamID :=
  if text = [] then none
  else if 45 ∈ text then StreamID.parse text
  else (fromCharsU64 text).map fun ms => ⟨ms, defaultSequence⟩

def parseRangeStart (text : Bytes) : Option StreamID :=
  if text = [45] then some ⟨0, 0⟩ else parseRangeBound text 0

def parseRangeEnd (text : Bytes) : Option StreamID :=
  if text = [43] then some ⟨maxU64, maxU64⟩ else parseRangeBound text maxU64

def parseReadId (text : Bytes) : Option StreamID := parseRangeBound text 0

/-- The least ID greater than the given one, if there is one. -/
def advanceId (id : StreamID) : Option StreamID :=
  if id.sequence ≠ maxU64 then some { id with sequence := id.sequence + 1 }
  else if id.milliseconds = maxU64 then none
  else some ⟨id.milliseconds + 1, 0⟩

def writeU64Be (value : UInt64) : Bytes :=
  (List.range 8).map fun i => (value >>> UInt64.ofNat (8 * (7 - i))).toUInt8

def readU64Be (source : Bytes) : UInt64 :=
  source.foldl (fun value b => (value <<< 8) ||| b.toUInt64) 0

def encodeId (id : StreamID) : Bytes := writeU64Be id.milliseconds ++ writeU64Be id.sequence

/-- Every key of a tree has 16 bytes, so the length check of the source never fires. -/
def decodeId (key : Bytes) : StreamID := ⟨readU64Be (key.take 8), readU64Be (key.drop 8)⟩

structure Stream where
  tree : Std.ExtTreeMap Bytes StreamEntryData := ∅
  maxId : Option StreamID := none

inductive StreamAddError where
  | invalidID
  | zeroID
  | notGreater
  deriving DecidableEq, Repr

namespace Stream

def nextSequence (s : Stream) (milliseconds : UInt64) : Except StreamAddError StreamID :=
  match s.maxId with
  | none => .ok ⟨milliseconds, if milliseconds = 0 then 1 else 0⟩
  | some maxId =>
    if maxId.milliseconds < milliseconds then .ok ⟨milliseconds, 0⟩
    else if maxId.sequence = maxU64 then .error .notGreater
    else .ok ⟨maxId.milliseconds, maxId.sequence + 1⟩

/-- The text of an automatic ID. -/
def autoId : Bytes := [42]

/-- The ID that an insertion at wall-clock time `now` would use. -/
def resolveId (s : Stream) (now : UInt64) (idText : Bytes) : Except StreamAddError StreamID :=
  if idText = autoId then s.nextSequence now
  else match StreamID.splitDash idText with
    | some (msText, [42]) =>
      if msText = [] then .error .invalidID
      else match fromCharsU64 msText with
        | none => .error .invalidID
        | some ms =>
          match s.maxId with
          | none => s.nextSequence ms
          | some maxId => if ms < maxId.milliseconds then .error .notGreater else s.nextSequence ms
    | _ =>
      match StreamID.parse idText with
      | none => .error .invalidID
      | some id =>
        if id.milliseconds = 0 ∧ id.sequence = 0 then .error .zeroID
        else match s.maxId with
          | none => .ok id
          | some maxId => if !maxId.lt id then .error .notGreater else .ok id

/-- `Stream::insert`: the assigned ID and the new stream. The second failure is that of
`raxTryInsert` on a key that is already there. -/
def insert (s : Stream) (now : UInt64) (idText : Bytes) (data : StreamEntryData) :
    Except StreamAddError (StreamID × Stream) :=
  match s.resolveId now idText with
  | .error e => .error e
  | .ok id =>
    if s.tree.contains (encodeId id) then .error .notGreater
    else .ok (id, { tree := s.tree.insert (encodeId id) data, maxId := some id })

theorem resolveId_isOk_of_insert {s : Stream} {now : UInt64} {idText : Bytes}
    {data : StreamEntryData} {result : StreamID × Stream}
    (h : s.insert now idText data = .ok result) : (s.resolveId now idText).isOk = true := by
  unfold insert at h
  split at h
  · cases h
  · rename_i id hid
    rw [hid]
    rfl

/-- The iteration of `get_range` from its seek position on. `taken` counts the results so far. -/
def collectRange (endId : StreamID) (count : ℕ) :
    List (Bytes × StreamEntryData) → ℕ → List (Bytes × StreamEntryData)
  | [], _ => []
  | (key, data) :: rest, taken =>
    if endId.lt (decodeId key) then []
    else if count ≠ 0 ∧ count ≤ taken + 1 then [((decodeId key).toString, data)]
    else ((decodeId key).toString, data) :: collectRange endId count rest (taken + 1)

def getRange (s : Stream) (start endId : StreamID) (count : ℕ) :
    List (Bytes × StreamEntryData) :=
  if endId.lt start then []
  else
    -- `raxSeek(">=")` and `raxNext`
    collectRange endId count
      (s.tree.toList.dropWhile fun e => (compare e.1 (encodeId start)).isLT) 0

end Stream

end TrueStore
