import TrueStore.Store.Keyspace

/-! # String commands -/

namespace TrueStore

namespace Keyspace

open RespType

variable {F : Type} [Platform F]

def invalidExpire : Bytes := errorReply (ascii "ERR invalid expire time in 'set' command")

def notInteger : Bytes := errorReply (ascii "ERR value is not an integer or out of range")

def syntaxError : Bytes := errorReply (ascii "ERR syntax error")

/-- The deadline is computed in 64-bit nanoseconds. -/
def deadline (clock : Clock) (duration unit : ℤ) : ℤ :=
  wrap64 (clock.steady + wrap64 (duration * unit))

/-- `SET` with an expiry. -/
def assignUntil (ks : Keyspace F) (key value : Bytes) (t : ℤ) : Keyspace F :=
  { ks with expirations := ks.expirations.insert key t }.assign key value

/-- `SET` without one. -/
def assignForever (ks : Keyspace F) (key value : Bytes) : Keyspace F :=
  { ks.assign key value with expirations := ks.expirations.erase key }

def handleSet (clock : Readings) (args : List Bytes) (ks : Keyspace F) : Bytes × Keyspace F :=
  match args with
  | [_, key, value] => (ok, ks.assignForever key value)
  | [_, key, value, option, text] =>
    match stoll text with
    | none => (invalidExpire, ks)
    | some duration =>
      if duration ≤ 0 then (invalidExpire, ks)
      else if option = ascii "EX" then
        (ok, ks.assignUntil key value (deadline (clock 0) duration 1000000000))
      else if option = ascii "PX" then
        (ok, ks.assignUntil key value (deadline (clock 0) duration 1000000))
      else (syntaxError, ks)
  | _ => (arityError "set", ks)

def handleGet (clock : Readings) (args : List Bytes) (ks : Keyspace F) : Bytes × Keyspace F :=
  match args with
  | [_, key] =>
    let r := ks.isExpired (clock 0) key
    if r.1 then (nullBulkString.toBytes, r.2)
    else match r.2.storage[key]? with
      | none => (nullBulkString.toBytes, r.2)
      | some value => ((bulkString value).toBytes, r.2)
  | _ => (arityError "get", ks)

def handleStrlen (clock : Readings) (args : List Bytes) (ks : Keyspace F) : Bytes × Keyspace F :=
  match args with
  | [_, key] =>
    checked (ks.wrongStringType (clock 0) key) fun ks =>
      ((integer (ks.storage.getD key []).length).toBytes, ks)
  | _ => (arityError "strlen", ks)

/-- The arity message names another command in the source. -/
def handleIncr (args : List Bytes) (ks : Keyspace F) : Bytes × Keyspace F :=
  match args with
  | [_, key] =>
    match ks.storage[key]? with
    | none => ((integer 1).toBytes, { ks with storage := ks.storage.insert key (ascii "1") })
    | some value =>
      match stoi value with
      | none => (notInteger, ks)
      | some n =>
        ((integer (wrap32 (n + 1))).toBytes,
          { ks with storage := ks.storage.insert key (decimalInt (wrap32 (n + 1))) })
  | _ => (arityError "lrange", ks)

/-- The number that `INCR` stores at a key: one more than the one there. -/
def incremented (ks : Keyspace F) (key : Bytes) : Option ℤ :=
  match ks.storage[key]? with
  | none => some 1
  | some value => (stoi value).map fun n => wrap32 (n + 1)

@[simp] theorem isError_invalidExpire : isError invalidExpire = true := rfl

@[simp] theorem isError_notInteger : isError notInteger = true := rfl

@[simp] theorem isError_syntaxError : isError syntaxError = true := rfl

theorem handleSet_cases (clock : Readings) (args : List Bytes) (ks : Keyspace F) :
    (isError (handleSet clock args ks).1 = true ∧ (handleSet clock args ks).2 = ks) ∨
    (∃ c key value, args = [c, key, value] ∧
      handleSet clock args ks = (ok, ks.assignForever key value)) ∨
    (∃ c key value option text, args = [c, key, value, option, text] ∧
      ∃ t, handleSet clock args ks = (ok, ks.assignUntil key value t)) := by
  unfold handleSet
  split
  · exact .inr (.inl ⟨_, _, _, rfl, rfl⟩)
  · split
    · exact .inl ⟨rfl, rfl⟩
    · split
      · exact .inl ⟨rfl, rfl⟩
      · split
        · exact .inr (.inr ⟨_, _, _, _, _, rfl, _, rfl⟩)
        · split
          · exact .inr (.inr ⟨_, _, _, _, _, rfl, _, rfl⟩)
          · exact .inl ⟨rfl, rfl⟩
  · exact .inl ⟨rfl, rfl⟩

theorem handleIncr_cases (args : List Bytes) (ks : Keyspace F) :
    (isError (handleIncr args ks).1 = true ∧ (handleIncr args ks).2 = ks) ∨
    (∃ c key n, args = [c, key] ∧ ks.incremented key = some n ∧
      handleIncr args ks =
        ((integer n).toBytes, { ks with storage := ks.storage.insert key (decimalInt n) })) := by
  unfold handleIncr
  split
  · rename_i c key
    split
    · rename_i h
      exact .inr ⟨c, key, 1, rfl, by simp [incremented, h], rfl⟩
    · rename_i value h
      split
      · exact .inl ⟨rfl, rfl⟩
      · rename_i n hn
        exact .inr ⟨c, key, wrap32 (n + 1), rfl, by simp [incremented, h, hn], rfl⟩
  · exact .inl ⟨rfl, rfl⟩

theorem evicts_handleGet (clock : Readings) (args : List Bytes) (ks : Keyspace F) :
    Evicts clock ks (handleGet clock args ks).2 := by
  unfold handleGet
  split
  · simp only
    split
    · exact .single clock ks 0 _
    · split <;> exact .single clock ks 0 _
  · exact .refl _

theorem evicts_handleStrlen (clock : Readings) (args : List Bytes) (ks : Keyspace F) :
    Evicts clock ks (handleStrlen clock args ks).2 := by
  unfold handleStrlen
  split
  · exact evicts_checked (wrongStringType_snd ..) _
  · exact .refl _

end Keyspace

end TrueStore
