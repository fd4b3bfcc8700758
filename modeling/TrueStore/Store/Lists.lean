import TrueStore.Store.Strings

/-! # List commands

A list that becomes empty is deleted, so an absent key and an empty list answer alike.
-/

namespace TrueStore

namespace Keyspace

open RespType

variable {F : Type} [Platform F]

def notPositive : Bytes := errorReply (ascii "ERR value is out of range, must be positive")

def listAt (ks : Keyspace F) (key : Bytes) : List Bytes := ks.dynamicVector.getD key []

/-- `RPUSH` and `LPUSH` after the arity check; `list` is the list with the values added. -/
def pushList (ks : Keyspace F) (key : Bytes) (list : List Bytes) : Bytes × Keyspace F :=
  ((integer list.length).toBytes, { ks with dynamicVector := ks.dynamicVector.insert key list })

def handleRpush (args : List Bytes) (ks : Keyspace F) : Bytes × Keyspace F :=
  match args with
  | _ :: key :: value :: values => ks.pushList key (ks.listAt key ++ value :: values)
  | _ => (arityError "rpush", ks)

/-- Each value goes to the front, so the last one ends up first. -/
def handleLpush (args : List Bytes) (ks : Keyspace F) : Bytes × Keyspace F :=
  match args with
  | _ :: key :: value :: values => ks.pushList key ((value :: values).reverse ++ ks.listAt key)
  | _ => (arityError "lpush", ks)

def handleLlen (args : List Bytes) (ks : Keyspace F) : Bytes × Keyspace F :=
  match args with
  | [_, key] => ((integer (ks.listAt key).length).toBytes, ks)
  | _ => (arityError "llen", ks)

def handleLpop (args : List Bytes) (ks : Keyspace F) : Bytes × Keyspace F :=
  match args with
  | [_, key] =>
    match ks.listAt key with
    | [] => (nullBulkString.toBytes, ks)
    | first :: rest => ((bulkString first).toBytes, ks.storeList key rest)
  | [_, key, text] =>
    match stoll text with
    | none => (notInteger, ks)
    | some count =>
      if count < 0 then (notPositive, ks)
      else if ks.listAt key = [] then (nullArray.toBytes, ks)
      else if count = 0 then ((array []).toBytes, ks)
      else
        let taken := min count.toNat (ks.listAt key).length
        ((array ((ks.listAt key).take taken)).toBytes,
          ks.storeList key ((ks.listAt key).drop taken))
  | _ => (arityError "lpop", ks)

/-- The elements of a range with indexes that may count from the end. -/
def listRange (list : List Bytes) (start stop : ℤ) : List Bytes :=
  let size : ℤ := list.length
  let start := max (if start < 0 then start + size else start) 0
  let stop := max (if stop < 0 then stop + size else stop) 0
  if size ≤ start ∨ stop < start then []
  else
    let stop := if size ≤ stop then size - 1 else stop
    (list.drop start.toNat).take (stop - start + 1).toNat

def handleLrange (args : List Bytes) (ks : Keyspace F) : Bytes × Keyspace F :=
  match args with
  | [_, key, first, last] =>
    match stoll first, stoll last with
    | some start, some stop => ((array (listRange (ks.listAt key) start stop)).toBytes, ks)
    | _, _ => (notInteger, ks)
  | _ => (arityError "lrange", ks)

/-- The pop of `Store::try_blpop`: the first key that holds an element, and that element. -/
def popFirst (ks : Keyspace F) : List Bytes → Option (Bytes × Bytes × Keyspace F)
  | [] => none
  | key :: keys =>
    match ks.listAt key with
    | [] => ks.popFirst keys
    | value :: rest => some (key, value, ks.storeList key rest)

@[simp] theorem isError_notPositive : isError notPositive = true := rfl

theorem handleRpush_cases (args : List Bytes) (ks : Keyspace F) :
    (isError (handleRpush args ks).1 = true ∧ (handleRpush args ks).2 = ks) ∨
    (∃ c key v vs, args = c :: key :: v :: vs ∧
      handleRpush args ks = ks.pushList key (ks.listAt key ++ v :: vs)) := by
  unfold handleRpush
  split
  · exact .inr ⟨_, _, _, _, rfl, rfl⟩
  · exact .inl ⟨rfl, rfl⟩

theorem handleLpush_cases (args : List Bytes) (ks : Keyspace F) :
    (isError (handleLpush args ks).1 = true ∧ (handleLpush args ks).2 = ks) ∨
    (∃ c key v vs, args = c :: key :: v :: vs ∧
      handleLpush args ks = ks.pushList key ((v :: vs).reverse ++ ks.listAt key)) := by
  unfold handleLpush
  split
  · exact .inr ⟨_, _, _, _, rfl, rfl⟩
  · exact .inl ⟨rfl, rfl⟩

theorem handleLpop_cases (args : List Bytes) (ks : Keyspace F) :
    (handleLpop args ks).2 = ks ∨
    (∃ c key more n, args = c :: key :: more ∧ ks.listAt key ≠ [] ∧
      isError (handleLpop args ks).1 = false ∧
      (handleLpop args ks).2 = ks.storeList key ((ks.listAt key).drop n)) := by
  unfold handleLpop
  split
  · rename_i c key
    split
    · exact .inl rfl
    · rename_i first rest h
      exact .inr ⟨c, key, [], 1, rfl, by simp [h], by simp, by simp [h]⟩
  · rename_i c key text
    split
    · exact .inl rfl
    · split
      · exact .inl rfl
      · split
        · exact .inl rfl
        · rename_i hne
          split
          · exact .inl rfl
          · exact .inr ⟨c, key, [text], _, rfl, hne, by simp, rfl⟩
  · exact .inl rfl

/-- A pop of the blocking path has the effect of an `LPOP` of the key that it chose. -/
theorem popFirst_eq_some {ks ks' : Keyspace F} {keys : List Bytes} {key value : Bytes}
    (h : ks.popFirst keys = some (key, value, ks')) :
    key ∈ keys ∧ ks.listAt key = value :: (ks.listAt key).tail ∧
      ks' = ks.storeList key (ks.listAt key).tail := by
  induction keys with
  | nil => cases h
  | cons k keys ih =>
    unfold popFirst at h
    split at h
    · obtain ⟨hmem, hrest⟩ := ih h
      exact ⟨List.mem_cons_of_mem _ hmem, hrest⟩
    · rename_i v rest hk
      cases h
      exact ⟨List.mem_cons_self, by simp [hk], by simp [hk]⟩

theorem handleLpop_of_listAt {ks : Keyspace F} {key value : Bytes} {rest : List Bytes}
    (h : ks.listAt key = value :: rest) (c : Bytes) :
    handleLpop [c, key] ks = ((bulkString value).toBytes, ks.storeList key rest) := by
  simp [handleLpop, h]

end Keyspace

end TrueStore
