import TrueStore.Command.Calls

/-! # Lists and streams along the calls

`SET` and `BITOP` remove whatever their destination held. Besides them only the pushes and `LPOP`
change a list, and only `XADD` changes a stream.
-/

namespace TrueStore

open RespType

variable {F : Type} [Platform F]

namespace Keyspace

@[simp] theorem streamAt_evict (ks : Keyspace F) (clock : Clock) (key k : Bytes) :
    (ks.evict clock key).streamAt k = ks.streamAt k := by
  simp [streamAt]

structure Spares (key : Bytes) (ks ks' : Keyspace F) : Prop where
  lists : ks'.dynamicVector[key]? = ks.dynamicVector[key]?
  streams : ks'.streams[key]? = ks.streams[key]?

namespace Spares

variable {key : Bytes} {ks ks₁ ks₂ : Keyspace F}

theorem refl (ks : Keyspace F) : Spares key ks ks := ⟨rfl, rfl⟩

theorem trans (h : Spares key ks ks₁) (h' : Spares key ks₁ ks₂) : Spares key ks ks₂ :=
  ⟨h'.lists.trans h.lists, h'.streams.trans h.streams⟩

theorem evict (key : Bytes) (ks : Keyspace F) (clock : Clock) (k : Bytes) :
    Spares key ks (ks.evict clock k) :=
  ⟨by rw [evict_dynamicVector], by rw [evict_streams]⟩

theorem of_evicts {clock : Readings} (h : Evicts clock ks ks₁) : Spares key ks ks₁ :=
  h.preserves (fun ks' _ k h' => h'.trans (.evict key ks' _ k)) (refl ks)

theorem eraseOthers {k : Bytes} (hk : k ≠ key) (ks : Keyspace F) :
    Spares key ks (ks.eraseOthers k) := by
  constructor <;> simp [Keyspace.eraseOthers, Std.ExtTreeMap.getElem?_erase, hk]

end Spares

end Keyspace

namespace DataCommand

open Keyspace

/-- The key at which a command stores a string after removing everything else from it. -/
def destination (command : DataCommand) (args : List Bytes) : Option Bytes :=
  match command with
  | .set => args[1]?
  | .bitop => args[2]?
  | _ => none

/-- A command that stores no string at the key leaves the list and the stream there to the
commands that are about lists and streams. -/
theorem spares_handle (command : DataCommand) (clock : Readings) (args : List Bytes)
    (ks : Keyspace F) (key : Bytes) :
    (command.destination args = some key ∧ isError (command.handle clock args ks).1 = false) ∨
    ((command.handle clock args ks).2.dynamicVector[key]? = ks.dynamicVector[key]? ∨
      command ∈ [.rpush, .lpush, .lpop]) ∧
    ((command.handle clock args ks).2.streams[key]? = ks.streams[key]? ∨ command = .xadd) := by
  have hspares : ∀ ks' : Keyspace F, Spares key ks ks' →
      (command.handle clock args ks).2 = ks' →
      ((command.handle clock args ks).2.dynamicVector[key]? = ks.dynamicVector[key]? ∨
        command ∈ [.rpush, .lpush, .lpop]) ∧
      ((command.handle clock args ks).2.streams[key]? = ks.streams[key]? ∨ command = .xadd) := by
    rintro _ h rfl
    exact ⟨.inl h.lists, .inl h.streams⟩
  by_cases hw : command.isWrite = true
  · cases command with
    | set =>
      rcases handleSet_cases clock args ks with ⟨-, h⟩ | ⟨c, k, value, rfl, h⟩ |
        ⟨c, k, value, _, _, rfl, t, h⟩
      · exact .inr (hspares _ (.refl ks) h)
      · by_cases hk : k = key
        · exact .inl ⟨by simp [destination, hk], by simp [handle, h]⟩
        · exact .inr (hspares (ks.assignForever k value)
            ⟨(Spares.eraseOthers hk ks).lists, (Spares.eraseOthers hk ks).streams⟩
            (by simp only [handle, h]))
      · by_cases hk : k = key
        · exact .inl ⟨by simp [destination, hk], by simp [handle, h]⟩
        · exact .inr (hspares (ks.assignUntil k value t)
            ⟨(Spares.eraseOthers hk ks).lists, (Spares.eraseOthers hk ks).streams⟩
            (by simp only [handle, h]))
    | bitop =>
      rcases handleBitop_cases clock args ks with ⟨-, h⟩ |
        ⟨_, _, dest, src, srcs, op, vs, rfl, -, -, -, h⟩
      · exact .inr (hspares _ (.of_evicts h) rfl)
      · have hsrc : Spares key ks (bitopSources clock (src :: srcs) ks).2 :=
          .of_evicts (evicts_bitopSources (src :: srcs) clock ks)
        by_cases hk : dest = key
        · exact .inl ⟨by simp [destination, hk], by simp [handle, h]⟩
        · have herase := hsrc.trans (Spares.eraseOthers hk _)
          exact .inr (hspares ((bitopSources clock (src :: srcs) ks).2.storeBits dest
            (op.apply vs)) ⟨herase.lists, herase.streams⟩ (by simp only [handle, h]))
    | incr =>
      rcases handleIncr_cases args ks with ⟨-, h⟩ | ⟨_, k, n, -, -, h⟩
      · exact .inr (hspares _ (.refl ks) h)
      · exact .inr (hspares ({ ks with storage := ks.storage.insert k (decimalInt n) })
          ⟨rfl, rfl⟩ (by simp only [handle, h]))
    | setbit =>
      rcases handleSetbit_cases clock args ks with ⟨-, h⟩ | ⟨_, k, _, bit, offset, -, -, -, -, h⟩
      · exact .inr (hspares _ (.of_evicts h) rfl)
      · refine .inr (hspares ((handleSetbit clock args ks).2) ?_ rfl)
        rw [h]
        exact ⟨(Spares.evict key ks (clock 0) k).lists, (Spares.evict key ks (clock 0) k).streams⟩
    | zadd =>
      rcases handleZadd_cases clock args ks with ⟨-, h⟩ | ⟨_, k, _, entries, -, -, -, -, h⟩
      · exact .inr (hspares _ (.of_evicts h) rfl)
      · refine .inr (hspares ((handleZadd clock args ks).2) ?_ rfl)
        rw [h]
        exact ⟨(Spares.evict key ks (clock 0) k).lists, (Spares.evict key ks (clock 0) k).streams⟩
    | zrem =>
      rcases handleZrem_cases clock args ks with ⟨-, h⟩ | ⟨_, k, _, _, -, -, -, h⟩ |
        ⟨_, k, m, ms, set, -, -, hs, h⟩
      · exact .inr (hspares _ (.of_evicts h) rfl)
      · exact .inr (hspares _ (.evict key ks (clock 0) k) (by simp only [handle, h]))
      · refine .inr (hspares ((handleZrem clock args ks).2) ?_ rfl)
        rw [h]
        exact ⟨(Spares.evict key ks (clock 0) k).lists, (Spares.evict key ks (clock 0) k).streams⟩
    | geoadd =>
      rcases handleGeoadd_cases clock args ks with ⟨-, h⟩ | ⟨_, k, rest, entries, -, -, -, -, -, h⟩
      · exact .inr (hspares _ (.of_evicts h) rfl)
      · refine .inr (hspares ((handleGeoadd clock args ks).2) ?_ rfl)
        rw [h, addGeo]
        have hevict := Spares.evict key ks (clock 0) k
        split
        · exact hevict
        · exact ⟨hevict.lists, hevict.streams⟩
    | xadd =>
      rcases handleXadd_cases clock args ks with ⟨-, h⟩ | ⟨_, k, _, _, id, stream, -, -, hi, h⟩
      · exact .inr (hspares _ (.refl ks) h)
      · exact .inr ⟨.inl (by simp only [handle, h]), .inr rfl⟩
    | rpush =>
      rcases handleRpush_cases args ks with ⟨-, h⟩ | ⟨_, k, _, _, -, h⟩
      · exact .inr (hspares _ (.refl ks) h)
      · exact .inr ⟨.inr (by simp), .inl (by simp only [handle, h, pushList])⟩
    | lpush =>
      rcases handleLpush_cases args ks with ⟨-, h⟩ | ⟨_, k, _, _, -, h⟩
      · exact .inr (hspares _ (.refl ks) h)
      · exact .inr ⟨.inr (by simp), .inl (by simp only [handle, h, pushList])⟩
    | lpop =>
      rcases handleLpop_cases args ks with h | ⟨_, k, _, n, -, -, -, h⟩
      · exact .inr (hspares _ (.refl ks) h)
      · exact .inr ⟨.inr (by simp), .inl (by simp only [handle, h, storeList])⟩
    | _ => cases hw
  · have hevicts := (outcome_handle command clock args ks).evicts_of_not_isWrite (by simpa using hw)
    exact .inr (hspares _ (.of_evicts hevicts) rfl)

theorem spares_dispatch (command : DataCommand) (clock : Readings) (args : List Bytes)
    (ks : Keyspace F) (key : Bytes) :
    (command.destination args = some key ∧ isError (command.dispatch clock args ks).1 = false) ∨
    ((command.dispatch clock args ks).2.dynamicVector[key]? = ks.dynamicVector[key]? ∨
      command ∈ [.rpush, .lpush, .lpop]) ∧
    ((command.dispatch clock args ks).2.streams[key]? = ks.streams[key]? ∨ command = .xadd) := by
  rcases command.dispatch_cases clock args ks with ⟨-, h⟩ | ⟨_, k, _, -, -, ⟨-, h⟩ | ⟨-, h⟩⟩ <;>
    rw [h]
  · exact command.spares_handle clock args ks key
  · have hevict := Spares.evict key ks (clock 0) k
    exact .inr ⟨.inl hevict.lists, .inl hevict.streams⟩
  · simpa using command.spares_handle clock.later args (ks.evict (clock 0) k) key

end DataCommand

def Call.overwrites (key : Bytes) : Call F → Bool
  | .run clock data args =>
    (dataCommand args).any (·.destination args = some key) && !isError (execute clock args data).1
  | .pop _ _ => false

end TrueStore
