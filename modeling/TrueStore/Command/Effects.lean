import TrueStore.Command.Dispatch

/-! # What a command can do

A data command only lets keys expire, or succeeds and then makes one of a few changes. The
theorems about whole runs rest on this and never look into a handler again.
-/

namespace TrueStore

open RespType

variable {F : Type} [Platform F]

inductive SortedSet.Edits : SortedSet F → SortedSet F → Prop where
  | refl (set) : Edits set set
  | add {set set'} (score : F) (member : Bytes) : Edits (set.add score member).2 set' →
      Edits set set'
  | remove {set set'} (score : F) (member : Bytes) : set.scores[member]? = some score →
      Edits { scores := set.scores.erase member, ordered := set.ordered.erase (score, member) } set' →
      Edits set set'

inductive Mutation : Keyspace F → Keyspace F → Prop where
  | assignForever (ks key value) : Mutation ks (Keyspace.assignForever ks key value)
  | assignUntil (ks key value t) : Mutation ks (Keyspace.assignUntil ks key value t)
  | string (ks : Keyspace F) (key value) :
      Mutation ks { ks with storage := ks.storage.insert key value }
  | bits (ks key result) : Mutation ks (Keyspace.storeBits ks key result)
  | push (ks : Keyspace F) (key list) :
      Mutation ks { ks with dynamicVector := ks.dynamicVector.insert key list }
  | pop (ks key list) : Mutation ks (Keyspace.storeList ks key list)
  | stream (ks : Keyspace F) (key stream) {now id data assigned} :
      (ks.streamAt key).insert now id data = .ok (assigned, stream) →
      Mutation ks { ks with streams := ks.streams.insert key stream }
  | zset (ks : Keyspace F) (key set) : (ks.setAt key).Edits set →
      Mutation ks { ks with sortedSets := ks.sortedSets.insert key set }
  | zrem (ks : Keyspace F) (key set) : (ks.setAt key).Edits set → Mutation ks (ks.storeSet key set)

namespace SortedSet

theorem edits_addAll (entries : List (F × Bytes)) (set : SortedSet F) :
    set.Edits (addAll entries set).2 := by
  induction entries generalizing set with
  | nil => exact .refl _
  | cons e entries ih => exact .add e.1 e.2 (ih _)

theorem edits_removeAll (members : List Bytes) (set : SortedSet F) :
    set.Edits (removeAll members set).2 := by
  induction members generalizing set with
  | nil => exact .refl _
  | cons member members ih =>
    unfold removeAll
    split
    · exact ih _
    · rename_i score h
      exact .remove score member h (ih _)

theorem edits_addPoints (o : Geo.AddOptions) (entries : List (F × Bytes)) (set : SortedSet F) :
    set.Edits (Geo.addPoints o entries set).2.2 := by
  induction entries generalizing set with
  | nil => exact .refl _
  | cons e entries ih =>
    unfold Geo.addPoints
    split
    · exact ih _
    · exact .add e.1 e.2 (ih _)

end SortedSet

/-- The outcome of a data command: expired keys disappear, and a write that succeeds then makes
its change. -/
structure Outcome (command : DataCommand) (clock : Readings) (ks : Keyspace F)
    (r : Bytes × Keyspace F) : Prop where
  evicts_or_mutation : Keyspace.Evicts clock ks r.2 ∨
    command.isWrite = true ∧ isError r.1 = false ∧
      ∃ ks₁, Keyspace.Evicts clock ks ks₁ ∧ Mutation ks₁ r.2

namespace Outcome

variable {command : DataCommand} {clock : Readings} {ks : Keyspace F} {r : Bytes × Keyspace F}

theorem of_evicts (h : Keyspace.Evicts clock ks r.2) : Outcome command clock ks r := ⟨.inl h⟩

theorem of_eq (h : r.2 = ks) : Outcome command clock ks r := .of_evicts (by rw [h]; exact .refl ks)

theorem of_mutation {ks₁ : Keyspace F} (hw : command.isWrite = true) (hr : isError r.1 = false)
    (he : Keyspace.Evicts clock ks ks₁) (hm : Mutation ks₁ r.2) : Outcome command clock ks r :=
  ⟨.inr ⟨hw, hr, ks₁, he, hm⟩⟩

theorem of_later {i : ℕ} {key : Bytes}
    (h : Outcome command clock.later (ks.evict (clock i) key) r) : Outcome command clock ks r := by
  rcases h.evicts_or_mutation with h | ⟨hw, hr, ks₁, he, hm⟩
  · exact .of_evicts (.step i key h.of_later)
  · exact .of_mutation hw hr (.step i key he.of_later) hm

theorem evicts_of_isError (h : Outcome command clock ks r) (hr : isError r.1 = true) :
    Keyspace.Evicts clock ks r.2 := by
  rcases h.evicts_or_mutation with h | ⟨-, hr', -⟩
  · exact h
  · simp [hr] at hr'

theorem evicts_of_not_isWrite (h : Outcome command clock ks r) (hw : command.isWrite = false) :
    Keyspace.Evicts clock ks r.2 := by
  rcases h.evicts_or_mutation with h | ⟨hw', -⟩
  · exact h
  · simp [hw] at hw'

end Outcome

namespace DataCommand

open Keyspace

theorem outcome_handle (command : DataCommand) (clock : Readings) (args : List Bytes)
    (ks : Keyspace F) : Outcome command clock ks (command.handle clock args ks) := by
  cases command with
  | zrank => exact .of_evicts (evicts_handleZrank clock args ks)
  | zrange => exact .of_evicts (evicts_handleZrange clock args ks)
  | zcard => exact .of_evicts (evicts_handleZcard clock args ks)
  | zscore => exact .of_evicts (evicts_handleZscore clock args ks)
  | geopos => exact .of_evicts (evicts_handleGeopos clock args ks)
  | geodist => exact .of_evicts (evicts_handleGeodist clock args ks)
  | geosearch => exact .of_evicts (evicts_handleGeosearch clock args ks)
  | get => exact .of_evicts (evicts_handleGet clock args ks)
  | strlen => exact .of_evicts (evicts_handleStrlen clock args ks)
  | getbit => exact .of_evicts (evicts_handleGetbit clock args ks)
  | bitcount => exact .of_evicts (evicts_handleBitcount clock args ks)
  | type => exact .of_evicts (evicts_handleType clock args ks)
  | keys => exact .of_evicts (evicts_handleKeys clock args ks)
  | lrange =>
    have h : (handleLrange args ks).2 = ks := by unfold handleLrange; repeat' split <;> try rfl
    exact .of_eq h
  | llen =>
    have h : (handleLlen args ks).2 = ks := by unfold handleLlen; split <;> rfl
    exact .of_eq h
  | xrange =>
    have h : (handleXrange args ks).2 = ks := by unfold handleXrange; repeat' split <;> try rfl
    exact .of_eq h
  | zadd =>
    rcases handleZadd_cases clock args ks with ⟨-, h⟩ | ⟨_, key, _, entries, -, -, -, -, h⟩
    · exact .of_evicts h
    · refine .of_mutation rfl ?_ (.single clock ks 0 key) ?_ <;> simp only [handle, h]
      · simp
      · exact .zset _ _ _ (SortedSet.edits_addAll entries _)
  | zrem =>
    rcases handleZrem_cases clock args ks with ⟨-, h⟩ | ⟨_, key, _, _, -, -, -, h⟩ |
      ⟨_, key, m, ms, set, -, -, hs, h⟩
    · exact .of_evicts h
    · exact .of_evicts (by simp only [handle, h]; exact .single clock ks 0 key)
    · refine .of_mutation rfl ?_ (.single clock ks 0 key) ?_ <;> simp only [handle, h]
      · simp
      · refine .zrem _ _ _ ?_
        have hset : (ks.evict (clock 0) key).setAt key = set := by
          simp [setAt, Std.ExtTreeMap.getD_eq_getD_getElem?, hs]
        rw [hset]
        exact SortedSet.edits_removeAll _ _
  | geoadd =>
    rcases handleGeoadd_cases clock args ks with ⟨-, h⟩ | ⟨_, key, rest, entries, -, -, -, -, -, h⟩
    · exact .of_evicts h
    · simp only [handle, h, addGeo]
      split
      · exact .of_evicts (.single clock ks 0 key)
      · exact .of_mutation rfl (by simp) (.single clock ks 0 key)
          (.zset _ _ _ (SortedSet.edits_addPoints _ entries _))
  | set =>
    rcases handleSet_cases clock args ks with ⟨-, h⟩ | ⟨_, key, value, -, h⟩ |
      ⟨_, key, value, _, _, -, t, h⟩
    · exact .of_eq h
    · exact .of_mutation rfl (by simp [handle, h]) (.refl ks)
        (by simp only [handle, h]; exact .assignForever _ _ _)
    · exact .of_mutation rfl (by simp [handle, h]) (.refl ks)
        (by simp only [handle, h]; exact .assignUntil _ _ _ _)
  | incr =>
    rcases handleIncr_cases args ks with ⟨-, h⟩ | ⟨_, key, n, -, -, h⟩
    · exact .of_eq h
    · exact .of_mutation rfl (by simp [handle, h]) (.refl ks)
        (by simp only [handle, h]; exact .string _ _ _)
  | setbit =>
    rcases handleSetbit_cases clock args ks with ⟨-, h⟩ | ⟨_, key, _, _, offset, -, -, -, -, h⟩
    · exact .of_evicts h
    · refine .of_mutation rfl ?_ (.single clock ks 0 key) ?_ <;> simp only [handle, h]
      · simp
      · exact .string _ _ _
  | bitop =>
    rcases handleBitop_cases clock args ks with ⟨-, h⟩ | ⟨_, _, dest, src, srcs, op, vs, -, -, -, -, h⟩
    · exact .of_evicts h
    · refine .of_mutation rfl ?_ (evicts_bitopSources (src :: srcs) clock ks) ?_ <;>
        simp only [handle, h]
      · simp
      · exact .bits _ _ _
  | rpush =>
    rcases handleRpush_cases args ks with ⟨-, h⟩ | ⟨_, key, _, _, -, h⟩
    · exact .of_eq h
    · exact .of_mutation rfl (by simp [handle, h, pushList]) (.refl ks)
        (by simp only [handle, h, pushList]; exact .push _ _ _)
  | lpush =>
    rcases handleLpush_cases args ks with ⟨-, h⟩ | ⟨_, key, _, _, -, h⟩
    · exact .of_eq h
    · exact .of_mutation rfl (by simp [handle, h, pushList]) (.refl ks)
        (by simp only [handle, h, pushList]; exact .push _ _ _)
  | lpop =>
    rcases handleLpop_cases args ks with h | ⟨_, key, _, n, -, -, hr, h⟩
    · exact .of_eq h
    · exact .of_mutation rfl (by simpa [handle] using hr) (.refl ks)
        (by simp only [handle, h]; exact .pop _ _ _)
  | xadd =>
    rcases handleXadd_cases clock args ks with ⟨-, h⟩ | ⟨_, key, _, _, id, stream, -, -, hi, h⟩
    · exact .of_eq h
    · exact .of_mutation rfl (by simp [handle, h]) (.refl ks)
        (by simp only [handle, h]; exact .stream _ _ _ hi)

theorem dispatch_cases (command : DataCommand) (clock : Readings) (args : List Bytes)
    (ks : Keyspace F) :
    ((command.incompatibleWithSortedSet = false ∨ args.length < 2) ∧
      command.dispatch clock args ks = command.handle clock args ks) ∨
    ∃ c key more, args = c :: key :: more ∧ command.incompatibleWithSortedSet = true ∧
      ((ks.keyType (clock 0) key).1 = .zset ∧
        command.dispatch clock args ks = (wrongType, ks.evict (clock 0) key) ∨
      (ks.keyType (clock 0) key).1 ≠ .zset ∧
        command.dispatch clock args ks =
          command.handle clock.later args (ks.evict (clock 0) key)) := by
  unfold dispatch
  split
  · rename_i c key more hi
    refine .inr ⟨c, key, more, rfl, hi, ?_⟩
    rw [← keyType_snd]
    by_cases hz : (ks.keyType (clock 0) key).1 = .zset
    · exact .inl ⟨hz, if_pos hz⟩
    · exact .inr ⟨hz, if_neg hz⟩
  · rename_i args _ _ hne
    refine .inl ⟨?_, rfl⟩
    by_contra hc
    obtain ⟨hi, hl⟩ := not_or.1 hc
    rcases args with _ | ⟨c, _ | ⟨key, more⟩⟩
    · exact hl (by simp)
    · exact hl (by simp)
    · exact hne c key more (by simpa using hi) rfl

theorem dispatch_of_compatible {command : DataCommand}
    (h : command.incompatibleWithSortedSet = false) (clock : Readings) (args : List Bytes)
    (ks : Keyspace F) : command.dispatch clock args ks = command.handle clock args ks := by
  rcases command.dispatch_cases clock args ks with ⟨-, he⟩ | ⟨_, _, _, -, hi, -⟩
  · exact he
  · simp [h] at hi

theorem outcome_dispatch (command : DataCommand) (clock : Readings) (args : List Bytes)
    (ks : Keyspace F) : Outcome command clock ks (command.dispatch clock args ks) := by
  rcases command.dispatch_cases clock args ks with ⟨-, h⟩ | ⟨_, key, _, -, -, ⟨-, h⟩ | ⟨-, h⟩⟩ <;>
    rw [h]
  · exact outcome_handle command clock args ks
  · exact .of_evicts (.single clock ks 0 key)
  · exact .of_later (outcome_handle command clock.later args _)

end DataCommand

end TrueStore
