import TrueStore.Invariants.StreamLog
import TrueStore.Server.Runs

/-! # Automatic IDs

`XADD` with `*` takes the time of the wall clock, or the last ID with the next sequence number when
the clock is not ahead of it. There is no carry into the milliseconds, so the last sequence number
of a millisecond is the end of the stream until the clock has passed this millisecond.
-/

namespace TrueStore

namespace Stream

variable {s : Stream} {log : List (StreamID × StreamEntryData)} {now : UInt64}

def HasNext (s : Stream) (now : UInt64) : Prop :=
  ∀ last, s.maxId = some last → last.sequence ≠ maxU64 ∨ last.milliseconds < now

theorem nextSequence_isOk_iff : (∃ id, s.nextSequence now = .ok id) ↔ s.HasNext now := by
  unfold HasNext
  cases hm : s.maxId with
  | none =>
    simp only [reduceCtorEq, false_imp_iff, implies_true, iff_true]
    exact ⟨_, by rw [nextSequence, hm]⟩
  | some last =>
    simp only [nextSequence_eq_ok hm, Option.some.injEq, forall_eq', UInt64.lt_iff_toNat_lt]
    constructor
    · rintro ⟨id, ⟨hlt, -⟩ | ⟨-, hs, -⟩⟩
      · exact .inr hlt
      · exact .inl hs
    · intro h
      by_cases hlt : last.milliseconds.toNat < now.toNat
      · exact ⟨_, .inl ⟨hlt, rfl⟩⟩
      · exact ⟨_, .inr ⟨not_lt.mp hlt, h.resolve_right hlt, rfl⟩⟩

/-- An automatic ID is found, and is greater than the last one, exactly when there is a next one. -/
theorem Holds.insert_autoId_iff (h : s.Holds log) (data : StreamEntryData) :
    (∃ id s', s.insert now autoId data = .ok (id, s') ∧
      ∀ last, s.maxId = some last → last.lt id = true) ↔ s.HasNext now := by
  have hresolve : s.resolveId now autoId = s.nextSequence now := if_pos rfl
  rw [← nextSequence_isOk_iff]
  constructor
  · rintro ⟨id, s', hi, -⟩
    exact ⟨id, hresolve ▸ (insert_eq_ok hi).1⟩
  · rintro ⟨id, hid⟩
    rw [← hresolve] at hid
    refine ⟨id, { tree := s.tree.insert (encodeId id) data, maxId := some id }, ?_,
      fun last hm => lt_of_resolveId hid hm⟩
    simp only [Stream.insert, hid, h.not_contains hid, Bool.false_eq_true, if_false]

end Stream

variable {F : Type} [Platform F]

/-- In every state that a server can reach, an automatic ID is found and is greater than the last ID
of the stream exactly when the last ID has a sequence number after it or the clock is ahead. -/
theorem autoId_found_iff (config : Config) (replid : ReplId) (link : Option (ℤ × ℤ))
    (events : List (Env × Server.Event)) (key : Bytes) (now : UInt64) (data : StreamEntryData) :
    let s := (Server.run events (Server.boot config replid link : Server F)).store.streamAt key
    (∃ id s', s.insert now Stream.autoId data = .ok (id, s') ∧
      ∀ last, s.maxId = some last → last.lt id = true) ↔
      ∀ last, s.maxId = some last → last.sequence ≠ maxU64 ∨ last.milliseconds < now := by
  intro s
  obtain ⟨log, hlog⟩ :=
    Keyspace.streamsHold_of_chain (Server.chain_run (F := F) config replid link events) key
  exact hlog.insert_autoId_iff data

def lastOfMillisecond : List (Env × Server.Event) :=
  [(.still, .accept 5),
    (.still, .request 5 (.of [ascii "XADD", ascii "s", ascii "5-18446744073709551615", ascii "f",
      ascii "a"] (by decide)))]

/-- There are greater IDs, but none is found until the sixth millisecond. -/
theorem autoId_not_found :
    let s := (Server.run lastOfMillisecond
      (Server.boot {} .zeros none : Server Whole)).store.streamAt (ascii "s")
    s.maxId = some ⟨5, maxU64⟩ ∧ (⟨5, maxU64⟩ : StreamID) ≠ ⟨maxU64, maxU64⟩ ∧
      s.insert 5 Stream.autoId [(ascii "f", ascii "b")] = .error .notGreater := by
  intro s
  have hmax : s.maxId = some ⟨5, maxU64⟩ := by decide
  refine ⟨hmax, by decide, ?_⟩
  have hnext : s.nextSequence 5 = .error .notGreater := by
    rw [Stream.nextSequence, hmax]
    rfl
  simp only [Stream.insert, Stream.resolveId, hnext, if_true]

end TrueStore
