import TrueStore.Command.Calls

/-! # An error reply means that nothing happened

A command that answers with an error may have let keys expire on the way. The live part of
the keyspace, the session and everything else that the store holds stay as they were.
-/

namespace TrueStore

open RespType

variable {F : Type} [Platform F]

namespace Keyspace

/-- The deadline of the key has passed at time `now`. -/
def dead (ks : Keyspace F) (now : ℤ) (key : Bytes) : Bool := ks.expirations[key]?.any (· ≤ now)

def live (now : ℤ) (ks : Keyspace F) : Keyspace F :=
  { ks with
    storage := ks.storage.filter fun key _ => !ks.dead now key
    expirations := ks.expirations.filter fun key _ => !ks.dead now key }

theorem getElem?_filter_key {V : Type} (m : Map V) (f : Bytes → V → Bool) (key : Bytes) :
    (m.filter f)[key]? = m[key]?.filter (f key) := by
  simp [Std.ExtTreeMap.getElem?_filter, Option.pfilter_eq_filter]

theorem live_evict {now : ℤ} {clock : Clock} (h : clock.steady ≤ now) (ks : Keyspace F)
    (key : Bytes) : (ks.evict clock key).live now = ks.live now := by
  unfold evict isExpired
  split
  · rfl
  · rename_i deadline hd
    split
    · rename_i hpast
      have hdead : ks.dead now key = true := by simp [dead, hd]; omega
      have hother : ∀ k, k ≠ key →
          dead { ks with
            expirations := ks.expirations.erase key
            storage := ks.storage.erase key } now k = ks.dead now k := by
        intro k hk
        simp [dead, Std.ExtTreeMap.getElem?_erase, hk.symm]
      have hmap : ∀ {V : Type} (m : Map V), (m.erase key).filter (fun k _ => !dead { ks with
          expirations := ks.expirations.erase key
          storage := ks.storage.erase key } now k) = m.filter fun k _ => !ks.dead now k := by
        intro V m
        apply Std.ExtTreeMap.ext_getElem?
        intro k
        rw [getElem?_filter_key, getElem?_filter_key, Std.ExtTreeMap.getElem?_erase]
        by_cases hk : k = key
        · subst hk
          simp [hdead]
        · simp [hother k hk, Ne.symm hk]
      simp only [live, hmap]
    · rfl

theorem Evicts.live_eq {clock : Readings} {now : ℤ} (hc : ∀ i, (clock i).steady ≤ now)
    {ks ks' : Keyspace F} (h : Evicts clock ks ks') : ks'.live now = ks.live now := by
  induction h with
  | refl => rfl
  | step i key _ ih => rw [ih, live_evict (hc i)]

end Keyspace

/-- The parts of the store and the client that an error reply must not have touched, with the
clocks no later than `now`. -/
structure NothingHappened (now : ℤ) (store store' : Store F) (client client' : ClientState) :
    Prop where
  data : store'.live now = store.live now
  user : store'.aclUser = store.aclUser
  subscribers : store'.subscribers = store.subscribers
  propagations : store'.pendingPropagations = store.pendingPropagations
  messages : store'.pendingMessages = store.pendingMessages
  client : client' = client

theorem NothingHappened.refl (now : ℤ) (store : Store F) (client : ClientState) :
    NothingHappened now store store client client := ⟨rfl, rfl, rfl, rfl, rfl, rfl⟩

theorem nothingHappened_dispatchCommand {clock : Readings} {now : ℤ}
    (hc : ∀ i, (clock i).steady ≤ now) {args : List Bytes} {store : Store F} {client : ClientState}
    (h : isError (dispatchCommand clock args store client).1 = true) :
    NothingHappened now store (dispatchCommand clock args store client).2.1 client
      (dispatchCommand clock args store client).2.2 := by
  rcases dispatchCommand_cases clock args store client with
    ⟨command, -, hd⟩ | ⟨-, key, value, rest, -, -, hd⟩ | ⟨-, -, happart⟩
  · rw [hd] at h ⊢
    have he := (command.outcome_dispatch clock args store.toKeyspace).evicts_of_isError h
    exact ⟨he.live_eq hc, rfl, rfl, rfl, rfl, rfl⟩
  · rw [hd] at h
    simp at h
  · obtain ⟨hs, hcl⟩ := happart.error h
    rw [hs, hcl]
    exact ⟨rfl, rfl, rfl, rfl, rfl, rfl⟩

theorem isError_execTransaction (clock : ℕ → Readings) (store : Store F) (client : ClientState) :
    isError (execTransaction clock store client).1 = false := by
  unfold execTransaction
  dsimp only
  split
  · simp
  · simp [arrayHeader, isError]

/-- An error reply means that nothing happened: for every store, client and command, if the reply
is an error then the live keyspace, the user, the subscribers, the pending propagations and
messages and the whole session of the client are as before. -/
theorem handleCommand_error_unchanged (clock : ℕ → Readings) (now : ℤ)
    (hc : ∀ i j, (clock i j).steady ≤ now) (args : List Bytes) (store : Store F)
    (client : ClientState) (h : isError (handleCommand clock args store client).1 = true) :
    NothingHappened now store (handleCommand clock args store client).2.1 client
      (handleCommand clock args store client).2.2 := by
  have hd := handled_handleCommand clock args store client
  generalize handleCommand clock args store client = r at h hd
  generalize commandCalls clock args store client = calls at hd
  cases hd with
  | refused _ => exact .refl now store client
  | steered hs => simp [hs.reply.1] at h
  | exec _ _ => simp [isError_execTransaction] at h
  | queued _ _ _ => simp at h
  | dispatched _ _ _ => exact nothingHappened_dispatchCommand (hc 0) h

/-- A `BITOP` that lets its first source expire and is then refused because of the second. -/
theorem handleCommand_error_unchanged_bitop :
    let store : Store Whole :=
      { storage := {(ascii "s", ascii "x")}
        expirations := {(ascii "s", 1)}
        dynamicVector := {(ascii "l", [ascii "a"])} }
    let r := handleCommand (fun _ _ => ⟨2, 0⟩)
      [ascii "BITOP", ascii "AND", ascii "d", ascii "s", ascii "l"] store {}
    r.1 = wrongType ∧ r.2.1.storage[ascii "s"]? = none ∧
      NothingHappened 2 store r.2.1 {} r.2.2 :=
  ⟨by decide, by decide,
    handleCommand_error_unchanged _ 2 (fun _ _ => le_refl _) _ _ _ (by decide)⟩

end TrueStore
