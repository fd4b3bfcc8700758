import TrueStore.Invariants.StreamLog
import TrueStore.Server.Connections

/-! # No waiting client is forgotten

The round over the waiting clients serves everyone that can be served. It looks at each of them
only once, but what it does for one client never makes another one servable: it only pops from
lists and drops replicas.
-/

namespace TrueStore.Server

open RespType

variable {F : Type} [Platform F]

def Unservable (w : Waiter) (s : Server F) : Prop :=
  match w.kind with
  | .list => ∀ key ∈ w.keys, s.store.listAt key = []
  | .stream => ∀ p ∈ w.keys.zip w.ids, ∀ key ∈ (s.store.streamAt p.1).tree,
      p.2.lt (decodeId key) = false
  | .wait => s.countAcked w.targetOffset < w.count

/-- Lists and replicas may only become fewer, and streams stay as they are. -/
structure Dwindles (s s' : Server F) : Prop where
  lists : ∀ key, s.store.listAt key = [] → s'.store.listAt key = []
  streams : s'.store.streams = s.store.streams
  acked : ∀ target, s'.countAcked target ≤ s.countAcked target

namespace Dwindles

variable {s s₁ s₂ : Server F}

theorem refl (s : Server F) : Dwindles s s := ⟨fun _ h => h, rfl, fun _ => le_rfl⟩

theorem trans (h : Dwindles s s₁) (h' : Dwindles s₁ s₂) : Dwindles s s₂ where
  lists key hk := h'.lists key (h.lists key hk)
  streams := h'.streams.trans h.streams
  acked target := (h'.acked target).trans (h.acked target)

theorem of_eq (hk : s₁.store.toKeyspace = s.store.toKeyspace) (hr : s₁.replicas = s.replicas) :
    Dwindles s s₁ where
  lists key h := by rw [hk, h]
  streams := congrArg Keyspace.streams hk
  acked target := by rw [countAcked, countAcked, hr]

theorem send (env : Env) (fd : ℤ) (payload : Bytes) (purpose : Purpose) (s : Server F) :
    Dwindles s (s.send env fd payload purpose).2 :=
  of_eq rfl rfl

theorem drop (fd : ℤ) (s : Server F) : Dwindles s { s with replicas := s.replicas.erase fd } where
  lists _ h := h
  streams := rfl
  acked _ := Sorted.countP_values_erase_le s.replicas fd _

theorem sendToAll (env : Env) (payload : Bytes) (fds : List ℤ) (s : Server F) :
    Dwindles s (sendToAll env payload fds s) := by
  induction fds generalizing s with
  | nil => exact refl s
  | cons fd fds ih =>
    have hsend := send env fd payload .stream s
    unfold Server.sendToAll
    dsimp only
    split
    · exact hsend.trans (ih _)
    · exact (hsend.trans (drop fd _)).trans (ih _)

theorem propagate (env : Env) (fd : ℤ) (args : List Bytes) (s : Server F) :
    Dwindles s (s.propagate env fd args) := by
  have hbump : Dwindles s { s with
      store := { s.store with
        masterReplOffset := s.store.masterReplOffset + (encode args).length }
      stream := s.stream ++ [⟨some fd, args⟩] } := of_eq rfl rfl
  have hsend := hbump.trans (sendToAll env (encode args) s.replicas.keys _)
  exact hsend.trans (of_eq rfl rfl)

theorem unservable (h : Dwindles s s₁) {w : Waiter} (hw : Unservable w s) : Unservable w s₁ := by
  unfold Unservable at hw ⊢
  split
  · rename_i hk
    rw [hk] at hw
    exact fun key hkey => h.lists key (hw key hkey)
  · rename_i hk
    rw [hk] at hw
    intro p hp
    rw [Keyspace.streamAt, h.streams]
    exact hw p hp
  · rename_i hk
    rw [hk] at hw
    exact (h.acked _).trans_lt hw

end Dwindles

theorem listAt_of_popFirst_none {ks : Keyspace F} {keys : List Bytes}
    (h : ks.popFirst keys = none) : ∀ key ∈ keys, ks.listAt key = [] := by
  induction keys with
  | nil => simp
  | cons k keys ih =>
    unfold Keyspace.popFirst at h
    split at h
    · rename_i hk
      exact List.forall_mem_cons.mpr ⟨hk, ih h⟩
    · cases h

/-- A client that is not served could not be, and serving one only takes away. -/
theorem serveWaiter_spec (env : Env) (w : Waiter) {s : Server F} (hs : s.store.StreamsHold) :
    Dwindles s (s.serveWaiter env w).2 ∧
      ((s.serveWaiter env w).1 = false → Unservable w s) := by
  have hfold : ∀ (queue : List (List Bytes)) (s : Server F),
      Dwindles s (queue.foldl (fun s args => (s.append args).propagate env w.fd args) s) := by
    intro queue
    induction queue with
    | nil => exact fun s => .refl s
    | cons args queue ih =>
      intro s
      have happend : Dwindles s (s.append args) := .of_eq rfl rfl
      exact (happend.trans (.propagate env w.fd args _)).trans (ih _)
  unfold serveWaiter Unservable
  split
  · rename_i hk
    simp only [hk]
    split
    · exact ⟨.send env _ _ _ s, by simp⟩
    · rename_i hcount
      exact ⟨.refl s, fun _ => not_le.mp hcount⟩
  · rename_i hk
    simp only [hk]
    split
    · rename_i hpop
      refine ⟨.refl s, fun _ => listAt_of_popFirst_none ?_⟩
      simpa [Store.tryBlpop] using hpop
    · rename_i key value store hpop
      obtain ⟨-, rest, hlist, rfl⟩ := Store.tryBlpop_eq_some hpop
      have hpopped : Dwindles s { s with
          store := { s.store.popped key rest with pendingPropagations := [] }
          calls := s.calls ++ [Call.pop s.store.toKeyspace key] } := by
        refine ⟨fun key' he => ?_, rfl, fun _ => le_rfl⟩
        have hne : key ≠ key' := by
          rintro rfl
          rw [he] at hlist
          cases hlist
        simp only [Store.popped, Store.queuePropagation, Keyspace.listAt, Keyspace.storeList]
        split
        · rw [Std.ExtTreeMap.getD_erase, if_neg (by simpa using hne)]
          exact he
        · rw [Std.ExtTreeMap.getD_insert, if_neg (by simpa using hne)]
          exact he
      exact ⟨(hpopped.trans (hfold _ _)).trans (.send env _ _ _ _), by simp⟩
  · rename_i hk
    simp only [hk]
    split
    · rename_i hread
      refine ⟨.refl s, fun _ p hp key hkey => ?_⟩
      obtain ⟨log, hlog⟩ := hs p.1
      obtain ⟨e, he, hid⟩ := hlog.exists_entry hkey
      have hnone : s.store.readStream w.count p.1 p.2 = none := by
        unfold Keyspace.tryXread at hread
        split at hread
        · rename_i hnil
          exact List.forall_none_of_filterMap_eq_nil hnil p hp
        · cases hread
      rw [Keyspace.readStream_eq hlog] at hnone
      have hafter : Stream.after log p.2 w.count = [] := by
        split at hnone
        · assumption
        · cases hnone
      have hnil : (log.filter fun e => p.2.lt e.1) = [] := cut_eq_nil hafter
      rw [hid]
      simpa using List.filter_eq_nil_iff.mp hnil e he
    · exact ⟨.send env _ _ _ s, by simp⟩

theorem serveAll_spec (env : Env) (ws : List Waiter) {s : Server F} (hs : s.store.StreamsHold) :
    Dwindles s (serveAll env ws s).2 ∧
      ∀ w ∈ (serveAll env ws s).1, Unservable w (serveAll env ws s).2 := by
  induction ws generalizing s with
  | nil => exact ⟨.refl s, by simp [serveAll]⟩
  | cons w ws ih =>
    obtain ⟨hone, hno⟩ := serveWaiter_spec env w hs
    have hs' : (s.serveWaiter env w).2.store.StreamsHold := by
      intro key
      rw [Keyspace.streamAt, hone.streams]
      exact hs key
    obtain ⟨hrest, hall⟩ := ih hs'
    refine ⟨hone.trans hrest, fun w' hw => ?_⟩
    simp only [serveAll] at hw ⊢
    split at hw
    · exact hall w' hw
    · rename_i hserved
      rcases List.mem_cons.mp hw with rfl | hw
      · exact (hone.trans hrest).unservable (hno (by simpa using hserved))
      · exact hall w' hw

theorem dwindles_expireAll (env : Env) (ws : List Waiter) (s : Server F) :
    Dwindles s (expireAll env ws s) := by
  induction ws generalizing s with
  | nil => exact .refl s
  | cons w ws ih =>
    unfold expireAll
    split
    · split
      · exact (Dwindles.send env _ _ _ s).trans (ih _)
      · exact (Dwindles.send env _ _ _ s).trans (ih _)
    · exact ih s

theorem unservable_round (env : Env) {s : Server F} (hs : s.store.StreamsHold)
    (hrun : s.halted = false) :
    ∀ w ∈ (s.step env .round).waiters, Unservable w (s.step env .round) := by
  obtain ⟨-, hall⟩ := serveAll_spec env s.waiters hs
  have hround : s.step env .round = (s.serveWaiters env).expireWaiters env := by
    simp only [step, hrun, Bool.false_eq_true, if_false]
  rw [hround]
  intro w hw
  have hmem : w ∈ (serveAll env s.waiters s).1 := List.mem_of_mem_filter hw
  have hserved : Dwindles (serveAll env s.waiters s).2 (s.serveWaiters env) := .of_eq rfl rfl
  have hexpired := hserved.trans (dwindles_expireAll env (s.serveWaiters env).waiters _)
  exact (hexpired.trans (.of_eq rfl rfl)).unservable (hall w hmem)

/-- When the loop goes back to waiting for events, no client that waits could be served. -/
theorem no_waiter_servable (config : Config) (replid : ReplId) (link : Option (ℤ × ℤ))
    (events : List (Env × Event)) (env : Env)
    (hrun : (run events (boot config replid link : Server F)).halted = false) :
    ∀ w ∈ ((run events (boot config replid link : Server F)).step env .round).waiters,
      Unservable w ((run events (boot config replid link : Server F)).step env .round) :=
  unservable_round env (Keyspace.streamsHold_of_chain (chain_run config replid link events)) hrun

def blocking : List (Env × Event) :=
  [(.still, .accept 5), (.still, .accept 6), (.still, .accept 7),
    asks 5 [ascii "BLPOP", ascii "w", ascii "0"] (by decide),
    asks 6 [ascii "BLPOP", ascii "w", ascii "0"] (by decide),
    asks 7 [ascii "RPUSH", ascii "w", ascii "a"] (by decide)]

theorem no_waiter_servable_blocking :
    (run blocking (boot {} .zeros none : Server Whole)).waiters.map (·.fd) = [5, 6] ∧
    ((run blocking (boot {} .zeros none : Server Whole)).step .still .round).waiters.map (·.fd) =
      [6] ∧
    ∀ w ∈ ((run blocking (boot {} .zeros none : Server Whole)).step .still .round).waiters,
      Unservable w ((run blocking (boot {} .zeros none : Server Whole)).step .still .round) :=
  ⟨by decide, by decide, no_waiter_servable {} .zeros none blocking .still (by decide)⟩

end TrueStore.Server
