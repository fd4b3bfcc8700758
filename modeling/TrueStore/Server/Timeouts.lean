import TrueStore.Server.Basic
import TrueStore.Text.Signed

/-! # How long the loop sleeps

`poll` sleeps until the next deadline of a waiting client, or until the log has to be synced. The
time is the least of the remaining times, each of them narrowed to an `int` when it is taken over.
A negative number means that there is none yet, and for `poll` that it may sleep forever.
-/

namespace TrueStore.Server

/-- What the log remembers for its next `fsync`. Times are in nanoseconds. -/
structure SyncState where
  fsync : Bytes := []
  dirty : Bool := false
  lastSync : ℤ := 0

namespace SyncState

def pending (aof : SyncState) : Bool := aof.dirty && aof.fsync = ascii "everysec"

/-- The milliseconds until the second after the last `fsync` is over, rounded up. -/
def remaining (now : ℤ) (aof : SyncState) : ℤ :=
  max 0 (-(-(aof.lastSync + 1000000000 - now) / 1000000))

/-- `sync_timeout_ms`. -/
def timeoutMs (now : ℤ) (aof : SyncState) : ℤ :=
  if !aof.pending then -1
  else
    let remaining := -(-(aof.lastSync + 1000000000 - now) / 1000000)
    if 0 < remaining then wrap32 remaining else 0

end SyncState

/-- The milliseconds until a deadline, 0 if it is past. The difference does not leave 64 bits: what
`expire_waiters` leaves has a deadline past the time it read, which `steady_clock` never reports
below 0, so both times are in `[0, 2 ^ 63)`. -/
def remainingMs (now deadline : ℤ) : ℤ :=
  let remaining := (deadline - now).tdiv 1000000
  if remaining < 0 then 0 else remaining

/-- One waiter of the loop of `next_timeout`. -/
def earlier (timeout remaining : ℤ) : ℤ :=
  if timeout < 0 ∨ remaining < timeout then wrap32 remaining else timeout

/-- `next_timeout`. The clock is read for the waiters and once more for the log. -/
def nextTimeout (now syncNow : ℤ) (aof : SyncState) (waiters : List Waiter) : ℤ :=
  waiters.foldl (fun timeout w =>
    match w.deadline with
    | none => timeout
    | some deadline => earlier timeout (remainingMs now deadline)) (aof.timeoutMs syncNow)

def awaited (now syncNow : ℤ) (aof : SyncState) (waiters : List Waiter) : List ℤ :=
  (if aof.pending then [aof.remaining syncNow] else []) ++
    waiters.filterMap fun w => w.deadline.map (remainingMs now)

theorem remainingMs_nonneg (now deadline : ℤ) : 0 ≤ remainingMs now deadline := by
  unfold remainingMs
  dsimp only
  split <;> omega

theorem awaited_nonneg {now syncNow : ℤ} {aof : SyncState} {waiters : List Waiter} {r : ℤ}
    (hr : r ∈ awaited now syncNow aof waiters) : 0 ≤ r := by
  rcases List.mem_append.mp hr with hr | hr
  · split at hr
    · rw [List.mem_singleton.mp hr]
      exact le_max_left _ _
    · cases hr
  · obtain ⟨w, -, hw⟩ := List.mem_filterMap.mp hr
    obtain ⟨deadline, -, rfl⟩ := Option.map_eq_some_iff.mp hw
    exact remainingMs_nonneg now deadline

/-- The timeout is taken over from the first awaited time on. -/
theorem nextTimeout_eq (now syncNow : ℤ) (aof : SyncState) (waiters : List Waiter) :
    nextTimeout now syncNow aof waiters =
      (awaited now syncNow aof waiters).foldl earlier (-1) := by
  have hsync : aof.timeoutMs syncNow =
      (if aof.pending then [aof.remaining syncNow] else []).foldl earlier (-1) := by
    unfold SyncState.timeoutMs SyncState.remaining
    cases aof.pending with
    | false => rfl
    | true =>
      rw [if_neg (by decide), if_pos rfl]
      dsimp only
      split
      · rename_i hpos
        rw [max_eq_right hpos.le]
        rfl
      · rename_i hpos
        rw [max_eq_left (not_lt.mp hpos)]
        rfl
  rw [awaited, List.foldl_append, ← hsync, List.foldl_filterMap]
  unfold nextTimeout
  congr 1
  funext timeout w
  cases w.deadline with
  | none => rfl
  | some deadline => rfl

theorem wrap32_of_lt {r : ℤ} (h : 0 ≤ r) (hr : r < 2 ^ 31) : wrap32 r = r :=
  wrap32_eq (by omega) hr

theorem wrap32_le {r : ℤ} (h : 0 ≤ r) : wrap32 r ≤ r := by
  by_cases hr : r < 2 ^ 31
  · exact (wrap32_of_lt h hr).le
  · have := wrap32_lt r
    omega

/-- What the loop has found after some of the times: nothing as long as all of them are negative
as an `int`, and then a time that none of them falls short of. -/
structure Found (rs : List ℤ) (timeout : ℤ) : Prop where
  lt : timeout < 2 ^ 31
  none : timeout < 0 → ∀ r ∈ rs, wrap32 r < 0
  least : 0 ≤ timeout → (∀ r ∈ rs, timeout ≤ r) ∧ ∃ r ∈ rs, 0 ≤ wrap32 r

theorem Found.earlier {rs : List ℤ} {timeout r : ℤ} (h : Found rs timeout) (hrs : ∀ r ∈ rs, 0 ≤ r)
    (hr : 0 ≤ r) : Found (rs ++ [r]) (earlier timeout r) := by
  have hle := wrap32_le hr
  have hlt := wrap32_lt r
  unfold Server.earlier
  by_cases hneg : timeout < 0
  · rw [if_pos (.inl hneg)]
    -- an earlier time that was negative as an `int` is longer than any `int`
    have hbig : ∀ r' ∈ rs, wrap32 r ≤ r' := by
      intro r' hr'
      by_contra hsmall
      have hwrap := h.none hneg r' hr'
      rw [wrap32_of_lt (hrs r' hr') (by omega)] at hwrap
      exact absurd (hrs r' hr') (by omega)
    refine ⟨hlt, fun hw => ?_, fun hw => ⟨?_, r, by simp, hw⟩⟩
    · exact List.forall_mem_append.mpr ⟨h.none hneg, List.forall_mem_singleton.mpr hw⟩
    · exact List.forall_mem_append.mpr ⟨hbig, List.forall_mem_singleton.mpr hle⟩
  · have hpos : 0 ≤ timeout := not_lt.mp hneg
    obtain ⟨hall, r₀, hr₀, hw₀⟩ := h.least hpos
    have htimeout := h.lt
    by_cases hless : r < timeout
    · have hr' : wrap32 r = r := wrap32_of_lt hr (by omega)
      have hrest : ∀ r' ∈ rs, r ≤ r' := fun r' hmem => hless.le.trans (hall r' hmem)
      rw [if_pos (.inr hless), hr']
      refine ⟨by omega, fun hw => absurd hr (by omega), fun _ => ⟨?_, r, by simp, by omega⟩⟩
      exact List.forall_mem_append.mpr ⟨hrest, List.forall_mem_singleton.mpr le_rfl⟩
    · rw [if_neg (by omega)]
      refine ⟨h.lt, fun hw => absurd hpos (by omega), fun _ => ⟨?_, r₀, by simp [hr₀], hw₀⟩⟩
      exact List.forall_mem_append.mpr
        ⟨hall, List.forall_mem_singleton.mpr (not_lt.mp hless)⟩

theorem found_foldl {rs : List ℤ} (hrs : ∀ r ∈ rs, 0 ≤ r) :
    Found rs (rs.foldl earlier (-1)) := by
  induction rs using List.reverseRecOn with
  | nil => exact ⟨by decide, fun _ => by simp, fun h => absurd h (by decide)⟩
  | append_singleton rs r ih =>
    have hinit : ∀ r ∈ rs, 0 ≤ r := fun r' hr' => hrs r' (by simp [hr'])
    rw [List.foldl_append]
    exact (ih hinit).earlier hinit (hrs r (by simp))

/-- Nothing is awaited: no waiter has a deadline, and there is nothing to sync. -/
def Idle (aof : SyncState) (waiters : List Waiter) : Prop :=
  (∀ w ∈ waiters, w.deadline = none) ∧ aof.pending = false

/-- `poll` does not sleep past a deadline: it sleeps forever only when nothing is awaited, and else
no longer than until the first deadline. -/
def Punctual (now syncNow : ℤ) (aof : SyncState) (waiters : List Waiter) : Prop :=
  (nextTimeout now syncNow aof waiters < 0 → Idle aof waiters) ∧
    (¬Idle aof waiters → 0 ≤ nextTimeout now syncNow aof waiters ∧
      ∀ w ∈ waiters, ∀ deadline, w.deadline = some deadline →
        nextTimeout now syncNow aof waiters ≤ remainingMs now deadline)

theorem awaited_eq_nil {now syncNow : ℤ} {aof : SyncState} {waiters : List Waiter} :
    awaited now syncNow aof waiters = [] ↔ Idle aof waiters := by
  unfold awaited Idle
  rw [List.append_eq_nil_iff, List.filterMap_eq_nil_iff, and_comm]
  simp only [Option.map_eq_none_iff]
  cases aof.pending <;> simp

theorem wrap32_nonneg {r : ℤ} : 0 ≤ wrap32 r ↔ r % 2 ^ 32 < 2 ^ 31 := by
  unfold wrap32
  rw [Int.bmod_def]
  split <;> omega

/-- The loop is punctual exactly when it waits for nothing, or one of the awaited times is not
negative as an `int`. -/
theorem punctual_iff (now syncNow : ℤ) (aof : SyncState) (waiters : List Waiter) :
    Punctual now syncNow aof waiters ↔
      awaited now syncNow aof waiters = [] ∨
        ∃ r ∈ awaited now syncNow aof waiters, r % 2 ^ 32 < 2 ^ 31 := by
  have hfound := found_foldl fun r (hr : r ∈ awaited now syncNow aof waiters) => awaited_nonneg hr
  rw [← nextTimeout_eq] at hfound
  constructor
  · rintro ⟨hneg, -⟩
    by_cases ht : nextTimeout now syncNow aof waiters < 0
    · exact .inl (awaited_eq_nil.mpr (hneg ht))
    · obtain ⟨-, r, hr, hw⟩ := hfound.least (not_lt.mp ht)
      exact .inr ⟨r, hr, wrap32_nonneg.mp hw⟩
  · rintro (hnil | ⟨r, hr, hw⟩)
    · have hidle := awaited_eq_nil.mp hnil
      exact ⟨fun _ => hidle, fun h => absurd hidle h⟩
    · have ht : 0 ≤ nextTimeout now syncNow aof waiters := by
        by_contra hneg
        have := hfound.none (not_le.mp hneg) r hr
        exact absurd (wrap32_nonneg.mpr hw) (by omega)
      refine ⟨fun hneg => absurd ht (by omega), fun _ => ⟨ht, fun w hmem deadline hd => ?_⟩⟩
      refine (hfound.least ht).1 _ (List.mem_append_right _ (List.mem_filterMap.mpr ⟨w, hmem, ?_⟩))
      rw [hd]
      rfl

/-- A client that waits for `2 ^ 31` milliseconds. -/
def patient : Waiter := ⟨5, .list, [ascii "k"], [], 0, some (2 ^ 31 * 1000000), 0⟩

theorem not_punctual_patient : ¬Punctual 0 0 {} [patient] := by
  rintro ⟨hneg, -⟩
  have ht : nextTimeout 0 0 {} [patient] = -2 ^ 31 := by decide
  have hidle := (hneg (by rw [ht]; decide)).1 patient List.mem_cons_self
  exact absurd hidle (by decide)

end TrueStore.Server
