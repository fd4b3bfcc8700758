import TrueStore.Server.Timeouts

/-! # When the log is on disk

`Aof::write` writes all of its bytes, however the system cuts the writes short, and asks for an
`fsync` that depends on the option `appendfsync`: with `always` everything is synced when the write
returns, with `everysec` a byte waits little more than a second.
-/

namespace TrueStore.Aof

open Server

/-- What one call of `::write` returns: a number of bytes, `EINTR` or another error. -/
inductive WriteResult where
  | wrote (n : ℕ)
  | interrupted
  | failed

/-- The loop of `Aof::write`: the bytes that reach the file, and whether the loop ends without an
exception. Nothing is written after the last result. -/
def writeAll : List WriteResult → Bytes → Bytes × Bool
  | _, [] => ([], true)
  | [], _ :: _ => ([], false)
  | .interrupted :: results, bytes => writeAll results bytes
  | .failed :: _, _ => ([], false)
  | .wrote 0 :: _, _ => ([], false)
  | .wrote (n + 1) :: results, bytes =>
    let r := writeAll results (bytes.drop (n + 1))
    (bytes.take (n + 1) ++ r.1, r.2)

/-- The file gets the beginning of what is written, and all of it if there is no exception. -/
theorem writeAll_spec (results : List WriteResult) (bytes : Bytes) :
    (writeAll results bytes).1 <+: bytes ∧
      ((writeAll results bytes).2 = true → (writeAll results bytes).1 = bytes) := by
  fun_induction writeAll results bytes with
  | case1 => simp
  | case2 => simp
  | case3 results bytes _ ih => exact ih
  | case4 => simp
  | case5 => simp
  | case6 n results bytes _ r ih =>
    obtain ⟨hbegins, hall⟩ := ih
    constructor
    · conv_rhs => rw [← List.take_append_drop (n + 1) bytes]
      exact (List.prefix_append_right_inj _).mpr hbegins
    · intro hr
      rw [hall hr, List.take_append_drop]

/-- The bytes that this server has written with the times of their writes, and how many of them are
known to be on disk. -/
structure Log where
  written : List (UInt8 × ℤ) := []
  synced : ℕ := 0
  state : SyncState

namespace Log

def unsynced (log : Log) : List (UInt8 × ℤ) := log.written.drop log.synced

/-- The clock readings of `sync_if_due`, and whether `fsync` succeeds in the end. -/
structure Sync where
  now : ℤ
  after : ℤ
  ok : Bool

/-- `sync_if_due`, with nothing for an exception. -/
def syncIfDue (sync : Sync) (log : Log) : Option Log :=
  if !log.state.dirty || log.state.fsync = ascii "no" then some log
  else if log.state.fsync = ascii "everysec" && sync.now - log.state.lastSync < 1000000000 then
    some log
  else if sync.ok then
    some { log with
      synced := log.written.length
      state := { log.state with dirty := false, lastSync := sync.after } }
  else none

/-- A call of `Aof::write`: the bytes, what the system makes of them, the time and the check. -/
structure Write where
  bytes : Bytes
  results : List WriteResult
  time : ℤ
  sync : Sync

/-- `Aof::write`, with nothing for an exception. -/
def write (w : Write) (log : Log) : Option Log :=
  let r := writeAll w.results w.bytes
  if r.2 then
    syncIfDue w.sync { log with
      written := log.written ++ r.1.map (·, w.time)
      state := { log.state with dirty := true } }
  else none

def writeSome : List Write → Log → Option Log
  | [], log => some log
  | w :: ws, log => (log.write w).bind (writeSome ws)

/-- One turn of the loop: the check at its top, the waiting clients and the two readings for the
timeout of `poll`, the time at which `poll` returns and the writes of the requests that have
come. -/
structure Turn where
  sync : Sync
  waiters : List Waiter
  now : ℤ
  polls : ℤ
  wakes : ℤ
  writes : List Write

/-- The timeout of `poll` for the log after the check. -/
def Turn.timeout (t : Turn) (log : Log) : ℤ := nextTimeout t.now t.polls log.state t.waiters

def turn (t : Turn) (log : Log) : Option Log := (log.syncIfDue t.sync).bind (writeSome t.writes)

def turns : List Turn → Log → Option Log
  | [], log => some log
  | t :: ts, log => (log.turn t).bind (turns ts)

/-- The log after `Aof::open`. -/
def opened (fsync : Bytes) (now : ℤ) : Log := { state := { fsync, lastSync := now } }

structure Sound (log : Log) : Prop where
  le : log.synced ≤ log.written.length
  clean : log.state.dirty = false → log.synced = log.written.length
  after : ∀ e ∈ log.unsynced, log.state.lastSync ≤ e.2

theorem sound_opened (fsync : Bytes) (now : ℤ) : (opened fsync now).Sound :=
  ⟨le_rfl, fun _ => rfl, fun e he => by simp [opened, unsynced] at he⟩

variable {log log' : Log}

/-- A check leaves the file alone, and either syncs all of it or is not due. -/
theorem syncIfDue_cases {sync : Sync} (h : log.syncIfDue sync = some log') :
    (log' = log ∧ (log.state.dirty = false ∨ log.state.fsync = ascii "no" ∨
      log.state.fsync = ascii "everysec" ∧ sync.now - log.state.lastSync < 1000000000)) ∨
    log' = { log with
      synced := log.written.length
      state := { log.state with dirty := false, lastSync := sync.after } } := by
  unfold syncIfDue at h
  split at h
  · rename_i hidle
    simp only [Bool.or_eq_true, Bool.not_eq_true', decide_eq_true_eq] at hidle
    exact .inl ⟨(Option.some.inj h).symm, hidle.imp_right .inl⟩
  · split at h
    · rename_i hearly
      simp only [Bool.and_eq_true, decide_eq_true_eq] at hearly
      exact .inl ⟨(Option.some.inj h).symm, .inr (.inr hearly)⟩
    · split at h
      · exact .inr (Option.some.inj h).symm
      · cases h

theorem unsynced_of_synced (written : List (UInt8 × ℤ)) (state : SyncState) :
    ({ written, synced := written.length, state } : Log).unsynced = [] := List.drop_length

theorem Sound.syncIfDue (h : log.Sound) {sync : Sync} (hs : log.syncIfDue sync = some log') :
    log'.Sound ∧ log'.written = log.written ∧ log'.state.fsync = log.state.fsync ∧
      (∀ e ∈ log'.unsynced, e ∈ log.unsynced) := by
  rcases syncIfDue_cases hs with ⟨rfl, -⟩ | rfl
  · exact ⟨h, rfl, rfl, fun e he => he⟩
  · have hnone := unsynced_of_synced log.written
      { log.state with dirty := false, lastSync := sync.after }
    refine ⟨⟨le_rfl, fun _ => rfl, ?_⟩, rfl, rfl, ?_⟩
    · rw [hnone]
      simp
    · rw [hnone]
      simp

theorem Sound.recent (h : log.Sound) (hf : log.state.fsync = ascii "everysec") {sync : Sync}
    (hs : log.syncIfDue sync = some log') :
    ∀ e ∈ log'.unsynced, log'.state = log.state ∧ log'.state.dirty = true ∧
      sync.now - log.state.lastSync < 1000000000 := by
  intro e he
  rcases syncIfDue_cases hs with ⟨rfl, hclean | hno | ⟨-, hearly⟩⟩ | rfl
  · rw [unsynced, h.clean hclean, List.drop_length] at he
    cases he
  · rw [hf] at hno
    exact absurd hno (by decide)
  · refine ⟨rfl, ?_, hearly⟩
    by_contra hd
    rw [unsynced, h.clean (by simpa using hd), List.drop_length] at he
    cases he
  · rw [unsynced_of_synced] at he
    cases he

theorem Sound.write (h : log.Sound) {w : Write} (hw : log.write w = some log')
    (hlast : log.state.lastSync ≤ w.time) :
    log'.Sound ∧ log'.written = log.written ++ w.bytes.map (·, w.time) ∧
      log'.state.fsync = log.state.fsync ∧
      (∀ e ∈ log'.unsynced, e ∈ log.unsynced ∨ e.2 = w.time) := by
  rw [Log.write] at hw
  obtain ⟨hdone, hs⟩ := Option.ite_none_right_eq_some.mp hw
  rw [(writeAll_spec w.results w.bytes).2 hdone] at hs
  have hunsynced : ∀ state, ({ log with written := log.written ++ w.bytes.map (·, w.time), state } :
      Log).unsynced = log.unsynced ++ w.bytes.map (·, w.time) := fun state =>
    List.drop_append_of_le_length h.le
  have hmem : ∀ e ∈ log.unsynced ++ w.bytes.map (·, w.time), e ∈ log.unsynced ∨ e.2 = w.time := by
    intro e he
    rcases List.mem_append.mp he with he | he
    · exact .inl he
    · obtain ⟨b, -, rfl⟩ := List.mem_map.mp he
      exact .inr rfl
  have hadded : Sound { log with
      written := log.written ++ w.bytes.map (·, w.time)
      state := { log.state with dirty := true } } := by
    refine ⟨?_, nofun, ?_⟩
    · have := h.le
      simp
      omega
    · intro e he
      rw [hunsynced] at he
      rcases hmem e he with he | he
      · exact h.after e he
      · rw [he]
        exact hlast
  obtain ⟨hsound, hwritten, hfsync, hsub⟩ := hadded.syncIfDue hs
  refine ⟨hsound, hwritten, hfsync, ?_⟩
  intro e he
  have := hsub e he
  rw [hunsynced] at this
  exact hmem e this

theorem lastSync_le {sync : Sync} (hs : log.syncIfDue sync = some log')
    (hlast : log.state.lastSync ≤ sync.after) : log'.state.lastSync ≤ sync.after := by
  rcases syncIfDue_cases hs with ⟨rfl, -⟩ | rfl
  · exact hlast
  · exact le_rfl

def InOrder : ℤ → List Write → Prop
  | _, [] => True
  | last, w :: ws =>
    last ≤ w.time ∧ w.time ≤ w.sync.now ∧ w.sync.now ≤ w.sync.after ∧ InOrder w.sync.after ws

def lastReading : ℤ → List Write → ℤ
  | last, [] => last
  | _, w :: ws => lastReading w.sync.after ws

theorem Sound.writeSome (h : log.Sound) {ws : List Write} (hw : writeSome ws log = some log')
    {last : ℤ} (hlast : log.state.lastSync ≤ last) (ho : InOrder last ws) :
    log'.Sound ∧ log'.state.fsync = log.state.fsync ∧
      log'.state.lastSync ≤ lastReading last ws ∧
      (∀ e ∈ log'.unsynced, e ∈ log.unsynced ∨ last ≤ e.2) := by
  induction ws generalizing log last with
  | nil =>
    cases hw
    exact ⟨h, rfl, hlast, fun e he => .inl he⟩
  | cons w ws ih =>
    obtain ⟨htime, hnow, hafter, ho⟩ := ho
    obtain ⟨log₁, hw₁, hw₂⟩ := Option.bind_eq_some_iff.mp hw
    obtain ⟨hsound, -, hfsync, hsub⟩ := h.write hw₁ (hlast.trans htime)
    have hlast₁ : log₁.state.lastSync ≤ w.sync.after := by
      obtain ⟨-, hs⟩ := Option.ite_none_right_eq_some.mp hw₁
      apply lastSync_le hs
      dsimp only
      omega
    obtain ⟨hsound', hfsync', hlast', hsub'⟩ := ih hsound hw₂ hlast₁ ho
    refine ⟨hsound', hfsync'.trans hfsync, hlast', ?_⟩
    intro e he
    rcases hsub' e he with he | he
    · rcases hsub e he with he | he
      · exact .inl he
      · right
        omega
    · right
      omega

/-- No part of a turn takes longer than some delay: neither from the check to `poll`, nor from the
end of the timeout of `poll`, if it has one, to its return, nor from there to the next check. -/
def Timely (delay : ℤ) : ℤ → ℤ → List Turn → Log → Prop
  | _, _, [], _ => True
  | last, limit, t :: ts, log =>
    last ≤ t.sync.now ∧ t.sync.now ≤ limit ∧ t.sync.now ≤ t.sync.after ∧ t.sync.after ≤ t.polls ∧
      t.polls ≤ t.sync.now + delay ∧ t.polls ≤ t.wakes ∧ InOrder t.wakes t.writes ∧
      lastReading t.wakes t.writes ≤ t.wakes + delay ∧
      ∀ log₁, log.syncIfDue t.sync = some log₁ →
        (0 ≤ t.timeout log₁ → t.wakes ≤ t.polls + t.timeout log₁ * 1000000 + delay) ∧
        ∀ log₂, writeSome t.writes log₁ = some log₂ →
          Timely delay (lastReading t.wakes t.writes) (t.wakes + delay) ts log₂

def limitAfter (delay : ℤ) : ℤ → List Turn → ℤ
  | limit, [] => limit
  | _, t :: ts => limitAfter delay (t.wakes + delay) ts

theorem nextTimeout_le (now syncNow : ℤ) {state : SyncState} (waiters : List Waiter)
    (hpending : state.pending = true) (hr : state.remaining syncNow < 2 ^ 31) :
    0 ≤ nextTimeout now syncNow state waiters ∧
      nextTimeout now syncNow state waiters ≤ state.remaining syncNow := by
  have hfound := found_foldl fun r (hr : r ∈ awaited now syncNow state waiters) => awaited_nonneg hr
  rw [← nextTimeout_eq] at hfound
  have hmem : state.remaining syncNow ∈ awaited now syncNow state waiters := by
    rw [awaited, if_pos hpending]
    exact List.mem_cons_self
  have hpos : 0 ≤ nextTimeout now syncNow state waiters := by
    by_contra hneg
    have := hfound.none (not_le.mp hneg) _ hmem
    rw [wrap32_of_lt (awaited_nonneg hmem) hr] at this
    exact absurd (awaited_nonneg hmem) (not_le.mpr this)
  exact ⟨hpos, (hfound.least hpos).1 _ hmem⟩

/-- `poll` returns a little more than a second after the last `fsync`, if there is something to
sync. -/
theorem wakes_le {state : SyncState} (waiters : List Waiter) (hd : state.dirty = true)
    (hf : state.fsync = ascii "everysec") {polls wakes now syncNow delay : ℤ}
    (hlast : state.lastSync ≤ polls) (hnow : syncNow - state.lastSync < 1000000000)
    (hdelay : polls ≤ syncNow + delay) (hpos : 0 ≤ delay)
    (hw : 0 ≤ nextTimeout now polls state waiters →
      wakes ≤ polls + nextTimeout now polls state waiters * 1000000 + delay) :
    wakes ≤ state.lastSync + 1001000000 + 2 * delay := by
  have hpending : state.pending = true := by simp [SyncState.pending, hd, hf]
  have hremaining : state.remaining polls =
      max 0 (-(-(state.lastSync + 1000000000 - polls) / 1000000)) := rfl
  obtain ⟨htimeout, hle⟩ := nextTimeout_le now polls waiters hpending (by omega)
  have := hw htimeout
  omega

theorem Sound.turns (h : log.Sound) (hf : log.state.fsync = ascii "everysec")
    {delay last limit : ℤ} (hlast : log.state.lastSync ≤ last)
    (hbound : ∀ e ∈ log.unsynced, limit - e.2 ≤ 1001000000 + 3 * delay) {ts : List Turn}
    (ht : Timely delay last limit ts log) (hs : turns ts log = some log') :
    log'.Sound ∧ log'.state.fsync = ascii "everysec" ∧
      ∀ e ∈ log'.unsynced, limitAfter delay limit ts - e.2 ≤ 1001000000 + 3 * delay := by
  induction ts generalizing log last limit with
  | nil =>
    cases hs
    exact ⟨h, hf, hbound⟩
  | cons t ts ih =>
    obtain ⟨hnow, -, hafter, hpolls, hdelay, hwakes, horder, hlate, hturn⟩ := ht
    obtain ⟨log₂, hturn₂, hs⟩ := Option.bind_eq_some_iff.mp hs
    obtain ⟨log₁, hcheck, hwrites⟩ := Option.bind_eq_some_iff.mp hturn₂
    obtain ⟨hpoll, hnext⟩ := hturn log₁ hcheck
    obtain ⟨hsound₁, -, hf₁, hsub₁⟩ := h.syncIfDue hcheck
    have hlast₁ : log₁.state.lastSync ≤ t.sync.after := lastSync_le hcheck (by omega)
    obtain ⟨hsound₂, hf₂, hlast₂, hsub₂⟩ :=
      hsound₁.writeSome hwrites (hlast₁.trans (by omega)) horder
    refine ih hsound₂ (hf₂.trans (hf₁.trans hf)) hlast₂ ?_ (hnext log₂ hwrites) hs
    intro e he
    rcases hsub₂ e he with he | he
    · -- the byte was there when `poll` was called
      obtain ⟨hstate, hdirty, hearly⟩ := h.recent hf hcheck e he
      have hsleep := wakes_le t.waiters hdirty (hf₁.trans hf) (hlast₁.trans hpolls)
        (by rw [hstate]; exact hearly) hdelay (by omega) hpoll
      have := hsound₁.after e he
      omega
    · omega

/-- With `everysec`, in a loop no part of which takes longer than some delay, no byte waits for its
`fsync` longer than a second, a millisecond and three times the delay, whoever else waits: neither
when a turn ends nor before the next check, after which no byte has waited for a second. -/
theorem everysec_bound (delay now : ℤ) {ts : List Turn}
    (ht : Timely delay now (now + delay) ts (opened (ascii "everysec") now))
    (hs : turns ts (opened (ascii "everysec") now) = some log) :
    (∀ e ∈ log.unsynced, limitAfter delay (now + delay) ts - e.2 ≤ 1001000000 + 3 * delay) ∧
      ∀ sync log', log.syncIfDue sync = some log' →
        ∀ e ∈ log'.unsynced, sync.now - e.2 < 1000000000 := by
  obtain ⟨hsound, hf, hbound⟩ := (sound_opened (ascii "everysec") now).turns rfl le_rfl
    (fun e he => by simp [opened, unsynced] at he) ht hs
  refine ⟨hbound, ?_⟩
  intro sync log' hcheck e he
  obtain ⟨-, -, hearly⟩ := hsound.recent hf hcheck e he
  obtain ⟨-, -, -, hsub⟩ := hsound.syncIfDue hcheck
  have := hsound.after e (hsub e he)
  omega

/-- A byte is written, and a check comes too early for it. -/
theorem everysec_bound_two :
    let ts : List Turn :=
      [⟨⟨1, 1, true⟩, [], 2, 2, 5, [⟨[42], [.interrupted, .wrote 1], 6, ⟨7, 7, true⟩⟩]⟩,
        ⟨⟨8, 8, true⟩, [patient], 9, 9, 1000000008, []⟩]
    let log : Log := ⟨[(42, 6)], 0, ⟨ascii "everysec", true, 0⟩⟩
    (∀ e ∈ log.unsynced, limitAfter 10 10 ts - e.2 ≤ 1001000000 + 3 * 10) ∧
      ∀ sync log', log.syncIfDue sync = some log' →
        ∀ e ∈ log'.unsynced, sync.now - e.2 < 1000000000 := by
  intro ts log
  have hs : turns ts (opened (ascii "everysec") 0) = some log := rfl
  refine everysec_bound 10 0 ⟨by decide, by decide, by decide, by decide, by decide, by decide,
    ⟨by decide, by decide, by decide, trivial⟩, by decide, ?_⟩ hs
  intro log₁ h₁
  obtain rfl := Option.some.inj (h₁ : some _ = some log₁)
  refine ⟨by decide, ?_⟩
  intro log₂ h₂
  obtain rfl := Option.some.inj (h₂ : some _ = some log₂)
  refine ⟨by decide, by decide, by decide, by decide, by decide, by decide, trivial, by decide, ?_⟩
  intro log₃ h₃
  obtain rfl := Option.some.inj (h₃ : some _ = some log₃)
  exact ⟨by decide, fun _ _ => trivial⟩

/-- A log with some option for its syncs, all of which is on disk if the option is `always`. -/
structure Kept (fsync : Bytes) (log : Log) : Prop where
  option : log.state.fsync = fsync
  synced : fsync = ascii "always" → log.synced = log.written.length

variable {fsync : Bytes}

theorem Kept.syncIfDue (h : log.Kept fsync) {sync : Sync} (hs : log.syncIfDue sync = some log') :
    log'.Kept fsync ∧ log'.written = log.written := by
  rcases syncIfDue_cases hs with ⟨rfl, -⟩ | rfl
  · exact ⟨h, rfl⟩
  · exact ⟨⟨h.option, fun _ => rfl⟩, rfl⟩

theorem Kept.write (h : log.Kept fsync) {w : Write} (hw : log.write w = some log') :
    log'.Kept fsync ∧ log'.written.map Prod.fst = log.written.map Prod.fst ++ w.bytes := by
  rw [Log.write] at hw
  obtain ⟨hdone, hs⟩ := Option.ite_none_right_eq_some.mp hw
  rw [(writeAll_spec w.results w.bytes).2 hdone] at hs
  rcases syncIfDue_cases hs with ⟨rfl, hclean | hno | ⟨hevery, -⟩⟩ | rfl
  · cases hclean
  · refine ⟨⟨h.option, fun halways => ?_⟩, by simp [Function.comp_def]⟩
    exact absurd (halways.symm.trans (h.option.symm.trans hno)) (by decide)
  · refine ⟨⟨h.option, fun halways => ?_⟩, by simp [Function.comp_def]⟩
    exact absurd (halways.symm.trans (h.option.symm.trans hevery)) (by decide)
  · exact ⟨⟨h.option, fun _ => rfl⟩, by simp [Function.comp_def]⟩

theorem Kept.writeSome (h : log.Kept fsync) {ws : List Write}
    (hw : writeSome ws log = some log') : log'.Kept fsync ∧
      log'.written.map Prod.fst = log.written.map Prod.fst ++ ws.flatMap (·.bytes) := by
  induction ws generalizing log with
  | nil =>
    cases hw
    exact ⟨h, by simp⟩
  | cons w ws ih =>
    obtain ⟨log₁, hw₁, hw₂⟩ := Option.bind_eq_some_iff.mp hw
    obtain ⟨hkept, hbytes⟩ := h.write hw₁
    obtain ⟨hkept', hbytes'⟩ := ih hkept hw₂
    exact ⟨hkept', by rw [hbytes', hbytes, List.flatMap_cons, List.append_assoc]⟩

theorem Kept.turns (h : log.Kept fsync) {ts : List Turn} (hs : turns ts log = some log') :
    log'.Kept fsync ∧ log'.written.map Prod.fst =
      log.written.map Prod.fst ++ (ts.flatMap (·.writes)).flatMap (·.bytes) := by
  induction ts generalizing log with
  | nil =>
    cases hs
    exact ⟨h, by simp⟩
  | cons t ts ih =>
    obtain ⟨log₂, hturn, hs⟩ := Option.bind_eq_some_iff.mp hs
    obtain ⟨log₁, hcheck, hwrites⟩ := Option.bind_eq_some_iff.mp hturn
    obtain ⟨hkept₁, hwritten⟩ := h.syncIfDue hcheck
    obtain ⟨hkept₂, hbytes⟩ := hkept₁.writeSome hwrites
    obtain ⟨hkept', hbytes'⟩ := ih hkept₂ hs
    refine ⟨hkept', ?_⟩
    rw [hbytes', hbytes, hwritten, List.flatMap_cons, List.flatMap_append, List.append_assoc]

/-- Whatever becomes of the single calls of `::write`, the file gets all that was appended, once
and in order, as long as nothing is thrown. With `always` all of it is on disk each time that a
write has returned. -/
theorem appended_exact (fsync : Bytes) (now : ℤ) (ts : List Turn)
    (hs : turns ts (opened fsync now) = some log) :
    log.written.map Prod.fst = (ts.flatMap (·.writes)).flatMap (·.bytes) ∧
      (fsync = ascii "always" → log.synced = log.written.length) := by
  have hopened : (opened fsync now).Kept fsync := ⟨rfl, fun _ => rfl⟩
  obtain ⟨hkept, hbytes⟩ := hopened.turns hs
  exact ⟨hbytes, hkept.synced⟩

theorem appended_exact_short :
    (⟨[(1, 6), (2, 6), (3, 6)], 3, ⟨ascii "always", false, 7⟩⟩ : Log).written.map Prod.fst =
        [1, 2, 3] ∧
      (ascii "always" = ascii "always" →
        (⟨[(1, 6), (2, 6), (3, 6)], 3, ⟨ascii "always", false, 7⟩⟩ : Log).synced =
          ([(1, 6), (2, 6), (3, 6)] : List (UInt8 × ℤ)).length) :=
  appended_exact (ascii "always") 0 [⟨⟨1, 1, true⟩, [], 2, 2, 5,
    [⟨[1, 2, 3], [.wrote 1, .interrupted, .wrote 2], 6, ⟨7, 7, true⟩⟩]⟩] rfl

end Log

end TrueStore.Aof
