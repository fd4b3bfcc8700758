import TrueStore.Command.Interleaving
import TrueStore.Invariants.Sweep

/-! # Lazy expiry cannot be observed

There is no sweep of expired strings: a command removes the ones that it looks at. A sweep at the
time of a command would make no difference to it, and so none to any run.
-/

namespace TrueStore

open RespType

variable {F : Type} [Platform F]

namespace Keyspace

/-- A later sweep removes what an earlier one does. -/
theorem sweep_sweep_of_le (ks : Keyspace F) {c c' : Clock} (h : c.steady ≤ c'.steady) :
    (ks.sweep c).sweep c' = ks.sweep c' := by
  have himp : ∀ k, ks.expired c k = true → ks.expired c' k = true := by
    intro k hk
    unfold expired at hk ⊢
    cases hd : ks.expirations[k]? with
    | none => simp [hd] at hk
    | some deadline =>
      simp only [hd, Option.any_some, decide_eq_true_eq] at hk ⊢
      exact le_trans hk h
  have hexpired : ∀ k, (ks.sweep c).expired c' k = (ks.expired c' k && !ks.expired c k) := by
    intro k
    rw [expired, sweep_expirations]
    cases hk : ks.expired c k with
    | true => simp
    | false => simp [expired]
  refine Keyspace.ext ?_ ?_ rfl rfl rfl
  · refine Std.ExtTreeMap.ext_getElem? fun k => ?_
    rw [sweep_storage, sweep_storage, sweep_storage, hexpired]
    cases hk : ks.expired c k with
    | true => simp [himp k hk]
    | false => simp
  · refine Std.ExtTreeMap.ext_getElem? fun k => ?_
    rw [sweep_expirations, sweep_expirations, sweep_expirations, hexpired]
    cases hk : ks.expired c k with
    | true => simp [himp k hk]
    | false => simp

theorem peek_eq_sweep (ks : Keyspace F) (c : Clock) (key : Bytes) :
    (ks.peek c key).1 = (ks.sweep c).storage[key]? := by
  rw [sweep_storage]
  simp only [peek, isExpired_eq]
  cases h : ks.expired c key with
  | true => rfl
  | false => simp [evict_eq, h]

theorem alike_watchKeys {c : Clock} {a b : Keyspace F} (h : a.sweep c = b.sweep c)
    (keys : List Bytes) : Alike c (watchKeys (once c) keys a) (watchKeys (once c) keys b) := by
  induction keys generalizing a b with
  | nil => exact ⟨rfl, h⟩
  | cons key keys ih =>
    have hevict : (a.evict c key).sweep c = (b.evict c key).sweep c := (fresh_evict h).sweep
    obtain ⟨hwatched, hsweep⟩ := ih hevict
    simp only [watchKeys, once, peek_eq_sweep, peek_snd, h]
    exact ⟨congrArg (_ :: ·) hwatched, hsweep⟩

theorem alike_watchedDirty {c : Clock} {a b : Keyspace F} (h : a.sweep c = b.sweep c)
    (watched : List (Bytes × Option Bytes)) :
    Alike c (watchedDirty (once c) watched a) (watchedDirty (once c) watched b) := by
  induction watched generalizing a b with
  | nil => exact ⟨rfl, h⟩
  | cons entry watched ih =>
    have hevict : (a.evict c entry.1).sweep c = (b.evict c entry.1).sweep c :=
      (fresh_evict h).sweep
    simp only [watchedDirty, once, peek_eq_sweep, peek_snd, h]
    split
    · exact ⟨rfl, hevict⟩
    · exact ih hevict

end Keyspace

open Keyspace

/-- Stores that differ in strings whose time has passed. -/
structure Store.Alike (c : Clock) (s s' : Store F) : Prop where
  rest : s' = { s with toKeyspace := s'.toKeyspace }
  sweep : s.toKeyspace.sweep c = s'.toKeyspace.sweep c
  plain : s.toKeyspace.Plain
  plain' : s'.toKeyspace.Plain

namespace Store.Alike

variable {c c' : Clock} {s s' : Store F}

theorem later (h : s.Alike c s') (hle : c.steady ≤ c'.steady) : s.Alike c' s' where
  rest := h.rest
  sweep := by rw [← sweep_sweep_of_le _ hle, h.sweep, sweep_sweep_of_le _ hle]
  plain := h.plain
  plain' := h.plain'

theorem replace (h : s.Alike c s') (ks ks' : Keyspace F) :
    ({ s' with toKeyspace := ks' } : Store F) =
      { { s with toKeyspace := ks } with toKeyspace := ks' } := by
  have hrest := h.rest
  generalize s'.toKeyspace = data at hrest
  subst hrest
  rfl

theorem evicts (h : s.Alike c s') {ks ks' : Keyspace F} (hs : Evicts (once c) s.toKeyspace ks)
    (hs' : Evicts (once c) s'.toKeyspace ks') :
    Store.Alike c { s with toKeyspace := ks } { s' with toKeyspace := ks' } where
  rest := h.replace ks ks'
  sweep := by
    change ks.sweep c = ks'.sweep c
    rw [sweep_evicts c hs, sweep_evicts c hs', h.sweep]
  plain := h.plain.evicts hs
  plain' := h.plain'.evicts hs'

theorem map (h : s.Alike c s') {f : Store F → Store F}
    (hf : ∀ (s : Store F) ks, f { s with toKeyspace := ks } = { f s with toKeyspace := ks })
    (hdata : ∀ s : Store F, (f s).toKeyspace = s.toKeyspace) : (f s).Alike c (f s') where
  rest := by
    rw [hdata]
    exact (congrArg f h.rest).trans (hf s s'.toKeyspace)
  sweep := by rw [hdata, hdata, h.sweep]
  plain := by rw [hdata]; exact h.plain
  plain' := by rw [hdata]; exact h.plain'

end Store.Alike

def IsTimed (args : List Bytes) : Prop :=
  ∃ command, commandName (upperName args) = some (.data command) ∧ command.timed = true

theorem alike_dispatchCommand {c : Clock} {args : List Bytes} (hargs : IsTimed args) {s s' : Store F}
    (h : s.Alike c s') (client : ClientState) :
    (dispatchCommand (once c) args s client).1 = (dispatchCommand (once c) args s' client).1 ∧
    Store.Alike c (dispatchCommand (once c) args s client).2.1
      (dispatchCommand (once c) args s' client).2.1 ∧
    (dispatchCommand (once c) args s client).2.2 = client ∧
    (dispatchCommand (once c) args s' client).2.2 = client := by
  obtain ⟨command, hname, htimed⟩ := hargs
  have hdata : dataCommand args = some command := by simp only [dataCommand, hname]
  obtain ⟨hreply, hsweep⟩ := command.alike_dispatch htimed args h.sweep h.plain.toTyped
    h.plain'.toTyped
  simp only [dispatchCommand, hname, Store.onData, and_true]
  refine ⟨hreply, ?_, hsweep, DataCommand.plain_dispatch htimed _ hdata h.plain,
    DataCommand.plain_dispatch htimed _ hdata h.plain'⟩
  exact h.replace _ _

theorem alike_execQueued {c : Clock} {args : List Bytes} (hargs : IsTimed args) {s s' : Store F}
    (h : s.Alike c s') (client : ClientState) :
    (execQueued (once c) args s client).1 = (execQueued (once c) args s' client).1 ∧
    Store.Alike c (execQueued (once c) args s client).2.1 (execQueued (once c) args s' client).2.1 ∧
    (execQueued (once c) args s client).2.2 = client ∧
    (execQueued (once c) args s' client).2.2 = client := by
  obtain ⟨hreply, halike, hclient, hclient'⟩ := alike_dispatchCommand hargs h client
  have hblock : (dispatchCommand (once c) args s client).2.1.pendingBlock =
      (dispatchCommand (once c) args s' client).2.1.pendingBlock := by
    rw [halike.rest]
  unfold execQueued
  dsimp only
  rw [hblock, hreply]
  refine ⟨rfl, ?_, hclient, hclient'⟩
  generalize (isWriteCommand (upperName args) && _) = writes
  refine halike.map (f := fun s => if writes then
    Store.queuePropagation { s with pendingBlock := none } args
    else { s with pendingBlock := none }) (fun s ks => ?_) fun s => ?_
  · cases writes <;> rfl
  · cases writes <;> rfl

theorem alike_execQueue (times : ℕ → Clock) (hmono : Monotone fun n => (times n).steady)
    {queue : List (List Bytes)} (hqueue : ∀ args ∈ queue, IsTimed args) {c : Clock}
    (hc : c.steady ≤ (times 0).steady) {s s' : Store F} (h : s.Alike c s') (client : ClientState) :
    (execQueue (fun n => once (times n)) queue s client).1 =
      (execQueue (fun n => once (times n)) queue s' client).1 ∧
    (execQueue (fun n => once (times n)) queue s client).2.2 =
      (execQueue (fun n => once (times n)) queue s' client).2.2 ∧
    ∀ later : Clock, c.steady ≤ later.steady →
      (∀ n < queue.length, (times n).steady ≤ later.steady) →
      Store.Alike later (execQueue (fun n => once (times n)) queue s client).2.1
        (execQueue (fun n => once (times n)) queue s' client).2.1 := by
  induction queue generalizing times c s s' with
  | nil => exact ⟨rfl, rfl, fun later hl _ => h.later hl⟩
  | cons args queue ih =>
    obtain ⟨hreply, halike, hclient, hclient'⟩ := alike_execQueued (hqueue args List.mem_cons_self)
      (h.later hc) client
    obtain ⟨hreplies, hclients, hlater⟩ := ih (fun n => times (n + 1))
      (fun m n hmn => hmono (Nat.add_le_add_right hmn 1))
      (fun q hq => hqueue q (List.mem_cons_of_mem _ hq)) (hmono (Nat.zero_le 1)) halike
    simp only [execQueue, hclient, hclient']
    refine ⟨by rw [hreply, hreplies], hclients, fun later _ hl => ?_⟩
    refine hlater later (hl 0 (by simp)) fun n hn => hl (n + 1) (by simpa using hn)

theorem alike_execTransaction {times : ℕ → Clock} (hmono : Monotone fun n => (times n).steady)
    {client : ClientState} (hqueue : ∀ args ∈ client.queued, IsTimed args) {s s' : Store F}
    (h : s.Alike (times 0) s') :
    (execTransaction (fun n => once (times n)) s client).1 =
      (execTransaction (fun n => once (times n)) s' client).1 ∧
    (execTransaction (fun n => once (times n)) s client).2.2 =
      (execTransaction (fun n => once (times n)) s' client).2.2 ∧
    ∀ later : Clock, (∀ n ≤ client.queued.length, (times n).steady ≤ later.steady) →
      Store.Alike later (execTransaction (fun n => once (times n)) s client).2.1
        (execTransaction (fun n => once (times n)) s' client).2.1 := by
  obtain ⟨hdirty, -⟩ := alike_watchedDirty h.sweep client.watched
  have hstore := h.evicts (evicts_watchedDirty client.watched (once (times 0)) s.toKeyspace)
    (evicts_watchedDirty client.watched (once (times 0)) s'.toKeyspace)
  unfold execTransaction
  dsimp only
  rw [hdirty]
  split
  · exact ⟨rfl, rfl, fun later hl => hstore.later (hl 0 (Nat.zero_le _))⟩
  · obtain ⟨hreplies, hclients, hlater⟩ := alike_execQueue (fun n => times (n + 1))
      (fun m n hmn => hmono (Nat.add_le_add_right hmn 1)) hqueue (hmono (Nat.zero_le 1)) hstore
      client.leaveMulti
    refine ⟨by rw [hreplies], hclients, fun later hl => ?_⟩
    exact hlater later (hl 0 (Nat.zero_le _)) fun n hn => hl (n + 1) hn

def timelyCommands : List Bytes :=
  ["SET", "GET", "STRLEN", "INCR", "SETBIT", "GETBIT", "BITCOUNT", "BITOP", "ZADD", "ZRANK",
    "ZRANGE", "ZCARD", "ZSCORE", "ZREM", "GEOADD", "GEOPOS", "GEODIST", "GEOSEARCH", "TYPE", "KEYS",
    "WATCH", "MULTI", "EXEC"].map ascii

theorem timely_cases {args : List Bytes} (h : upperName args ∈ timelyCommands) :
    upperName args ∉ controlCommands ∧ IsTimed args ∨ upperName args = ascii "WATCH" ∨
      upperName args = ascii "MULTI" ∨ upperName args = ascii "EXEC" := by
  have hall : ∀ name ∈ timelyCommands,
      name ∉ controlCommands ∧
        ((commandName name).bind CommandName.toData).any (·.timed) = true ∨
      name = ascii "WATCH" ∨ name = ascii "MULTI" ∨ name = ascii "EXEC" := by decide
  rcases hall _ h with ⟨hcontrol, hname⟩ | hname
  · refine Or.inl ⟨hcontrol, ?_⟩
    rw [Option.any_eq_true] at hname
    obtain ⟨command, hbind, htimed⟩ := hname
    obtain ⟨name, hcommand, hdata⟩ := Option.bind_eq_some_iff.mp hbind
    rw [CommandName.toData_eq_some_iff.mp hdata] at hcommand
    exact ⟨command, hcommand, htimed⟩
  · exact Or.inr hname

theorem alike_handleCommand {times : ℕ → Clock} (hmono : Monotone fun n => (times n).steady)
    {args : List Bytes} (hargs : upperName args ∈ timelyCommands) {client : ClientState}
    (hqueue : ∀ q ∈ client.queued, IsTimed q) {s s' : Store F} (h : s.Alike (times 0) s') :
    (handleCommand (fun n => once (times n)) args s client).1 =
      (handleCommand (fun n => once (times n)) args s' client).1 ∧
    (handleCommand (fun n => once (times n)) args s client).2.2 =
      (handleCommand (fun n => once (times n)) args s' client).2.2 ∧
    ∀ later : Clock, (∀ n ≤ client.queued.length, (times n).steady ≤ later.steady) →
      Store.Alike later (handleCommand (fun n => once (times n)) args s client).2.1
        (handleCommand (fun n => once (times n)) args s' client).2.1 := by
  have hrefusal : refusal args s' client = refusal args s client := by
    have hauto : s'.defaultUserAutoAuth = s.defaultUserAutoAuth := by rw [h.rest]; rfl
    simp only [refusal, hauto]
  have hstay : ∀ later : Clock, (∀ n ≤ client.queued.length, (times n).steady ≤ later.steady) →
      s.Alike later s' := fun later hl => h.later (hl 0 (Nat.zero_le _))
  unfold handleCommand
  rw [hrefusal]
  split
  · exact ⟨rfl, rfl, hstay⟩
  · rcases timely_cases hargs with ⟨hcontrol, htimed⟩ | hname | hname | hname
    · rw [runCommand_of_not_control hcontrol, runCommand_of_not_control hcontrol]
      split
      · exact ⟨rfl, rfl, hstay⟩
      · obtain ⟨hreply, halike, hclient, hclient'⟩ := alike_dispatchCommand htimed h client
        exact ⟨hreply, hclient.trans hclient'.symm,
          fun later hl => halike.later (hl 0 (Nat.zero_le _))⟩
    · have hq : ¬(ascii "WATCH" = ascii "QUIT" ∨ ascii "WATCH" = ascii "RESET") := by decide
      have hm : ascii "WATCH" ≠ ascii "MULTI" := by decide
      simp only [runCommand, hname, if_neg hq, if_neg hm, if_true]
      obtain ⟨hwatched, -⟩ := alike_watchKeys h.sweep args.tail
      split
      · exact ⟨rfl, rfl, hstay⟩
      · split
        · exact ⟨rfl, rfl, hstay⟩
        · refine ⟨rfl, by rw [hwatched], fun later hl => ?_⟩
          exact (h.evicts (evicts_watchKeys _ _ _) (evicts_watchKeys _ _ _)).later
            (hl 0 (Nat.zero_le _))
    · have hq : ¬(ascii "MULTI" = ascii "QUIT" ∨ ascii "MULTI" = ascii "RESET") := by decide
      simp only [runCommand, hname, if_neg hq, if_true]
      split
      · exact ⟨rfl, rfl, hstay⟩
      · split <;> exact ⟨rfl, rfl, hstay⟩
    · have hq : ¬(ascii "EXEC" = ascii "QUIT" ∨ ascii "EXEC" = ascii "RESET") := by decide
      have hm : ascii "EXEC" ≠ ascii "MULTI" := by decide
      have hw : ascii "EXEC" ≠ ascii "WATCH" := by decide
      have hu : ascii "EXEC" ≠ ascii "UNWATCH" := by decide
      have hd : ascii "EXEC" ≠ ascii "DISCARD" := by decide
      simp only [runCommand, hname, if_neg hq, if_neg hm, if_neg hw, if_neg hu, if_neg hd, if_true]
      split
      · exact ⟨rfl, rfl, hstay⟩
      · exact alike_execTransaction hmono hqueue h

namespace World

def Timely : Turn F → Prop
  | .command _ _ args => upperName args ∈ timelyCommands
  | .elsewhere _ => False

/-- The data are strings and sorted sets, and so are the queued commands about them. -/
structure Plain (w : World F) : Prop where
  data : w.store.toKeyspace.Plain
  queued : ∀ fd, ∀ q ∈ (w.clients fd).queued, IsTimed q

theorem plain_dispatchCommand (clock : Readings) {args : List Bytes} (hargs : IsTimed args)
    {store : Store F} (h : store.toKeyspace.Plain) (client : ClientState) :
    (dispatchCommand clock args store client).2.1.toKeyspace.Plain ∧
      (dispatchCommand clock args store client).2.2 = client := by
  obtain ⟨command, hname, htimed⟩ := hargs
  have hdata : dataCommand args = some command := by simp only [dataCommand, hname]
  simp only [dispatchCommand, hname, Store.onData, and_true]
  exact DataCommand.plain_dispatch htimed clock hdata h

theorem plain_execQueue {queue : List (List Bytes)} (hqueue : ∀ q ∈ queue, IsTimed q)
    (clock : ℕ → Readings) {store : Store F} (h : store.toKeyspace.Plain) (client : ClientState) :
    (execQueue clock queue store client).2.1.toKeyspace.Plain ∧
      (execQueue clock queue store client).2.2 = client := by
  induction queue generalizing clock store with
  | nil => exact ⟨h, rfl⟩
  | cons args queue ih =>
    obtain ⟨hplain, hclient⟩ := plain_dispatchCommand (clock 0)
      (hqueue args List.mem_cons_self) h client
    have hqueued : (execQueued (clock 0) args store client).2.1.toKeyspace =
        (dispatchCommand (clock 0) args store client).2.1.toKeyspace := by
      simp only [execQueued]
      generalize (isWriteCommand (upperName args) && _) = writes
      cases writes <;> rfl
    have hclient' : (execQueued (clock 0) args store client).2.2 = client := hclient
    simp only [execQueue, hclient']
    exact ih (fun q hq => hqueue q (List.mem_cons_of_mem _ hq)) _ (hqueued ▸ hplain)

theorem plain_handleCommand {args : List Bytes} (hargs : upperName args ∈ timelyCommands)
    (clock : ℕ → Readings) {store : Store F} (h : store.toKeyspace.Plain) {client : ClientState}
    (hqueue : ∀ q ∈ client.queued, IsTimed q) :
    (handleCommand clock args store client).2.1.toKeyspace.Plain ∧
      ∀ q ∈ (handleCommand clock args store client).2.2.queued, IsTimed q := by
  have hhandled := handled_handleCommand clock args store client
  generalize handleCommand clock args store client = r at hhandled ⊢
  generalize commandCalls clock args store client = calls at hhandled
  have htimed : upperName args ∉ controlCommands → IsTimed args := by
    intro hnot
    rcases timely_cases hargs with ⟨-, ht⟩ | hname | hname | hname
    · exact ht
    · exact absurd (hname ▸ by decide) hnot
    · exact absurd (hname ▸ by decide) hnot
    · exact absurd (hname ▸ by decide) hnot
  cases hhandled with
  | refused _ => exact ⟨h, hqueue⟩
  | steered hs =>
    refine ⟨h.evicts hs.data, ?_⟩
    rcases hs.queue with hq | hq <;> rw [hq]
    · exact hqueue
    · exact fun q hmem => by cases hmem
  | exec _ _ =>
    have hwatched := h.evicts (evicts_watchedDirty client.watched (clock 0) store.toKeyspace)
    unfold execTransaction
    dsimp only
    split
    · exact ⟨hwatched, fun q hmem => by cases hmem⟩
    · have hplain' : { store with toKeyspace := (watchedDirty (clock 0) client.watched
          store.toKeyspace).2 }.toKeyspace.Plain := hwatched
      obtain ⟨hplain, hclient⟩ := plain_execQueue hqueue (fun i => clock (i + 1)) hplain'
        client.leaveMulti
      refine ⟨hplain, ?_⟩
      rw [hclient]
      exact fun q hmem => by cases hmem
  | queued _ _ hnot =>
    refine ⟨h, fun q hmem => ?_⟩
    rcases List.mem_append.mp hmem with hmem | hmem
    · exact hqueue q hmem
    · rw [List.mem_singleton.mp hmem]
      exact htimed hnot
  | dispatched _ _ hnot =>
    obtain ⟨hplain, hclient⟩ := plain_dispatchCommand (clock 0) (htimed hnot) h client
    refine ⟨hplain, ?_⟩
    rw [hclient]
    exact hqueue

theorem Plain.play {w : World F} (h : w.Plain) {t : Turn F} (ht : Timely t) : (w.play t).Plain := by
  cases t with
  | elsewhere change => exact ht.elim
  | command fd clock args =>
    obtain ⟨hdata, hqueue⟩ := plain_handleCommand ht clock h.data (h.queued fd)
    refine ⟨hdata, fun fd' => ?_⟩
    by_cases hfd : fd' = fd
    · subst hfd
      simp only [World.play, Function.update_self]
      exact hqueue
    · simp only [World.play, Function.update_of_ne hfd]
      exact h.queued fd'

theorem Plain.playAll {w : World F} (h : w.Plain) {turns : List (Turn F)}
    (ht : ∀ t ∈ turns, Timely t) : (World.playAll turns w).Plain := by
  induction turns generalizing w with
  | nil => exact h
  | cons t turns ih =>
    exact ih (h.play (ht t List.mem_cons_self)) fun t' hm => ht t' (List.mem_cons_of_mem _ hm)

def swept (w : World F) (c : Clock) : World F :=
  { w with store := { w.store with toKeyspace := w.store.toKeyspace.sweep c } }

/-- Lazy expiry cannot be observed. After any commands on strings and sorted sets no key holds
both, and a command gives the same reply and leaves the same unexpired data as it does after a
sweep at its time. -/
theorem lazy_expiry_invisible {store : Store F} (hstore : store.toKeyspace = {})
    {turns : List (Turn F)} (hturns : ∀ t ∈ turns, Timely t) :
    let w := World.playAll turns (fresh store)
    (∀ key, ¬(w.store.storage.contains key = true ∧ w.store.sortedSets.contains key = true)) ∧
    ∀ fd args (times : ℕ → Clock), upperName args ∈ timelyCommands →
      Monotone (fun n => (times n).steady) →
      let r := w.handle fd (fun n => once (times n)) args
      let r' := (w.swept (times 0)).handle fd (fun n => once (times n)) args
      r.1 = r'.1 ∧ r.2.2 = r'.2.2 ∧
      ∀ later : Clock, (∀ n ≤ (w.clients fd).queued.length, (times n).steady ≤ later.steady) →
        r.2.1.toKeyspace.sweep later = r'.2.1.toKeyspace.sweep later := by
  intro w
  have hfresh : (fresh store).Plain := by
    refine ⟨?_, fun fd q hq => by cases hq⟩
    have hdata : (fresh store).store.toKeyspace = {} := hstore
    rw [hdata]
    exact plain_empty
  have hw : w.Plain := hfresh.playAll hturns
  refine ⟨fun key hk => ?_, fun fd args times hargs hmono => ?_⟩
  · cases hw.data.one key .string .zset hk.1 hk.2
  · have halike : w.store.Alike (times 0) (w.swept (times 0)).store :=
      ⟨rfl, (sweep_sweep _ _).symm, hw.data, hw.data.sweep _⟩
    obtain ⟨hreply, hclient, hlater⟩ := alike_handleCommand hmono hargs (hw.queued fd) halike
    exact ⟨hreply, hclient, fun later hl => (hlater later hl).sweep⟩

/-- A string that is read after its time. -/
theorem lazy_expiry_invisible_get :
    let turns : List (Turn Whole) := [.command 5 (fun _ _ => ⟨0, 0⟩)
      [ascii "SET", ascii "k", ascii "v", ascii "PX", ascii "1"]]
    let w := World.playAll turns (fresh {})
    let now : Clock := ⟨2000000, 2⟩
    w.store.storage.contains (ascii "k") = true ∧
    (w.handle 5 (fun _ => once now) [ascii "GET", ascii "k"]).1 = nullBulkString.toBytes ∧
    (w.handle 5 (fun _ => once now) [ascii "GET", ascii "k"]).1 =
      ((w.swept now).handle 5 (fun _ => once now) [ascii "GET", ascii "k"]).1 := by
  intro turns w now
  have hturns : ∀ t ∈ turns, Timely t := by
    intro t ht
    rw [List.mem_singleton.mp ht]
    change upperName _ ∈ timelyCommands
    decide
  have h := (lazy_expiry_invisible (rfl : ({} : Store Whole).toKeyspace = {}) hturns).2 5
    [ascii "GET", ascii "k"]
    (fun _ => now) (by decide) fun m n _ => le_rfl
  exact ⟨by decide, by decide, h.1⟩

end World

end TrueStore
