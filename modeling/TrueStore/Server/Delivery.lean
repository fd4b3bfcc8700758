import TrueStore.Invariants.StreamKeys
import TrueStore.Server.Consumers

/-! # Every entry once

Over a whole run a consumer has received a prefix of the entries after its first ID, and it has
all of them when it has read without a count.
-/

namespace TrueStore

open RespType Keyspace

variable {F : Type} [Platform F]

theorem streams_of_holds {ks : Keyspace F} {key : Bytes} {log : List (StreamID × StreamEntryData)}
    (h : (ks.streamAt key).Holds log) : log = [] ∨ ks.streams.contains key = true := by
  by_cases hk : ks.streams.contains key = true
  · exact .inr hk
  · have hempty : ks.streamAt key = {} :=
      Std.ExtTreeMap.getD_eq_fallback_of_contains_eq_false (Bool.eq_false_of_not_eq_true hk)
    rw [hempty] at h
    have htree := h.tree
    exact .inl (List.map_eq_nil_iff.mp htree.symm)

theorem refusal_xreadArgs {count block : Option Bytes} {key : Bytes} {id : StreamID}
    {store : Store F} {client : ClientState}
    (hauth : (client.authenticated || store.defaultUserAutoAuth) = true)
    (hfree : client.subscriptions.isEmpty = true) :
    refusal (xreadArgs count block key id) store client = none := by
  have hne : xreadArgs count block key id ≠ [] := by simp [xreadArgs]
  unfold refusal
  dsimp only
  rw [if_neg hne, if_neg, if_neg]
  · simp [hfree]
  · rintro ⟨hclient, hdefault, -⟩
    simp_all

theorem handleCommand_xread_all {store : Store F} {key : Bytes}
    {log : List (StreamID × StreamEntryData)} (h : (store.streamAt key).Holds log)
    (hz : log = [] ∨ store.sortedSets.contains key = false) (clock : ℕ → Readings) (id : StreamID)
    {client : ClientState} (hrefusal : refusal (xreadArgs none none key id) store client = none)
    (hmulti : client.inMulti = false) :
    let r := handleCommand clock (xreadArgs none none key id) store client
    r.2.1.pendingBlock = none ∧ r.1 ≠ [] ∧ entriesIn key r.1 = Stream.after log id 0 := by
  have hname := upperName_xreadArgs none none key id
  have hcontrol : upperName (xreadArgs none none key id) ∉ controlCommands := by
    rw [hname]
    decide
  have hxread : commandName (upperName (xreadArgs none none key id)) = some .xread := by
    rw [hname]
    decide
  obtain ⟨hstore, hne, hentries⟩ := Store.handleXread_all h hz id
  unfold handleCommand
  rw [hrefusal]
  dsimp only
  rw [runCommand_of_not_control hcontrol, if_neg (by simp [hmulti])]
  unfold dispatchCommand
  dsimp only
  rw [hxread]
  exact ⟨by rw [hstore], hne, hentries⟩

namespace Server

variable {consumer : ℤ} {key : Bytes} {initial : StreamID}

def Plain (consumer : ℤ) (s : Server F) : Prop :=
  ∀ client : ClientState, s.clients[consumer]? = some client →
    client.inMulti = false ∧ client.subscriptions.isEmpty = true

section Connection

variable {s s' : Server F}

theorem Plain.insert (h : s.Plain consumer) {fd : ℤ} {client : ClientState}
    (hc : s'.clients = s.clients.insert fd client)
    (hfd : fd = consumer → client.inMulti = false ∧ client.subscriptions.isEmpty = true) :
    s'.Plain consumer := by
  intro client' hclient
  rw [hc, Std.ExtTreeMap.getElem?_insert] at hclient
  split at hclient
  · rename_i he
    cases hclient
    exact hfd (Std.compare_eq_iff_eq.mp he)
  · exact h client' hclient

theorem gentle_plain : Gentle (Plain consumer : Server F → Prop) where
  keep h hc _ _ := by
    intro client hclient
    rw [hc] at hclient
    exact h client hclient
  close fd h := by
    intro client hclient
    rw [closeClient, Std.ExtTreeMap.getElem?_erase] at hclient
    split at hclient
    · cases hclient
    · exact h client hclient
  offset {s fd client} n hc h := by
    refine h.insert rfl ?_
    rintro rfl
    exact h client hc

theorem client_handleCommand_xread (clock : ℕ → Readings) (count block : Option Bytes)
    (id : StreamID) (store : Store F) {client : ClientState} (hmulti : client.inMulti = false) :
    (handleCommand clock (xreadArgs count block key id) store client).2.2 = client := by
  have hname := upperName_xreadArgs count block key id
  have hcontrol : upperName (xreadArgs count block key id) ∉ controlCommands := by
    rw [hname]
    decide
  have hxread : commandName (upperName (xreadArgs count block key id)) = some .xread := by
    rw [hname]
    decide
  unfold handleCommand
  split
  · rfl
  · rw [runCommand_of_not_control hcontrol, if_neg (by simp [hmulti])]
    unfold dispatchCommand
    dsimp only
    rw [hxread]

theorem Plain.handle (h : s.Plain consumer) {env : Env} {fd : ℤ} {args : List Bytes}
    (hargs : fd = consumer → ∃ count block id, args = xreadArgs count block key id)
    (hfd : fd ∈ s.clients) : (s.handle env 0 fd args).2.Plain consumer := by
  obtain ⟨client, hclient⟩ : ∃ client, s.clients[fd]? = some client := by
    rwa [← Option.isSome_iff_exists, ← Std.ExtTreeMap.mem_iff_isSome_getElem?]
  have hget : s.clients.getD fd {} = client := by
    simp [Std.ExtTreeMap.getD_eq_getD_getElem?, hclient]
  refine h.insert rfl fun hconsumer => ?_
  obtain ⟨count, block, id, rfl⟩ := hargs hconsumer
  subst hconsumer
  have hplain := h client hclient
  rw [hget, client_handleCommand_xread _ count block id _ hplain.1]
  exact hplain

theorem plain_step (env : Env) {event : Event} (h : s.Holds (Plain consumer))
    (hm : s.masterFd = none) (hreads : event.Reads consumer key initial s) :
    (s.step env event).Holds (Plain consumer) := by
  unfold Server.step
  split
  · exact h
  cases event with
  | accept fd =>
    dsimp only [accept]
    split
    · exact h
    · refine ⟨h.holds.insert rfl fun _ => ⟨rfl, rfl⟩, fun w hw => ?_⟩
      exact mem_clients_insert.mpr (.inr (h.waiting w hw))
  | request fd r =>
    dsimp only
    split
    · exact h
    · have hargs : fd = consumer → ∃ count block id, r.args = xreadArgs count block key id := by
        intro hconsumer
        obtain ⟨-, count, block, hargs⟩ := hreads hconsumer
        exact ⟨count, block, _, hargs⟩
      exact gentle_plain.holds_command env (fun hfd => h.holds.handle hargs hfd) h
  | hangup fd =>
    dsimp only
    split
    · exact gentle_plain.holds_close fd h
    · exact h
  | chunk bytes =>
    simp only [fromMaster, hm]
    exact h
  | masterClosed =>
    simp only [masterClosed, hm]
    exact h
  | round => exact gentle_plain.holds_round env h

end Connection

theorem received_all {s : Server F} {log : List (StreamID × StreamEntryData)}
    (hlog : (s.store.streamAt key).Holds log)
    (hpre : s.received consumer key <+: log.filter fun e => initial.lt e.1)
    (hz : log = [] ∨ s.store.sortedSets.contains key = false) {env : Env}
    (hok : ∀ n, env.sendOk n = true) {client : ClientState}
    (hclient : s.clients[consumer]? = some client) (hmulti : client.inMulti = false)
    (hrefusal : refusal (xreadArgs none none key (lastId initial (s.received consumer key)))
      s.store client = none) :
    (s.command env consumer (xreadArgs none none key
      (lastId initial (s.received consumer key)))).received consumer key =
        log.filter fun e => initial.lt e.1 := by
  set id := lastId initial (s.received consumer key) with hid
  obtain ⟨t, ht, he⟩ := command_ready env hclient (ackText_xreadArgs none none id client s)
  obtain ⟨hblock, hne, hentries⟩ := handleCommand_xread_all hlog hz (env.clock 0) id hrefusal hmulti
  rw [he]
  set reply := (handleCommand (env.clock 0) (xreadArgs none none key id) s.store client).1
  obtain ⟨-, -, hcases⟩ := respond_cases env consumer reply t
  set u := t.respond env consumer reply
  have hu : u.2.received consumer key = log.filter fun e => initial.lt e.1 := by
    rcases hcases with ⟨b, _, hb, -⟩ | ⟨-, hnil, -⟩ | ⟨-, -, hanswers⟩
    · rw [ht.block, hblock] at hb
      cases hb
    · exact absurd hnil hne
    · rw [received_append consumer key hanswers, received_congr ht.answers, gained,
        if_pos ⟨rfl, hok _⟩, hentries, hid]
      exact (Stream.after_lastId hlog.increasing hpre 0).2
  dsimp only
  split
  · rw [received_congr (answers_finish env consumer u.2).1]
    exact hu
  · exact hu

/-- The consumer sends nothing but requests that read on, one at a time. -/
def Follows (consumer : ℤ) (key : Bytes) (initial : StreamID) :
    List (Env × Event) → Server F → Prop
  | [], _ => True
  | (env, event) :: events, s =>
    event.Reads consumer key initial s ∧ Follows consumer key initial events (s.step env event)

theorem calls_prefix_step {s : Server F} (hl : s.Logged Anything Always) (hs : s.Streamed)
    (env : Env) (event : Event) : s.calls <+: (s.step env event).calls := by
  have h : Accounted Anything Always s (s.step env event) := accounted_step popClosed_anything
    hl.settled (fun _ _ => trivial) event.carries_anything (.inl hs.masterFd)
  obtain ⟨calls, _, _, hadv, -⟩ := h
  rw [hadv.calls_eq]
  exact List.prefix_append _ _

theorem calls_prefix_run {s : Server F} (hl : s.Logged Anything Always) (hs : s.Streamed)
    (events : List (Env × Event)) : s.calls <+: (run events s).calls := by
  induction events generalizing s with
  | nil => exact List.prefix_refl _
  | cons e events ih =>
    obtain ⟨hl', hs'⟩ := hs.accounted hl (accounted_step (T := Always) popClosed_anything hl.settled
      (fun _ _ => trivial) e.2.carries_anything (.inl hs.masterFd))
    exact (calls_prefix_step hl hs e.1 e.2).trans (ih hl' hs')

theorem tracks_run {events : List (Env × Event)} {s : Server F} (hl : s.Logged Anything Always)
    (hs : s.Streamed) (hf : Follows consumer key initial events s)
    (hc : ∀ c ∈ (run events s).calls, c.overwrites key = false)
    (h : Tracks consumer key initial s.waiters s) (hplain : s.Holds (Plain consumer)) :
    Tracks consumer key initial (run events s).waiters (run events s) ∧
      (run events s).Holds (Plain consumer) := by
  induction events generalizing s with
  | nil => exact ⟨h, hplain⟩
  | cons e events ih =>
    obtain ⟨hl', hs'⟩ := hs.accounted hl (accounted_step (T := Always) popClosed_anything hl.settled
      (fun _ _ => trivial) e.2.carries_anything (.inl hs.masterFd))
    have hstep : ∀ c ∈ (s.step e.1 e.2).calls, c.overwrites key = false :=
      fun c hm => hc c ((calls_prefix_run hl' hs' events).subset hm)
    exact ih hl' hs' hf.2 hc (tracks_step hf.1 hl.settled.block hs.masterFd hstep h)
      (plain_step e.1 hplain hs.masterFd hf.1)

theorem tracks_start (config : Config) (replid : ReplId) :
    Tracks consumer key initial (start config replid : Server F).waiters
      (start config replid : Server F) where
  log := ⟨[], Stream.holds_empty, List.prefix_refl _⟩
  waits w hw := by cases hw
  once := Nat.zero_le _

theorem plain_start (config : Config) (replid : ReplId) :
    (start config replid : Server F).Holds (Plain consumer) where
  holds client hclient := by simp [start] at hclient
  waiting w hw := by cases hw

/-- A consumer that reads on after the last ID that it has received, whatever the other clients
do, has at all times a prefix of the entries after its first ID. It has all of them when it has
read without a count and without waiting. -/
theorem consumer_receives_in_order (config : Config) (replid : ReplId) (consumer : ℤ) (key : Bytes)
    (initial : StreamID) (events : List (Env × Event))
    (hf : Follows consumer key initial events (start config replid : Server F))
    (hc : ∀ c ∈ (run events (start config replid : Server F)).calls, c.overwrites key = false) :
    let s : Server F := run events (start config replid)
    ∃ log, (s.store.streamAt key).Holds log ∧
      s.received consumer key <+: (log.filter fun e => initial.lt e.1) ∧
      ∀ (env : Env) (client : ClientState), (∀ n, env.sendOk n = true) →
        s.clients[consumer]? = some client →
        (client.authenticated || s.store.defaultUserAutoAuth) = true →
        (s.command env consumer (xreadArgs none none key
          (lastId initial (s.received consumer key)))).received consumer key =
            log.filter fun e => initial.lt e.1 := by
  intro s
  have hl : s.Logged Anything Always := (logged_run popClosed_anything
    (fun e _ => e.2.carries_anything) (fun _ _ _ _ => trivial) (logged_start config replid)
    (streamed_start config replid)).1
  obtain ⟨htracks, hplain⟩ := tracks_run (logged_start config replid)
    (streamed_start config replid) hf hc (tracks_start config replid) (plain_start config replid)
  obtain ⟨log, hlog, hpre⟩ := htracks.log
  refine ⟨log, hlog, hpre, fun env client hok hclient hauth => ?_⟩
  have hz : log = [] ∨ s.store.sortedSets.contains key = false :=
    (streams_of_holds hlog).imp id fun hk => hl.chain.sortedSets_of_stream hc hk
  obtain ⟨hmulti, hfree⟩ := hplain.holds client hclient
  exact received_all hlog hpre hz hok hclient hmulti (refusal_xreadArgs hauth hfree)

/-- One client adds three entries to a stream, one of them with the largest sequence number. A
consumer reads one of them, waits for more, and is served. -/
def reading : List (Env × Event) :=
  [(.still, .accept 5), (.still, .accept 6),
    asks 6 [ascii "XADD", ascii "s", ascii "1-1", ascii "f", ascii "a"] (by decide),
    asks 5 (xreadArgs (some (ascii "1")) none (ascii "s") ⟨0, 0⟩) (by decide),
    asks 5 (xreadArgs none (some (ascii "0")) (ascii "s") ⟨1, 1⟩) (by decide),
    asks 6 [ascii "XADD", ascii "s", ascii "1-18446744073709551615", ascii "f", ascii "b"]
      (by decide),
    (.still, .round),
    asks 6 [ascii "XADD", ascii "s", ascii "2-0", ascii "f", ascii "c"] (by decide)]

theorem consumer_receives_in_order_reading :
    let s : Server Whole := run reading (start {} .zeros)
    s.received 5 (ascii "s") =
      [(⟨1, 1⟩, [(ascii "f", ascii "a")]), (⟨1, 18446744073709551615⟩, [(ascii "f", ascii "b")])] ∧
    ∃ log, (s.store.streamAt (ascii "s")).Holds log ∧
      s.received 5 (ascii "s") <+: (log.filter fun e => (⟨0, 0⟩ : StreamID).lt e.1) ∧
      (s.command .still 5 (xreadArgs none none (ascii "s")
        (lastId ⟨0, 0⟩ (s.received 5 (ascii "s"))))).received 5 (ascii "s") =
          log.filter fun e => (⟨0, 0⟩ : StreamID).lt e.1 := by
  have hf : Follows 5 (ascii "s") ⟨0, 0⟩ reading (start {} .zeros : Server Whole) := by
    refine ⟨trivial, trivial, ?_, ?_, ?_, ?_, trivial, ?_, trivial⟩
    · exact fun h => absurd h (by decide)
    · exact fun _ => ⟨by decide, some (ascii "1"), none, by decide⟩
    · exact fun _ => ⟨by decide, none, some (ascii "0"), by decide⟩
    · exact fun h => absurd h (by decide)
    · exact fun h => absurd h (by decide)
  intro s
  obtain ⟨client, hclient⟩ : ∃ client, s.clients[(5 : ℤ)]? = some client :=
    Option.isSome_iff_exists.mp (by decide)
  have hauth : s.store.defaultUserAutoAuth = true := by decide
  obtain ⟨log, hlog, hpre, hall⟩ := consumer_receives_in_order {} .zeros 5 (ascii "s") ⟨0, 0⟩
    reading hf (by decide)
  exact ⟨by decide, log, hlog, hpre, hall .still client (fun _ => rfl) hclient (by simp [s, hauth])⟩

end Server

end TrueStore
