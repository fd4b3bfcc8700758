import TrueStore.Command.Interleaving
import TrueStore.Server.Requests
import TrueStore.Stream.Consumer

/-! # Consumers of a stream

A consumer reads a stream by `XREAD` after the last ID that it has received, one request at a
time. Whatever the others do, and whether it is answered at once or when it waits, it receives
the entries of the stream in order.
-/

namespace TrueStore

open RespType Keyspace

variable {F : Type} [Platform F]

theorem upperName_xreadArgs (count block : Option Bytes) (key : Bytes) (id : StreamID) :
    upperName (xreadArgs count block key id) = ascii "XREAD" := rfl

theorem entriesIn_nullArray (key : Bytes) : entriesIn key nullArray.toBytes = [] := rfl

theorem entriesIn_queued (key : Bytes) :
    entriesIn key (simpleString (ascii "QUEUED")).toBytes = [] := rfl

/-- What a consumer gets for its request: some of the next entries or none, at once or later. -/
theorem handleCommand_xread {store : Store F} {key : Bytes}
    {log : List (StreamID × StreamEntryData)} (h : (store.streamAt key).Holds log)
    (hb : store.pendingBlock = none) (clock : ℕ → Readings) (count block : Option Bytes)
    (id : StreamID) (client : ClientState) :
    let r := handleCommand clock (xreadArgs count block key id) store client
    r.2.1.toKeyspace = store.toKeyspace ∧
    ((r.2.1.pendingBlock = none ∧
      (entriesIn key r.1 = [] ∨ ∃ n, entriesIn key r.1 = Stream.after log id n)) ∨
    (∃ n timeout, r.2.1.pendingBlock =
      some { kind := .stream, keys := [key], ids := [id], count := n, timeout })) := by
  have hname := upperName_xreadArgs count block key id
  have hcontrol : upperName (xreadArgs count block key id) ∉ controlCommands := by
    rw [hname]
    decide
  unfold handleCommand
  split
  · rename_i reply hr
    exact ⟨rfl, .inl ⟨hb, .inl (entriesIn_of_isError key (isError_of_refusal hr))⟩⟩
  · rw [runCommand_of_not_control hcontrol]
    split
    · exact ⟨rfl, .inl ⟨hb, .inl (entriesIn_queued key)⟩⟩
    · have hxread : commandName (upperName (xreadArgs count block key id)) = some .xread := by
        rw [hname]
        decide
      have hdata : ∀ args, (store.handleXread args).2.toKeyspace = store.toKeyspace := by
        intro args
        unfold Store.handleXread
        dsimp only
        repeat' split
        all_goals rfl
      unfold dispatchCommand
      dsimp only
      rw [hxread]
      refine ⟨hdata _, ?_⟩
      rcases Store.handleXread_one h count block id with ⟨hnone, hreply⟩ | ⟨-, n, timeout, hsome⟩
      · refine .inl ⟨hnone, ?_⟩
        rcases hreply with herr | hnull | ⟨n, hn⟩
        · exact .inl (entriesIn_of_isError key herr)
        · exact .inl (by rw [hnull]; exact entriesIn_nullArray key)
        · exact .inr ⟨n, by rw [hn, entriesIn_xreadReply]⟩
      · exact .inr ⟨n, timeout, hsome⟩

namespace Server

/-- The entries of a stream in the answers that reached a client. -/
def received (consumer : ℤ) (key : Bytes) (s : Server F) : List (StreamID × StreamEntryData) :=
  (s.answers.filter fun x => x.fd = consumer && x.delivered).flatMap fun x =>
    entriesIn key x.payload

def gained (consumer : ℤ) (key : Bytes) (x : Sent) : List (StreamID × StreamEntryData) :=
  if x.fd = consumer ∧ x.delivered = true then entriesIn key x.payload else []

theorem received_append (consumer : ℤ) (key : Bytes) {s s' : Server F} {x : Sent}
    (h : s'.answers = s.answers ++ [x]) :
    s'.received consumer key = s.received consumer key ++ gained consumer key x := by
  rw [received, received, h, List.filter_append, List.flatMap_append, gained]
  by_cases hx : x.fd = consumer ∧ x.delivered = true
  · rw [if_pos hx]
    simp [hx.1, hx.2]
  · rw [if_neg hx, List.filter_cons_of_neg (by simpa using hx)]
    simp

theorem received_congr {consumer : ℤ} {key : Bytes} {s s' : Server F} (h : s'.answers = s.answers) :
    s'.received consumer key = s.received consumer key := by
  rw [received, received, h]

/-- The consumer has a prefix of the entries after its first ID, and if it waits, it waits once
and for the entries after the last one that it has. -/
structure Tracks (consumer : ℤ) (key : Bytes) (initial : StreamID) (ws : List Waiter)
    (s : Server F) : Prop where
  log : ∃ log, (s.store.streamAt key).Holds log ∧
    s.received consumer key <+: log.filter fun e => initial.lt e.1
  waits : ∀ w ∈ ws, w.fd = consumer →
    w.kind = .stream ∧ w.keys = [key] ∧ w.ids = [lastId initial (s.received consumer key)]
  once : (ws.filter fun w => w.fd = consumer).length ≤ 1

namespace Tracks

variable {consumer : ℤ} {key : Bytes} {initial : StreamID} {ws ws' : List Waiter} {s s' : Server F}

/-- The others add entries and answer other clients, and the consumer may stop waiting. -/
theorem keep (h : Tracks consumer key initial ws s)
    (hlog : ∀ log, (s.store.streamAt key).Holds log →
      ∃ more, (s'.store.streamAt key).Holds (log ++ more))
    (hreceived : s'.received consumer key = s.received consumer key)
    (hws : (ws'.filter fun w => w.fd = consumer).Sublist (ws.filter fun w => w.fd = consumer)) :
    Tracks consumer key initial ws' s' where
  log := by
    obtain ⟨log, hholds, hpre⟩ := h.log
    obtain ⟨more, hmore⟩ := hlog log hholds
    refine ⟨log ++ more, hmore, ?_⟩
    rw [hreceived, List.filter_append]
    exact hpre.trans (List.prefix_append _ _)
  waits w hw hfd := by
    rw [hreceived]
    have hmem : w ∈ ws.filter fun w => w.fd = consumer :=
      hws.subset (List.mem_filter.mpr ⟨hw, by simpa using hfd⟩)
    exact h.waits w (List.mem_filter.mp hmem).1 hfd
  once := hws.length_le.trans h.once

theorem of_data (h : Tracks consumer key initial ws s)
    (hdata : s'.store.toKeyspace = s.store.toKeyspace)
    (hreceived : s'.received consumer key = s.received consumer key)
    (hws : (ws'.filter fun w => w.fd = consumer).Sublist (ws.filter fun w => w.fd = consumer)) :
    Tracks consumer key initial ws' s' :=
  h.keep (fun log hlog => ⟨[], by rwa [hdata, List.append_nil]⟩) hreceived hws

end Tracks

section Steps

variable {consumer : ℤ} {key : Bytes} {initial : StreamID}

theorem filter_fd_append {ws ws' : List Waiter} (h : ∀ w ∈ ws', w.fd ≠ consumer) :
    (ws ++ ws').filter (fun w => w.fd = consumer) = ws.filter fun w => w.fd = consumer := by
  have hnil : ws'.filter (fun w => w.fd = consumer) = [] := by
    rw [List.filter_eq_nil_iff]
    simpa using h
  rw [List.filter_append, hnil, List.append_nil]

theorem ackText_xreadArgs (count block : Option Bytes) (id : StreamID) (client : ClientState)
    (s : Server F) : s.ackText (xreadArgs count block key id) client = none := by
  have hname : toUpper (ascii "XREAD") ≠ ascii "REPLCONF" := by decide
  unfold ackText
  split
  · rename_i name sub text rest he
    have hhead : ascii "XREAD" = name := by
      have := congrArg List.head? he
      simpa [xreadArgs] using this
    rw [← hhead]
    simp [hname]
  · rfl

theorem tracks_command_other {env : Env} {fd : ℤ} (hfd : fd ≠ consumer) (args : List Bytes)
    {s : Server F} (hb : s.store.pendingBlock = none)
    (hcalls : ∀ c ∈ (s.command env fd args).calls, c.overwrites key = false)
    (h : Tracks consumer key initial s.waiters s) :
    Tracks consumer key initial (s.command env fd args).waiters (s.command env fd args) := by
  rcases hclient : s.clients[fd]? with _ | client
  · have he : s.command env fd args = s := by
      unfold command
      rw [hclient]
    rwa [he]
  rcases hack : s.ackText args client with _ | text
  · obtain ⟨t, ht, he⟩ := command_ready env hclient hack
    rw [he] at hcalls ⊢
    set reply := (handleCommand (env.clock 0) args s.store client).1
    obtain ⟨hdata, hucalls, hcases⟩ := respond_cases env fd reply t
    set u := t.respond env fd reply with hu
    have hmid : u.2.received consumer key = s.received consumer key ∧
        (u.2.waiters.filter fun w => w.fd = consumer).Sublist
          (s.waiters.filter fun w => w.fd = consumer) := by
      rcases hcases with ⟨b, ws, -, hanswers, hwaiters, hall, -⟩ | ⟨-, -, hsame⟩ |
        ⟨-, hsub, hanswers⟩
      · refine ⟨received_congr (hanswers.trans ht.answers), ?_⟩
        rw [hwaiters, ht.waiters, filter_fd_append fun w hw => by rw [hall w hw]; exact hfd]
      · rw [hsame]
        exact ⟨received_congr ht.answers, by rw [ht.waiters]⟩
      · refine ⟨?_, (ht.waiters ▸ hsub).filter _⟩
        rw [received_append consumer key hanswers, received_congr ht.answers, gained,
          if_neg fun hx => hfd hx.1,
          List.append_nil]
    have hchain := (traced_handleCommand (env.clock 0) args hb client).chain
    have hgrow : ∀ log, (s.store.streamAt key).Holds log →
        ∃ more, (u.2.store.streamAt key).Holds (log ++ more) := by
      intro log hlog
      rw [hdata, ht.data]
      refine hchain.holds (fun c hc => hcalls c ?_) hlog
      have hmem : c ∈ u.2.calls := by
        rw [hucalls, ht.calls]
        exact List.mem_append_right _ hc
      dsimp only
      split
      · rw [(answers_finish env fd u.2).2]
        exact hmem
      · exact hmem
    have hu' : Tracks consumer key initial u.2.waiters u.2 := h.keep hgrow hmid.1 hmid.2
    dsimp only
    split
    · exact hu'.of_data (frame_finish (P := Anything) env fd u.2).data
        (received_congr (answers_finish env fd u.2).1) ((waiters_finish env fd u.2).filter _)
    · exact hu'
  · have he : s.command env fd args = s.acknowledge fd text := by
      unfold command
      rw [hclient]
      dsimp only
      rw [hack]
    rw [he]
    unfold acknowledge
    split
    · exact h.of_data rfl rfl (List.Sublist.refl _)
    · exact h

theorem prefix_gained {log : List (StreamID × StreamEntryData)} {s : Server F}
    (hlog : (s.store.streamAt key).Holds log)
    (hpre : s.received consumer key <+: log.filter fun e => initial.lt e.1) {x : Sent}
    (hx : entriesIn key x.payload = [] ∨ ∃ n, entriesIn key x.payload =
      Stream.after log (lastId initial (s.received consumer key)) n) :
    s.received consumer key ++ gained consumer key x <+: log.filter fun e => initial.lt e.1 := by
  unfold gained
  split
  · rcases hx with hx | ⟨n, hx⟩
    · rwa [hx, List.append_nil]
    · rw [hx]
      exact (Stream.after_lastId hlog.increasing hpre n).1
  · rwa [List.append_nil]

theorem tracks_command_consumer (env : Env) (count block : Option Bytes) {s : Server F}
    (hb : s.store.pendingBlock = none) (hfree : ∀ w ∈ s.waiters, w.fd ≠ consumer)
    (h : Tracks consumer key initial s.waiters s) :
    let args := xreadArgs count block key (lastId initial (s.received consumer key))
    Tracks consumer key initial (s.command env consumer args).waiters
      (s.command env consumer args) := by
  intro args
  rcases hclient : s.clients[consumer]? with _ | client
  · have he : s.command env consumer args = s := by
      unfold command
      rw [hclient]
    rwa [he]
  obtain ⟨t, ht, he⟩ := command_ready env hclient (ackText_xreadArgs count block _ client s)
  obtain ⟨log, hlog, hpre⟩ := h.log
  obtain ⟨hkeep, hreply⟩ := handleCommand_xread hlog hb (env.clock 0) count block
    (lastId initial (s.received consumer key)) client
  rw [he]
  set reply := (handleCommand (env.clock 0) args s.store client).1
  obtain ⟨hdata, -, hcases⟩ := respond_cases env consumer reply t
  set u := t.respond env consumer reply with hu
  have hlog' : (u.2.store.streamAt key).Holds log := by
    rw [hdata, ht.data, hkeep]
    exact hlog
  have hu' : Tracks consumer key initial u.2.waiters u.2 := by
    rcases hcases with ⟨b, ws, hblock, hanswers, hwaiters, -, hstream⟩ | ⟨-, -, hsame⟩ |
      ⟨hblock, hsub, hanswers⟩
    · have hreceived : u.2.received consumer key = s.received consumer key :=
        received_congr (hanswers.trans ht.answers)
      rcases hreply with ⟨hnone, -⟩ | ⟨n, timeout, hsome⟩
      · rw [ht.block, hnone] at hblock
        cases hblock
      · rw [ht.block, hsome] at hblock
        cases hblock
        obtain rfl := hstream rfl
        refine ⟨⟨log, hlog', hreceived ▸ hpre⟩, fun w hw hfd => ?_, ?_⟩
        · rw [hwaiters, ht.waiters] at hw
          rcases List.mem_append.mp hw with hw | hw
          · exact absurd hfd (hfree w hw)
          · obtain rfl := List.mem_singleton.mp hw
            exact ⟨rfl, rfl, by rw [hreceived]⟩
        · have hnil : s.waiters.filter (fun w => w.fd = consumer) = [] := by
            rw [List.filter_eq_nil_iff]
            simpa using hfree
          rw [hwaiters, ht.waiters, List.filter_append, hnil, List.nil_append]
          exact List.length_filter_le _ _
    · rw [hsame]
      exact h.of_data (ht.data.trans hkeep) (received_congr ht.answers) (by rw [ht.waiters])
    · have hreceived := received_append consumer key hanswers
      rw [received_congr ht.answers] at hreceived
      have hwaiters : ∀ w ∈ u.2.waiters, w.fd ≠ consumer := fun w hw =>
        hfree w (ht.waiters ▸ hsub.subset hw)
      refine ⟨⟨log, hlog', ?_⟩, fun w hw hfd => absurd hfd (hwaiters w hw), ?_⟩
      · rw [hreceived]
        refine prefix_gained hlog hpre ?_
        rcases hreply with ⟨-, hentries⟩ | ⟨n, timeout, hsome⟩
        · exact hentries
        · rw [ht.block, hsome] at hblock
          cases hblock
      · rw [List.filter_eq_nil_iff.mpr (by simpa using hwaiters)]
        simp
  dsimp only
  split
  · exact hu'.of_data (frame_finish (P := Anything) env consumer u.2).data
      (received_congr (answers_finish env consumer u.2).1)
      ((waiters_finish env consumer u.2).filter _)
  · exact hu'

theorem tracks_serveWaiter (env : Env) {kept ws : List Waiter} {w : Waiter} {s : Server F}
    (h : Tracks consumer key initial (kept ++ w :: ws) s) :
    if (s.serveWaiter env w).1 then
      Tracks consumer key initial (kept ++ ws) (s.serveWaiter env w).2
    else (s.serveWaiter env w).2 = s := by
  have hshorter : ((kept ++ ws).filter fun w => w.fd = consumer).Sublist
      ((kept ++ w :: ws).filter fun w => w.fd = consumer) :=
    (List.Sublist.append_left (List.sublist_cons_self w ws) kept).filter _
  by_cases hfd : w.fd = consumer
  · obtain ⟨hkind, hkeys, hids⟩ := h.waits w (by simp) hfd
    obtain ⟨log, hlog, hpre⟩ := h.log
    have hrest : ∀ w' ∈ kept ++ ws, w'.fd ≠ consumer := by
      have honce := h.once
      rw [List.filter_append, List.filter_cons_of_pos (by simpa using hfd), List.length_append,
        List.length_cons] at honce
      intro w' hw' he
      have hmem : w' ∈ (kept ++ ws).filter fun w => w.fd = consumer :=
        List.mem_filter.mpr ⟨hw', by simpa using he⟩
      have hpos := List.length_pos_of_mem hmem
      rw [List.filter_append, List.length_append] at hpos
      omega
    unfold serveWaiter
    rw [hkind]
    dsimp only
    rw [hkeys, hids, Store.tryXread_one hlog]
    split
    · rename_i hnone
      simp
    · rename_i reply hreply
      split at hreply
      · cases hreply
      · cases hreply
        rw [if_pos rfl]
        have hanswers : (s.send env w.fd (xreadReply key
            (Stream.after log (lastId initial (s.received consumer key)) w.count)) .served).2.answers =
            s.answers ++ [⟨w.fd, xreadReply key (Stream.after log (lastId initial
              (s.received consumer key)) w.count), .served, env.sendOk s.sends.length⟩] :=
          answers_send rfl s
        have hreceived := received_append consumer key hanswers
        refine ⟨⟨log, hlog, ?_⟩, fun w' hw' hfd' => absurd hfd' (hrest w' hw'), ?_⟩
        · rw [hreceived]
          exact prefix_gained hlog hpre (.inr ⟨w.count, entriesIn_xreadReply key _⟩)
        · rw [List.filter_eq_nil_iff.mpr (by simpa using hrest)]
          simp
  · have hother : ∀ {s' : Server F} {payload : Bytes} {purpose : Purpose},
        purpose.isAnswer = true → s'.answers = s.answers →
        (s'.send env w.fd payload purpose).2.received consumer key = s.received consumer key := by
      intro s' payload purpose hp ha
      rw [received_append consumer key (answers_send hp s'), received_congr ha, gained,
        if_neg fun hx => hfd hx.1, List.append_nil]
    unfold serveWaiter
    split
    · split
      · rw [if_pos rfl]
        exact h.of_data rfl (received_congr (Sends.sendAcked env w.fd _ s).answers_of_replication)
          hshorter
      · simp
    · split
      · simp
      · rename_i key' value store hpop
        obtain ⟨-, rest, hlist, rfl⟩ := Store.tryBlpop_eq_some hpop
        have hsends := Sends.propagatePopped env w.fd (s.store.popped key' rest).pendingPropagations
          { s with
            store := { s.store.popped key' rest with pendingPropagations := [] }
            calls := s.calls ++ [Call.pop s.store.toKeyspace key'] }
        rw [if_pos rfl]
        refine h.keep (fun log hlog => ⟨[], ?_⟩) (hother rfl hsends.answers_of_stream) hshorter
        dsimp only [send]
        rw [data_propagatePopped, List.append_nil]
        exact hlog
    · split
      · simp
      · rw [if_pos rfl]
        exact h.of_data rfl (hother rfl rfl) hshorter

theorem tracks_serveAll (env : Env) {kept ws : List Waiter} {s : Server F}
    (h : Tracks consumer key initial (kept ++ ws) s) :
    Tracks consumer key initial (kept ++ (serveAll env ws s).1) (serveAll env ws s).2 := by
  induction ws generalizing kept s with
  | nil => exact h
  | cons w ws ih =>
    have hw := tracks_serveWaiter env h
    unfold serveAll
    dsimp only
    by_cases hserved : (s.serveWaiter env w).1 = true
    · rw [if_pos hserved] at hw ⊢
      exact ih hw
    · rw [if_neg hserved] at hw ⊢
      rw [hw]
      have hnext : Tracks consumer key initial ((kept ++ [w]) ++ ws) s := by simpa using h
      simpa using ih hnext

theorem received_expireAll (env : Env) (ws : List Waiter) (s : Server F) :
    (expireAll env ws s).received consumer key = s.received consumer key := by
  induction ws generalizing s with
  | nil => rfl
  | cons w ws ih =>
    unfold expireAll
    split
    · rw [ih]
      split
      · exact received_congr (Sends.sendAcked env w.fd _ s).answers_of_replication
      · rw [received_append consumer key (answers_send rfl s), gained, entriesIn_nullArray, ite_self,
          List.append_nil]
    · exact ih s

theorem tracks_round (env : Env) {s : Server F} (h : Tracks consumer key initial s.waiters s) :
    Tracks consumer key initial ((s.serveWaiters env).expireWaiters env).waiters
      ((s.serveWaiters env).expireWaiters env) := by
  have hserved : Tracks consumer key initial (s.serveWaiters env).waiters (s.serveWaiters env) := by
    have hall : Tracks consumer key initial ([] ++ (serveAll env s.waiters s).1)
        (serveAll env s.waiters s).2 := tracks_serveAll env h
    exact hall.of_data rfl rfl (List.Sublist.refl _)
  refine hserved.of_data ?_ ?_ (List.filter_sublist.filter _)
  · exact (frame_expireAll (P := Anything) env _ _).data
  · exact (received_congr rfl).trans (received_expireAll env _ _)

/-- The event is a request of the consumer: it does not wait for an earlier one, and reads on after
the last ID that it has received. -/
def Event.Reads (consumer : ℤ) (key : Bytes) (initial : StreamID) (s : Server F) : Event → Prop
  | .request fd r => fd = consumer → (∀ w ∈ s.waiters, w.fd ≠ consumer) ∧
      ∃ count block, r.args = xreadArgs count block key (lastId initial (s.received consumer key))
  | _ => True

theorem tracks_step {env : Env} {event : Event} {s : Server F}
    (hreads : event.Reads consumer key initial s) (hb : s.store.pendingBlock = none)
    (hm : s.masterFd = none)
    (hcalls : ∀ c ∈ (s.step env event).calls, c.overwrites key = false)
    (h : Tracks consumer key initial s.waiters s) :
    Tracks consumer key initial (s.step env event).waiters (s.step env event) := by
  unfold step at hcalls ⊢
  split
  · exact h
  rename_i hhalted
  rw [if_neg hhalted] at hcalls
  cases event with
  | accept fd =>
    dsimp only [accept]
    split
    · exact h
    · exact h.of_data rfl rfl (List.Sublist.refl _)
  | request fd r =>
    have hne : ¬s.masterFd = some fd := by simp [hm]
    dsimp only at hcalls ⊢
    rw [if_neg hne] at hcalls ⊢
    by_cases hfd : fd = consumer
    · obtain ⟨hfree, count, block, hargs⟩ := hreads hfd
      subst hfd
      rw [hargs]
      exact tracks_command_consumer env count block hb hfree h
    · exact tracks_command_other hfd r.args hb hcalls h
  | hangup fd =>
    dsimp only
    split
    · exact h.of_data rfl rfl (List.filter_sublist.filter _)
    · exact h
  | chunk bytes =>
    simp only [fromMaster, hm]
    exact h
  | masterClosed =>
    simp only [masterClosed, hm]
    exact h
  | round => exact tracks_round env h

end Steps

end Server

end TrueStore
