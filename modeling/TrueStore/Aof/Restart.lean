import TrueStore.Aof.Recovery

/-! # Servers that are started again

A server that keeps a log can be stopped between two steps and started again from its log, which it
then continues. However often this happens, each start recovers the data that the server had when it
was stopped.
-/

namespace TrueStore

open Framing

variable {F : Type} [Platform F]

namespace Aof

def Idle (store : Store F) : Prop := store.pendingBlock = none ∧ store.pendingPropagations = []

theorem feedAll_preserves {α β ε σ : Type} (parse : Parser α β ε) (handle : Handler α ε σ)
    {I : σ → Prop} (h : ∀ a n st, I st → I (handle a n st).1) (chunks : List (List β)) {st : σ}
    (hst : I st) (buffer : List β) : I (feedAll parse handle st buffer chunks).1 := by
  induction chunks generalizing st buffer with
  | nil => exact hst
  | cons chunk chunks ih =>
    have hfeed : I (feed parse handle st buffer chunk).1 :=
      consume_preserves parse handle h _ hst _
    rw [feedAll]
    split
    · rename_i st' e hr
      rw [hr] at hfeed
      exact hfeed
    · rename_i st' rest hr
      rw [hr] at hfeed
      exact ih hfeed rest

theorem idle_replayFiles {clock : ℕ → ℕ → Readings} {files : List (Bytes × Bytes)}
    {st st' : ReplayState F} (h : replayFiles clock files st = .ok st') (hst : Idle st.2.1) :
    Idle st'.2.1 := by
  induction files generalizing st with
  | nil =>
    cases h
    exact hst
  | cons file files ih =>
    have hfile := feedAll_preserves (parseCommand unlimited) (replayCommand clock file.1)
      (I := fun st : ReplayState F => Idle st.2.1) (fun args n st _ => ⟨rfl, rfl⟩)
      (chunks file.2.length file.2) hst []
    rw [replayFiles] at h
    split at h
    · cases h
    · rename_i st₁ hr
      rw [replayFile] at hr
      split at hr
      · cases hr
      · rename_i st₂ rest hfeed
        rw [hfeed] at hfile
        split at hr
        · cases hr
        · cases hr
          exact ih h hfile

theorem idle_replay {clock : ℕ → ℕ → Readings} {files : List (Bytes × Bytes)}
    {store store' : Store F} (h : replay clock files store = .ok store') (hs : Idle store) :
    Idle store' := by
  rw [replay] at h
  cases hr : replayFiles clock files (0, store, replayClient) with
  | error e =>
    rw [hr] at h
    cases h
  | ok st =>
    rw [hr] at h
    cases h
    exact idle_replayFiles hr hs

end Aof

namespace Server

/-- One life of a server: its options and identifier, the clock readings of the replay, the name of
the log and what happens until it is stopped. -/
structure Life where
  config : Config
  replid : ReplId
  clock : ℕ → ℕ → Readings
  file : Bytes
  events : List (Env × Event)

/-- `Server::start` from the log of an earlier life. -/
def restart (life : Life) (log : Bytes) : Except Exn (Server F) :=
  (Aof.replay life.clock [(life.file, log)] (Store.init life.config life.replid)).map fun store =>
    { start life.config life.replid with store, aof := log }

/-- The server at the end of a sequence of lives, each of which starts from the log of the one
before. -/
def relive : List Life → Server F → Except Exn (Server F)
  | [], s => .ok s
  | life :: lives, s =>
    match restart life s.aof with
    | .error e => .error e
    | .ok next => relive lives (run life.events next)

/-- The data come about by calls whose writes the log holds, from the first life on. -/
def Recorded (s : Server F) : Prop :=
  ∃ calls : List (Call F), Chain {} calls s.store.toKeyspace ∧
    (∀ c ∈ calls, c.Fits Plain Always) ∧ IsLog (loggedArgs calls) s.aof

theorem accounted_run {P : List Bytes → Prop} {T : Readings → Prop} (hP : PopClosed P)
    {events : List (Env × Event)} (he : ∀ e ∈ events, e.2.Carries P)
    (hT : ∀ e ∈ events, ∀ n i, T (e.1.clock n i)) {s : Server F} (hs : s.Settled P)
    (hm : s.masterFd = none) : Accounted P T s (run events s) := by
  induction events generalizing s with
  | nil => exact (Frame.refl s).accounted rfl hs
  | cons e events ih =>
    have hstep := accounted_step hP hs (hT e List.mem_cons_self) (he e List.mem_cons_self) (.inl hm)
    have hmaster : (s.step e.1 e.2).masterFd = none := by
      obtain ⟨_, _, _, hadv, -⟩ := hstep
      exact hadv.masterFd.trans hm
    exact hstep.trans (ih (fun e' h => he e' (List.mem_cons_of_mem _ h))
      (fun e' h => hT e' (List.mem_cons_of_mem _ h)) hstep.settled hmaster)

theorem Recorded.run {s : Server F} (h : s.Recorded) (hs : s.Settled Plain)
    (hm : s.masterFd = none) (hopen : s.aofOpen = true) {events : List (Env × Event)}
    (he : ∀ e ∈ events, e.2.Carries (timeless · = true)) : (Server.run events s).Recorded := by
  obtain ⟨calls, hchain, hfits, hlog⟩ := h
  obtain ⟨calls', items, bytes, hadv, -, hlog', -⟩ := accounted_run (T := Always) popClosed_plain
    (fun e hm => Event.carries_plain (he e hm)) (fun _ _ _ _ => trivial) hs hm
  refine ⟨calls ++ calls', hchain.trans hadv.chain, ?_, ?_⟩
  · intro c hc
    rcases List.mem_append.mp hc with hc | hc
    · exact hfits c hc
    · exact hadv.fits c hc
  · rw [loggedArgs_append, hadv.aof, if_pos hopen]
    exact hlog.append hlog'

theorem settled_start (config : Config) (replid : ReplId) {store : Store F} (h : Aof.Idle store)
    (log : Bytes) : ({ start config replid with store, aof := log } : Server F).Settled Plain :=
  ⟨h.1, h.2, fun fd client hc => by simp [start] at hc, fun w hw => by cases hw⟩

theorem Recorded.restart {s : Server F} (h : s.Recorded) (life : Life)
    (hon : life.config.appendonly = ascii "yes") :
    ∃ next, Server.restart life s.aof = .ok next ∧
      next.store.toKeyspace = s.store.toKeyspace ∧ next.Recorded ∧ next.Settled Plain ∧
      next.masterFd = none ∧ next.aofOpen = true := by
  obtain ⟨calls, hchain, hfits, hlog⟩ := h
  have hidle : Aof.Idle (Store.init life.config life.replid : Store F) := ⟨rfl, rfl⟩
  obtain ⟨store, hreplay, hdata⟩ : ∃ store : Store F,
      Aof.replay life.clock [(life.file, s.aof)] (Store.init life.config life.replid) = .ok store ∧
        store.toKeyspace = s.store.toKeyspace :=
    Aof.replay_isLog (C := fun _ => True) (fun _ _ => trivial) hlog
      (loggable_of_fits (fun _ hp => hp.2) hfits) hidle.1 (accepts_of_plain hchain hfits _)
  refine ⟨{ start life.config life.replid with store, aof := s.aof }, ?_, hdata, ?_,
    settled_start _ _ (Aof.idle_replay hreplay hidle) _, rfl, decide_eq_true hon⟩
  · rw [Server.restart, hreplay]
    rfl
  · exact ⟨calls, hdata ▸ hchain, hfits, hlog⟩

def Life.Kept (life : Life) : Prop :=
  life.config.appendonly = ascii "yes" ∧ ∀ e ∈ life.events, e.2.Carries (timeless · = true)

/-- However often a server is stopped and started again from its log, every start succeeds and
recovers exactly the data that the server had when it was stopped. -/
theorem restarts_exact (first : Life) (hfirst : first.Kept) (lives : List Life)
    (hkept : ∀ life ∈ lives, life.Kept) (next : Life) (hnext : next.Kept) :
    ∃ s : Server F,
      relive lives (run first.events (start first.config first.replid)) = .ok s ∧
      ∃ t : Server F, restart next s.aof = .ok t ∧
        t.store.toKeyspace = s.store.toKeyspace := by
  have hstart : (start first.config first.replid : Server F).Recorded :=
    ⟨[], .nil _, by simp, .nil⟩
  have hrun := hstart.run (settled_start first.config first.replid ⟨rfl, rfl⟩ []) rfl
    (decide_eq_true hfirst.1) hfirst.2
  have hlives : ∀ {s : Server F}, s.Recorded → ∃ s', relive lives s = .ok s' ∧ s'.Recorded := by
    induction lives with
    | nil => exact fun h => ⟨_, rfl, h⟩
    | cons life lives ih =>
      intro s h
      obtain ⟨hon, he⟩ := hkept life List.mem_cons_self
      obtain ⟨t, ht, -, hrecorded, hsettled, hmaster, hopen⟩ := h.restart life hon
      obtain ⟨s', hs', h'⟩ := ih (fun l hl => hkept l (List.mem_cons_of_mem _ hl))
        (hrecorded.run hsettled hmaster hopen he)
      refine ⟨s', ?_, h'⟩
      rw [relive, ht]
      exact hs'
  obtain ⟨s, hs, hrecorded⟩ := hlives hrun
  obtain ⟨t, ht, hdata, -⟩ := hrecorded.restart next hnext.1
  exact ⟨s, hs, t, ht, hdata⟩

def trading : Life := ⟨keepingLog, .zeros, fun _ _ _ => ⟨7, 7⟩, ascii "aof", transacting⟩

theorem restarts_exact_trading :
    ∃ s : Server Whole,
      relive [trading, trading] (run trading.events (start trading.config trading.replid)) =
        .ok s ∧
      ∃ t : Server Whole, restart trading s.aof = .ok t ∧
        t.store.toKeyspace = s.store.toKeyspace := by
  have hkept : trading.Kept := by
    refine ⟨rfl, ?_⟩
    simp only [trading, transacting, requestAt, List.forall_mem_cons, Event.Carries,
      List.not_mem_nil, false_implies, implies_true, and_true, true_and]
    decide
  exact restarts_exact trading hkept [trading, trading] (by simpa using hkept) trading hkept

end Server

end TrueStore
