import TrueStore.Server.Handshake

/-! # The buffers of the event loop

What arrives from a client goes to a buffer, from which the loop takes complete requests. The loop
over bytes does what the server does on the requests: the connections do not mix, and the requests
of each are those that its bytes encode.
-/

namespace TrueStore

open RespType Framing Server

variable {F : Type} [Platform F]

inductive Stop where
  | closed
  | failed (e : Exn)

/-- `parse_command` on the buffer of a client. A command beyond the `max_size` of its containers
cannot be allocated. -/
def parseRequest (buffer : Bytes) : Except Stop (Option (Request × ℕ)) :=
  match parseCommand unlimited buffer with
  | .error e => .error (.failed e)
  | .ok none => .ok none
  | .ok (some (args, consumed)) =>
    if h : args.length ≤ maxSize ∧ (encode args).length < 2 ^ 63 then
      .ok (some (.of args h, consumed))
    else .error (.failed .badAlloc)

/-- The event loop: its server, and what has arrived of the next request of each client. -/
structure Loop (F : Type) [Platform F] where
  server : Server F
  buffers : ℤ → Bytes := fun _ => []

/-- What `poll` reports and `recv` returns. -/
inductive Arrival where
  | accept (fd : ℤ)
  | bytes (fd : ℤ) (chunk : Bytes)
  | hangup (fd : ℤ)
  | masterBytes (chunk : Bytes)
  | masterClosed
  | round

namespace Loop

/-- The server has taken a step. The buffer of a client that it closed is erased. -/
def settle (s : Server F) (l : Loop F) : Loop F where
  server := s
  buffers fd := if s.clients.contains fd then l.buffers fd else []

/-- One request from the buffer of a client, which may close its connection. -/
def serve (env : ℕ → Env) (fd : ℤ) (r : Request) (_consumed : ℕ) (st : ℕ × Server F) :
    (ℕ × Server F) × Option Stop :=
  let s := st.2.command (env st.1) fd r.args
  ((st.1 + 1, s), if s.clients.contains fd then none else some .closed)

/-- A chunk from a client. A protocol error closes its connection, and any other exception ends
the server. -/
def fromClient (env : ℕ → Env) (fd : ℤ) (chunk : Bytes) (l : Loop F) : Loop F :=
  if l.server.masterFd = some fd ∨ !l.server.clients.contains fd then l
  else
    let r := feed parseRequest (serve env fd) (0, l.server) (l.buffers fd) chunk
    match r.2 with
    | .ok rest => settle r.1.2 { l with buffers := Function.update l.buffers fd rest }
    | .error .closed => l.settle r.1.2
    | .error (.failed (.respError _)) => l.settle (r.1.2.closeClient fd)
    | .error (.failed _) => l.settle { r.1.2 with halted := true }

def step (env : ℕ → Env) (arrival : Arrival) (l : Loop F) : Loop F :=
  if l.server.halted then l
  else match arrival with
    | .accept fd => l.settle (l.server.step (env 0) (.accept fd))
    | .bytes fd chunk => l.fromClient env fd chunk
    | .hangup fd => l.settle (l.server.step (env 0) (.hangup fd))
    | .masterBytes chunk => l.settle (l.server.step (env 0) (.chunk chunk))
    | .masterClosed => l.settle (l.server.step (env 0) .masterClosed)
    | .round => l.settle (l.server.step (env 0) .round)

def run : List ((ℕ → Env) × Arrival) → Loop F → Loop F
  | [], l => l
  | (env, arrival) :: arrivals, l => run arrivals (l.step env arrival)

def chunksOf (fd : ℤ) (arrivals : List ((ℕ → Env) × Arrival)) : List Bytes :=
  arrivals.filterMap fun a => match a.2 with
    | .bytes fd' chunk => if fd' = fd then some chunk else none
    | _ => none

def requestsOn (fd : ℤ) (events : List (Env × Event)) : List Request :=
  events.filterMap fun e => match e.2 with
    | .request fd' r => if fd' = fd then some r else none
    | _ => none

/-- A connection that is open and not the link to a primary. -/
def Open (fd : ℤ) (l : Loop F) : Prop := fd ∈ l.server.clients ∧ l.server.masterFd ≠ some fd

/-- The connection is open before and after every arrival. -/
def StaysOpen (fd : ℤ) : List ((ℕ → Env) × Arrival) → Loop F → Prop
  | [], l => l.Open fd
  | (env, arrival) :: arrivals, l => l.Open fd ∧ StaysOpen fd arrivals (l.step env arrival)

def collect (r : Request) (_consumed : ℕ) (taken : List Request) :
    List Request × Option Stop := (taken ++ [r], none)

/-- The events bring the server to a state, where it may have ended. -/
def Acts (events : List (Env × Event)) (s t : Server F) : Prop :=
  t = Server.run events s ∨ t = { Server.run events s with halted := true }

def requests (env : ℕ → Env) (fd : ℤ) : ℕ → List Request → List (Env × Event)
  | _, [] => []
  | number, r :: rs => (env number, .request fd r) :: requests env fd (number + 1) rs

theorem requestsOn_requests (env : ℕ → Env) (fd number) (rs : List Request) :
    requestsOn fd (requests env fd number rs) = rs := by
  induction rs generalizing number with
  | nil => rfl
  | cons r rs ih => simpa [requests, requestsOn] using ih (number + 1)

theorem requestsOn_of_ne {fd fd' : ℤ} (hne : fd' ≠ fd) (env : ℕ → Env) (number)
    (rs : List Request) : requestsOn fd (requests env fd' number rs) = [] := by
  induction rs generalizing number with
  | nil => rfl
  | cons r rs ih => simpa [requests, requestsOn, hne] using ih (number + 1)

theorem requestsOn_append (fd : ℤ) (events events' : List (Env × Event)) :
    requestsOn fd (events ++ events') = requestsOn fd events ++ requestsOn fd events' :=
  List.filterMap_append

section Consume

variable {s : Server F} {fd : ℤ}

/-- A step about clients keeps the link to a primary, and the server up. -/
theorem keeps_link (h : s.Logged Anything Always) (env : Env) {event : Event}
    (hl : event.isLocal = true) :
    (s.step env event).halted = s.halted ∧ (s.step env event).masterFd = s.masterFd := by
  constructor
  · exact congrArg (·.2.2) (fixed_step h.settled.block env hl)
  · have hclock : ∀ n i, Always (env.clock n i) := fun _ _ => trivial
    obtain ⟨_, _, _, hadv, -⟩ := accounted_step popClosed_anything h.settled hclock
      event.carries_anything (.inr hl)
    exact hadv.masterFd

theorem parseRequest_ne_closed (buffer : Bytes) : parseRequest buffer ≠ .error .closed := by
  unfold parseRequest
  split
  · rintro ⟨⟩
  · rintro ⟨⟩
  · split
    · rintro ⟨⟩
    · rintro ⟨⟩

/-- Whatever the loop takes from a buffer, the server runs as requests of the client, and the parser
alone would have taken the same. -/
theorem consume_requests (h : s.Logged Anything Always) (hup : s.halted = false)
    (hm : s.masterFd ≠ some fd) (hopen : fd ∈ s.clients) (env : ℕ → Env) (fuel number : ℕ)
    (buffer : Bytes) :
    let r := consume parseRequest (serve env fd) fuel (number, s) buffer
    ∃ rs : List Request, r.1.2 = Server.run (requests env fd number rs) s ∧
      r.1.2.halted = false ∧ (fd ∈ r.1.2.clients ↔ r.2 ≠ .error .closed) ∧
      ∀ rest, r.2 = .ok rest →
        ∀ taken, consume parseRequest collect fuel taken buffer = (taken ++ rs, .ok rest) := by
  induction fuel generalizing s number buffer with
  | zero =>
    refine ⟨[], rfl, hup, by simp [consume, hopen], ?_⟩
    rintro rest hrest taken
    cases hrest
    simp [consume]
  | succ fuel ih =>
    unfold consume
    rcases hp : parseRequest buffer with e | _ | ⟨r, consumed⟩
    · have hne : e ≠ .closed := by
        rintro rfl
        exact parseRequest_ne_closed buffer hp
      refine ⟨[], rfl, hup, by simp [hopen, hne], ?_⟩
      rintro rest ⟨⟩
    · refine ⟨[], rfl, hup, by simp [hopen], ?_⟩
      rintro rest hrest taken
      cases hrest
      simp
    · have hstep : s.command (env number) fd r.args = s.step (env number) (.request fd r) := by
        simp [Server.step, hup, hm]
      obtain ⟨hup', hm'⟩ := keeps_link h (env number)
        (show (Event.request fd r).isLocal = true from rfl)
      rw [← hstep] at hup' hm'
      by_cases hopen' : fd ∈ (s.command (env number) fd r.args).clients
      · have hcontains : (s.command (env number) fd r.args).clients.contains fd = true := hopen'
        obtain ⟨rs, hrun, hup'', hopen'', hcollect⟩ :=
          ih (hstep ▸ h.step (env number) (.request fd r)) (hup'.trans hup)
            (by rw [hm']; exact hm) hopen' (number + 1) (buffer.drop consumed)
        simp only [serve, hcontains, if_true]
        refine ⟨r :: rs, ?_, hup'', hopen'', ?_⟩
        · rw [hrun, hstep]
          rfl
        · intro rest hrest taken
          simp only [collect]
          rw [hcollect rest hrest, List.append_assoc]
          rfl
      · have hcontains : (s.command (env number) fd r.args).clients.contains fd = false :=
          Bool.eq_false_iff.mpr hopen'
        simp only [serve, hcontains, Bool.false_eq_true, if_false]
        refine ⟨[r], hstep, hup'.trans hup, by simp [hopen'], ?_⟩
        rintro rest ⟨⟩

end Consume

section Step

variable {l : Loop F} {fd : ℤ}

/-- What an arrival does for the server, and for a client that it leaves connected. -/
structure Handles (arrival : Arrival) (events : List (Env × Event)) (l l' : Loop F) : Prop where
  acts : Acts events l.server l'.server
  framed : ∀ fd, l.Open fd → l'.Open fd → l'.server.halted = false → ∀ taken env,
    feedAll parseRequest collect taken (l.buffers fd) (chunksOf fd [(env, arrival)]) =
      (taken ++ requestsOn fd events, .ok (l'.buffers fd))

/-- Nothing arrives from the clients that stay connected, and the others lose their buffers. -/
theorem handles_settle {arrival : Arrival} {s : Server F} {events : List (Env × Event)}
    (hacts : Acts events l.server s)
    (hquiet : ∀ fd ∈ s.clients, ∀ env, chunksOf fd [(env, arrival)] = [] ∧
      requestsOn fd events = []) : Handles arrival events l (l.settle s) where
  acts := hacts
  framed fd _ hfd _ taken env := by
    obtain ⟨hchunks, hrequests⟩ := hquiet fd hfd.1 env
    have hmem : fd ∈ s.clients := hfd.1
    simp [hchunks, hrequests, feedAll, settle, hmem]

theorem handles_event {arrival : Arrival} (env : Env) {event : Event}
    (harrival : ∀ fd env, chunksOf fd [(env, arrival)] = [])
    (hevent : ∀ fd r, event ≠ .request fd r) :
    Handles arrival [(env, event)] l (l.settle (l.server.step env event)) := by
  apply handles_settle (.inl rfl)
  rintro fd - env'
  refine ⟨harrival fd env', ?_⟩
  cases event with
  | request fd r => exact absurd rfl (hevent fd r)
  | _ => rfl

theorem chunksOf_bytes (env : ℕ → Env) (fd fd' : ℤ) (chunk : Bytes) :
    chunksOf fd' [(env, .bytes fd chunk)] = if fd = fd' then [chunk] else [] := by
  by_cases hfd : fd = fd'
  · simp [chunksOf, hfd]
  · simp [chunksOf, hfd]

theorem handles_fromClient (h : l.server.Logged Anything Always) (hup : l.server.halted = false)
    (env : ℕ → Env) (fd : ℤ) (chunk : Bytes) :
    ∃ events, Handles (.bytes fd chunk) events l (l.fromClient env fd chunk) := by
  unfold fromClient
  split
  · rename_i hclosed
    refine ⟨[], .inl rfl, ?_⟩
    rintro fd' ⟨hmem, hm⟩ - - taken env'
    have hne : fd ≠ fd' := by
      rintro rfl
      rcases hclosed with hclosed | hclosed
      · exact hm hclosed
      · have hcontains : l.server.clients.contains fd = true := hmem
        simp [hcontains] at hclosed
    rw [chunksOf_bytes, if_neg hne]
    simp [feedAll, requestsOn]
  · rename_i hopen
    rw [not_or, Bool.not_eq_true', Bool.not_eq_false, Std.ExtTreeMap.contains_iff_mem] at hopen
    obtain ⟨rs, hrun, hup', hopen', hcollect⟩ := consume_requests h hup hopen.1 hopen.2 env
      (l.buffers fd ++ chunk).length 0 (l.buffers fd ++ chunk)
    dsimp only [feed]
    set r := consume parseRequest (serve env fd) (l.buffers fd ++ chunk).length (0, l.server)
      (l.buffers fd ++ chunk) with hr
    have hother : ∀ fd' ≠ fd, ∀ env, chunksOf fd' [(env, .bytes fd chunk)] = [] := by
      intro fd' hne env
      rw [chunksOf_bytes, if_neg (Ne.symm hne)]
    have hevents : ∀ fd' ≠ fd, requestsOn fd' (requests env fd 0 rs) = [] := fun fd' hne =>
      requestsOn_of_ne (Ne.symm hne) env 0 rs
    rcases hresult : r.2 with (_ | e) | rest
    · -- the connection was closed while it was served
      have hgone : fd ∉ r.1.2.clients := by
        rw [hopen', not_not]
        exact hresult
      refine ⟨requests env fd 0 rs, handles_settle (.inl hrun) ?_⟩
      intro fd' hfd' env'
      have hne : fd' ≠ fd := by
        rintro rfl
        exact hgone hfd'
      exact ⟨hother fd' hne env', hevents fd' hne⟩
    · have hstill : fd ∈ r.1.2.clients := by
        rw [hopen', hresult]
        rintro ⟨⟩
      cases e with
      | respError message =>
        refine ⟨requests env fd 0 rs ++ [(env 0, .hangup fd)], handles_settle (.inl ?_) ?_⟩
        · rw [run_append, ← hrun]
          simp [Server.run, Server.step, hup', hstill]
        · intro fd' hfd' env'
          have hne := (mem_clients_closeClient.mp hfd').2
          refine ⟨hother fd' hne env', ?_⟩
          rw [requestsOn_append, hevents fd' hne]
          rfl
      | _ =>
        refine ⟨requests env fd 0 rs, .inr ?_, ?_⟩
        · rw [← hrun]
          rfl
        · rintro fd' - - ⟨⟩
    · refine ⟨requests env fd 0 rs, .inl hrun, ?_⟩
      rintro fd' - ⟨hmem, -⟩ - taken env'
      have hmem' : fd' ∈ r.1.2.clients := hmem
      by_cases hfd : fd' = fd
      · subst hfd
        rw [chunksOf_bytes, if_pos rfl, requestsOn_requests]
        simp only [feedAll, feed, hcollect rest hresult taken]
        simp [settle, hmem']
      · rw [hother fd' hfd env', hevents fd' hfd]
        simp [feedAll, settle, hmem', hfd]

theorem handles_step (h : l.server.Logged Anything Always) (hup : l.server.halted = false)
    (env : ℕ → Env) (arrival : Arrival) :
    ∃ events, Handles arrival events l (l.step env arrival) := by
  unfold step
  rw [if_neg (by simp [hup])]
  cases arrival with
  | bytes fd chunk => exact handles_fromClient h hup env fd chunk
  | _ => exact ⟨_, handles_event (env 0) (fun _ _ => rfl) (by rintro _ _ ⟨⟩)⟩

theorem run_halted (h : l.server.halted = true) (arrivals : List ((ℕ → Env) × Arrival)) :
    run arrivals l = l := by
  induction arrivals with
  | nil => rfl
  | cons a arrivals ih =>
    have hstep : l.step a.1 a.2 = l := if_pos h
    exact (congrArg (run arrivals) hstep).trans ih

theorem handles_run (h : l.server.Logged Anything Always)
    (arrivals : List ((ℕ → Env) × Arrival)) :
    ∃ events, Acts events l.server (run arrivals l).server ∧
      ∀ fd, StaysOpen fd arrivals l → (run arrivals l).server.halted = false →
        ∀ taken, feedAll parseRequest collect taken (l.buffers fd) (chunksOf fd arrivals) =
          (taken ++ requestsOn fd events, .ok ((run arrivals l).buffers fd)) := by
  induction arrivals generalizing l with
  | nil => exact ⟨[], .inl rfl, fun fd _ _ taken => by simp [chunksOf, feedAll, requestsOn, run]⟩
  | cons a arrivals ih =>
    obtain ⟨env, arrival⟩ := a
    by_cases hup : l.server.halted = true
    · rw [run_halted hup]
      exact ⟨[], .inl rfl, fun fd _ hup' => absurd (hup'.symm.trans hup) (by simp)⟩
    · rw [Bool.not_eq_true] at hup
      obtain ⟨events, hacts, hframed⟩ := handles_step h hup env arrival
      have hrun : run ((env, arrival) :: arrivals) l = run arrivals (l.step env arrival) := rfl
      rw [hrun]
      rcases hacts with hacts | hacts
      · have hlogged : (l.step env arrival).server.Logged Anything Always := by
          rw [hacts]
          exact run_preserves (fun _ env event h => h.step env event) events h
        obtain ⟨events', hacts', hframed'⟩ := ih hlogged
        refine ⟨events ++ events', ?_, ?_⟩
        · unfold Acts
          rw [run_append, ← hacts]
          exact hacts'
        · rintro fd ⟨hopen, hstays⟩ hup' taken
          have hopen' : (l.step env arrival).Open fd := by
            cases arrivals with
            | nil => exact hstays
            | cons a arrivals => exact hstays.1
          have hstill : (l.step env arrival).server.halted = false := by
            by_contra hhalted
            rw [Bool.not_eq_false] at hhalted
            rw [run_halted hhalted, hhalted] at hup'
            cases hup'
          have hfirst := hframed fd hopen hopen' hstill taken env
          have hchunks : chunksOf fd ((env, arrival) :: arrivals) =
              chunksOf fd [(env, arrival)] ++ chunksOf fd arrivals :=
            List.filterMap_append (l := [(env, arrival)])
          rw [hchunks, feedAll_append hfirst, hframed' fd hstays hup', requestsOn_append,
            List.append_assoc]
      · have hhalted : (l.step env arrival).server.halted = true := by rw [hacts]
        rw [run_halted hhalted]
        exact ⟨events, .inr hacts, fun fd _ hup' => absurd (hup'.symm.trans hhalted) (by simp)⟩

end Step

theorem parseRequest_congr {b b' : Bytes}
    (h : parseCommand unlimited b = parseCommand unlimited b') :
    parseRequest b = parseRequest b' := by
  unfold parseRequest
  rw [h]

theorem parseRequest_eq_item {b : Bytes} {r : Request} {n : ℕ}
    (h : parseRequest b = .ok (some (r, n))) :
    parseCommand unlimited b = .ok (some (r.args, n)) := by
  unfold parseRequest at h
  split at h
  · cases h
  · cases h
  · rename_i args consumed hp
    split at h
    · cases h
      exact hp
    · cases h

theorem settled_parseRequest {b : Bytes} (h : Settled (parseCommand unlimited) b) :
    Settled parseRequest b where
  done q r n hq hp := by
    obtain ⟨hpos, hle, hb⟩ := h.done q r.args n hq (parseRequest_eq_item hp)
    refine ⟨hpos, hle, ?_⟩
    rw [← hp]
    exact parseRequest_congr (hb.trans (parseRequest_eq_item hp).symm)
  fail q e hq hp := by
    rw [← hp]
    apply parseRequest_congr
    rcases hc : parseCommand unlimited q with e' | _ | ⟨args, n⟩
    · exact h.fail q e' hq hc
    · rw [parseRequest, hc] at hp
      cases hp
    · exact (h.done q args n hq hc).2.2

theorem steady_parseRequest {b : Bytes} (h : Steady (parseCommand unlimited) b) :
    Steady parseRequest b := by
  induction h with
  | @stop b hs hn =>
    refine .stop (settled_parseRequest hs) ?_
    rintro ⟨r, n⟩ hp
    exact hn _ (parseRequest_eq_item hp)
  | @item b args n hs hp _ ih =>
    rcases hr : parseRequest b with e | _ | ⟨r, n'⟩
    · exact .stop (settled_parseRequest hs) fun p => by rw [hr]; rintro ⟨⟩
    · exact .stop (settled_parseRequest hs) fun p => by rw [hr]; rintro ⟨⟩
    · have hsame := hp.symm.trans (parseRequest_eq_item hr)
      obtain ⟨-, rfl⟩ : args = r.args ∧ n = n' := by simpa using hsame
      exact .item (settled_parseRequest hs) hr ih

/-- Only clients have something in a buffer. -/
theorem erased_run {l : Loop F} (h : ∀ fd, fd ∉ l.server.clients → l.buffers fd = [])
    (arrivals : List ((ℕ → Env) × Arrival)) :
    ∀ fd, fd ∉ (run arrivals l).server.clients → (run arrivals l).buffers fd = [] := by
  have hsettle : ∀ (s : Server F) (l : Loop F) (fd : ℤ), fd ∉ (l.settle s).server.clients →
      (l.settle s).buffers fd = [] := fun s l fd hfd => if_neg hfd
  induction arrivals generalizing l with
  | nil => exact h
  | cons a arrivals ih =>
    apply ih
    unfold step
    split
    · exact h
    · split
      · exact hsettle _ l
      · unfold fromClient
        split
        · exact h
        · dsimp only
          split
          · exact hsettle _ _
          · exact hsettle _ l
          · exact hsettle _ l
          · exact hsettle _ l
      · exact hsettle _ l
      · exact hsettle _ l
      · exact hsettle _ l
      · exact hsettle _ l

theorem logged_loop (config : Config) (replid : ReplId) (link : Option (ℤ × ℤ))
    (arrivals : List ((ℕ → Env) × Arrival)) :
    (run arrivals (⟨boot config replid link, fun _ => []⟩ : Loop F)).server.Logged Anything
      Always := by
  have hboot : (boot config replid link : Server F).Logged Anything Always :=
    logged_boot config replid link
  obtain ⟨events, hacts, -⟩ :=
    handles_run (l := (⟨boot config replid link, fun _ => []⟩ : Loop F)) hboot arrivals
  have hlogged := Logged.run (F := F) config replid link events
  rcases hacts with hacts | hacts
  · rw [hacts]
    exact hlogged
  · rw [hacts]
    exact hlogged.congr rfl ⟨rfl, rfl⟩ ⟨rfl, rfl⟩ rfl ⟨rfl, rfl⟩

/-- The loop over bytes does to its server what the requests of the clients do, in the order in
which they complete, along with the other events. The requests of each client that stays connected
are those that the parser takes from its own chunks, one after the other. If nothing was left in
its buffer, as for a new connection, they do not even depend on how the bytes were cut, unless a
bulk length overflows. -/
theorem requests_framed (config : Config) (replid : ReplId) (link : Option (ℤ × ℤ))
    (before during : List ((ℕ → Env) × Arrival)) :
    let l : Loop F := run before ⟨boot config replid link, fun _ => []⟩
    let l' := run during l
    (∀ fd, fd ∉ l.server.clients → l.buffers fd = []) ∧
      ∃ events, Acts events l.server l'.server ∧
        ∀ fd, StaysOpen fd during l → l'.server.halted = false →
          feedAll parseRequest collect [] (l.buffers fd) (chunksOf fd during) =
              (requestsOn fd events, .ok (l'.buffers fd)) ∧
            (l.buffers fd = [] → ∀ cs : List Bytes, cs.flatten = (chunksOf fd during).flatten →
              cs.flatten.length < 2 ^ 63 → NoOverflow unlimited cs.flatten →
              feedAll parseRequest collect [] [] cs =
                (requestsOn fd events, .ok (l'.buffers fd))) := by
  intro l l'
  refine ⟨erased_run (fun _ _ => rfl) before, ?_⟩
  obtain ⟨events, hacts, hframed⟩ :=
    handles_run (logged_loop (F := F) config replid link before) during
  refine ⟨events, hacts, ?_⟩
  intro fd hstays hup
  have hchunks := hframed fd hstays hup []
  refine ⟨hchunks, ?_⟩
  intro hempty cs hcs hsize hoverflow
  rw [← List.nil_append (requestsOn fd events), ← hchunks]
  have hsteady := steady_parseRequest (steady_of_noOverflow hsize hoverflow)
  have hcongr : feedAll parseRequest collect [] [] cs =
      feedAll parseRequest collect [] [] (chunksOf fd during) :=
    Steady.feedAll_congr rfl hsteady hcs []
  rw [hcongr]
  exact congrArg (feedAll parseRequest collect [] · (chunksOf fd during)) hempty.symm

instance decidableStaysOpen (fd : ℤ) : (arrivals : List ((ℕ → Env) × Arrival)) → (l : Loop F) →
    Decidable (StaysOpen fd arrivals l)
  | [], l => inferInstanceAs (Decidable (fd ∈ l.server.clients ∧ l.server.masterFd ≠ some fd))
  | (env, arrival) :: arrivals, l =>
    have := decidableStaysOpen fd arrivals (l.step env arrival)
    inferInstanceAs (Decidable ((fd ∈ l.server.clients ∧ l.server.masterFd ≠ some fd) ∧
      StaysOpen fd arrivals (l.step env arrival)))

/-- Two clients have connected. -/
def attended : Loop Whole :=
  run [(fun _ => .still, .accept 5), (fun _ => .still, .accept 6)]
    ⟨boot {} .zeros none, fun _ => []⟩

/-- One request arrives in two pieces, with requests of another client in between. -/
def interleaved : List ((ℕ → Env) × Arrival) :=
  [(fun _ => .still, .bytes 5 (ascii "*2\r\n$3\r\nGET\r\n$1")),
    (fun _ => .still,
      .bytes 6 (encode [ascii "SET", ascii "k", ascii "v"] ++ encode [ascii "PING"])),
    (fun _ => .still, .bytes 5 (ascii "\r\nk\r\n"))]

theorem requests_framed_interleaved :
    ∃ events, Acts events attended.server (run interleaved attended).server ∧
      (requestsOn 5 events).map Request.args = [[ascii "GET", ascii "k"]] ∧
      (requestsOn 6 events).map Request.args =
        [[ascii "SET", ascii "k", ascii "v"], [ascii "PING"]] := by
  obtain ⟨-, events, hacts, hframed⟩ := requests_framed (F := Whole) {} .zeros none
    [(fun _ => .still, .accept 5), (fun _ => .still, .accept 6)] interleaved
  change ∀ fd, StaysOpen fd interleaved attended →
    (run interleaved attended).server.halted = false →
    feedAll parseRequest collect [] (attended.buffers fd) (chunksOf fd interleaved) =
      (requestsOn fd events, .ok ((run interleaved attended).buffers fd)) ∧ _ at hframed
  have hup : (run interleaved attended).server.halted = false := by decide +kernel
  have hopen : StaysOpen 5 interleaved attended ∧ StaysOpen 6 interleaved attended := by
    decide +kernel
  have hfirst : (feedAll parseRequest collect [] (attended.buffers 5)
      (chunksOf 5 interleaved)).1.map Request.args = [[ascii "GET", ascii "k"]] := by
    decide +kernel
  have hsecond : (feedAll parseRequest collect [] (attended.buffers 6)
      (chunksOf 6 interleaved)).1.map Request.args =
        [[ascii "SET", ascii "k", ascii "v"], [ascii "PING"]] := by decide +kernel
  rw [(hframed 5 hopen.1 hup).1] at hfirst
  rw [(hframed 6 hopen.2 hup).1] at hsecond
  exact ⟨events, hacts, hfirst, hsecond⟩

end Loop

end TrueStore
