import TrueStore.Order.Sorted
import TrueStore.Server.Replication

/-! # Offsets

A primary counts the bytes that it has sent to its replicas, and a replica those that it has
consumed. What a replica acknowledges it has consumed, so `WAIT` counts replicas that have run the
writes that the client waits for.
-/

namespace TrueStore.Cluster

open RespType Framing Server

variable {F : Type} [Platform F]

theorem Small.of_append {s s' : Server F} (h : Small s') {items : List Propagation}
    (hstream : s'.stream = s.stream ++ items) : Small s := by
  unfold Small at h ⊢
  rw [hstream, streamBytes_append, List.length_append] at h
  omega

section Consumed

variable {s : Server F} {q : Peer F} {done items : List Propagation}

end Consumed

def Ordinary (args : List Bytes) : Prop := upperName args ≠ ascii "PSYNC"

instance : DecidablePred Ordinary :=
  fun args => inferInstanceAs (Decidable (upperName args ≠ ascii "PSYNC"))

/-- Replicas with these acknowledged offsets are there, and have consumed as much. -/
def Acknowledged (replicas : Std.ExtTreeMap ℤ ℤ) (sys : Cluster F) : Prop :=
  ∀ link acked : ℤ, replicas[link]? = some acked →
    ∃ q, sys.peers link = some q ∧ (Small sys.primary → acked ≤ q.server.replicaOffset)

/-- In a step a connection asks for the replicas that have reached the end of its last write: its
`WAIT` comes now, or it waits since an earlier one. -/
def Asks (sys sys' : Cluster F) (fd target : ℤ) : Prop :=
  (∃ w ∈ sys.primary.waiters, w.kind = .wait ∧ w.fd = fd ∧ w.targetOffset = target) ∨
    ∃ (env : Env) (r : Request) (since : ℕ), upperName r.args = ascii "WAIT" ∧
      sys.primary.joined[fd]? = some since ∧ Written fd since sys.primary.stream target ∧
      sys' = sys.move (sys.primary.step env (.request fd r))

section Acknowledged

variable {P Q : List Bytes → Prop} {config : Config} {replid : ReplId} {sys sys' : Cluster F}
  {replicas : Std.ExtTreeMap ℤ ℤ} {link : ℤ} {q : Peer F}

theorem Acknowledged.fewer (h : Acknowledged replicas sys) {replicas' : Std.ExtTreeMap ℤ ℤ}
    (hf : Fewer replicas replicas') : Acknowledged replicas' sys :=
  fun link acked hr => h link acked (hf link acked hr)

theorem Acknowledged.peer (h : Acknowledged replicas sys) (hmem : link ∈ replicas) :
    ∃ q, sys.peers link = some q := by
  obtain ⟨acked, hacked⟩ := Option.isSome_iff_exists.mp
    (Std.ExtTreeMap.isSome_getElem?_iff_mem.mpr hmem)
  obtain ⟨q, hq, -⟩ := h link acked hacked
  exact ⟨q, hq⟩

theorem acked_of_ackText {s : Server F} {r : Request} {client : ClientState} {text : Bytes}
    {offset acked : ℤ} (h : IsAck offset r.bytes) (htext : s.ackText r.args client = some text)
    (hacked : stoll text = some acked) : acked ≤ offset := by
  obtain ⟨n, hle, hargs⟩ := args_of_isAck h
  rw [hargs] at htext
  simp only [ackText] at htext
  split at htext
  · cases htext
    obtain ⟨sign, magnitude, hscan, hvalue⟩ := scanInteger_decimalInt n
    simp only [stoll, scanSigned, hscan, hvalue] at hacked
    split at hacked
    · cases hacked
      exact hle
    · cases hacked
  · cases htext

theorem Linked.offset_le {client : ClientState} {s : Server F} (h : Linked P Q link client s q)
    (env : Env) {event : Event} (hl : event.isLocal = true ∨ ∃ chunk, event = .chunk chunk) :
    q.server.replicaOffset ≤ (q.server.step env event).replicaOffset := by
  rcases hl with hl | ⟨chunk, rfl⟩
  · obtain ⟨config, replid, offset, events, hrun⟩ := h.server
    have hlogged : q.server.Logged Anything Always := by
      rw [hrun]
      exact Logged.run config replid (some (q.fd, offset)) events
    exact (congrArg (·.2.1) (fixed_step hlogged.settled.block env hl)).ge
  · unfold Server.step
    split
    · exact le_rfl
    · exact (link_fromMaster env chunk q.server).2

/-- A new replica starts from the offset at which it is registered. -/
theorem Inv.joins (h : Inv P Q config replid sys) (hq : sys.peers link = some q)
    (hsince : q.since = sys.primary.stream.length) {s : Server F} {A : ℤ → ℤ → Prop}
    (ht : s.Tracked A) {R : List Bytes → Prop} (hstreams : Streams R s sys.primary)
    (hsmall : Small sys.primary) :
    s.store.masterReplOffset ≤ q.server.replicaOffset := by
  obtain ⟨client, hlinked⟩ := h.linked link q hq
  obtain ⟨done, hdone, hconsumed⟩ := hlinked.consumed
  obtain ⟨items, hstream, -⟩ := hstreams
  rw [hsince, List.drop_length] at hdone
  obtain rfl := List.prefix_nil.mp hdone
  rw [ht.offset, hconsumed.offset hsmall, hsince, List.append_nil, List.take_length, hstream,
    streamBytes_append, List.length_append]
  push_cast
  omega

theorem Inv.asks (h : Inv P Q config replid sys) (sys' : Cluster F) :
    sys.primary.Tracked (Asks sys sys') :=
  h.primary.tracked.imp fun w hw hk => .inl ⟨w, hw, hk, rfl, rfl⟩

/-- A step of the primary that keeps the replicas: what is acknowledged after it and at each reply
to `WAIT` in it was so before, or is by the request. -/
theorem Inv.answers (k : Kinds P Q) (h : Inv P Q config replid sys)
    (hack : Acknowledged sys.primary.replicas sys) {env : Env} {event : Event}
    (hl : event.isLocal = true) (he : event.Carries P)
    (hprimary : sys'.primary = sys.primary.step env event)
    (hwait : ∀ fd r, event = .request fd r → upperName r.args = ascii "WAIT" →
      sys' = sys.move (sys.primary.step env event))
    (hkept : ∀ other q, sys.peers other = some q →
      ∃ q', sys'.peers other = some q' ∧ q'.server = q.server)
    (hnew : ∀ (other acked : ℤ) r, event = .request other r →
      Acknowledges sys.primary r other acked →
      ∃ q, sys'.peers other = some q ∧ (Small sys'.primary → acked ≤ q.server.replicaOffset)) :
    ∃ replicas, Answered (Asks sys sys') replicas sys.primary sys'.primary ∧
      Acknowledged replicas sys' := by
  have hsettled := h.primary.settled k
  have hasks : ∀ fd r client, event = .request fd r → sys.primary.clients[fd]? = some client →
      upperName r.args = ascii "WAIT" → Asks sys sys' fd client.replOffset := by
    rintro fd r client rfl hc hname
    obtain ⟨since, hjoined, -, hw⟩ := h.primary.tracked.clients fd client hc
    exact .inr ⟨env, r, since, hname, hjoined, hw, hwait fd r rfl hname⟩
  obtain ⟨replicas, hanswered, hfrom⟩ :=
    answered_step (h.asks sys') hsettled.block hsettled.pending env hl hasks
  obtain ⟨items, hstream, -⟩ := streams_step k.pops hsettled env he hl
  rw [← hprimary] at hanswered hstream
  refine ⟨replicas, hanswered, fun other acked hget => ?_⟩
  rcases hfrom other acked hget with hold | ⟨r, hr, hacked⟩
  · obtain ⟨q, hq, hle⟩ := hack other acked hold
    obtain ⟨q', hq', hserver⟩ := hkept other q hq
    exact ⟨q', hq', fun hsmall => by rw [hserver]; exact hle (hsmall.of_append hstream)⟩
  · exact hnew other acked r hr hacked

theorem Inv.keeps (h : Inv P Q config replid sys) (hack : Acknowledged sys.primary.replicas sys)
    {q' : Peer F} (hq : sys.peers link = some q)
    (hle : q.server.replicaOffset ≤ q'.server.replicaOffset) :
    ∃ replicas, Answered (Asks sys (sys.setPeer link (some q'))) replicas sys.primary
        (sys.setPeer link (some q')).primary ∧
      Acknowledged replicas (sys.setPeer link (some q')) := by
  refine ⟨sys.primary.replicas, (Serves.refl (h.asks _)).answered, fun other acked hr => ?_⟩
  obtain ⟨q₀, hq₀, hacked⟩ := hack other acked hr
  by_cases ho : other = link
  · subst ho
    obtain rfl := Option.some.inj (hq.symm.trans hq₀)
    exact ⟨q', setPeer_self _, fun hsmall => (hacked hsmall).trans hle⟩
  · exact ⟨q₀, (Function.update_of_ne ho _ _).trans hq₀, hacked⟩

theorem Inv.answered (h : Inv Loggable Loggable config replid sys)
    (hack : Acknowledged sys.primary.replicas sys) (hstep : Step Ordinary Anything sys sys') :
    ∃ replicas, Answered (Asks sys sys') replicas sys.primary sys'.primary ∧
      Acknowledged replicas sys' := by
  have hinv := h.step kinds_loggable (fun r _ => loggable_request r)
    (fun r _ => loggable_request r) hstep
  cases hstep with
  | @primary env event hl hfd he hd =>
    refine h.answers kinds_loggable hack hl (carries_of_requests he fun r _ => loggable_request r)
      rfl (fun _ _ _ _ => rfl)
      (fun other q hq => ⟨_, Option.map_eq_some_iff.mpr ⟨q, hq, rfl⟩, rfl⟩) ?_
    rintro other acked r rfl (⟨hpsync, -⟩ | ⟨hmem, -⟩)
    · exact absurd hpsync he
    · obtain ⟨q, hq⟩ := hack.peer hmem
      rw [hfd other rfl] at hq
      cases hq
  | @join env link client r config' replid' fd offset down hfree hargs hunused hd hloss hshake =>
    have he : (Event.request link r).Carries Loggable := loggable_request r
    have hname : upperName r.args ≠ ascii "WAIT" := by
      rw [hargs]
      decide
    refine h.answers kinds_loggable hack rfl he rfl
      (fun fd r' heq hw => by cases heq; exact absurd hw hname) (fun other q hq => ?_) ?_
    · have ho : other ≠ link := by
        rintro rfl
        rw [hfree] at hq
        cases hq
      exact ⟨_, (Function.update_of_ne ho _ _).trans (Option.map_eq_some_iff.mpr ⟨q, hq, rfl⟩),
        rfl⟩
    · rintro other acked r' heq (⟨-, rfl⟩ | ⟨hmem, -⟩)
      · cases heq
        exact ⟨_, setPeer_self _, hinv.joins (setPeer_self _) rfl h.primary.tracked
          (streams_step popClosed_loggable (h.primary.settled kinds_loggable) env he rfl)⟩
      · cases heq
        obtain ⟨q, hq⟩ := hack.peer hmem
        rw [hfree] at hq
        cases hq
  | @deliver link q env chunk rest hq hdown =>
    obtain ⟨client, hlinked⟩ := h.linked link q hq
    exact h.keeps hack hq (hlinked.offset_le env (.inr ⟨chunk, rfl⟩))
  | @acknowledge link q env r rest hq hup hd =>
    obtain ⟨client, hlinked⟩ := h.linked link q hq
    have hsent : IsAck q.server.replicaOffset r.bytes :=
      hlinked.acks _ (by rw [hup]; exact List.mem_cons_self)
    have he : (Event.request link r).Carries Loggable := loggable_request r
    have hname : upperName r.args ≠ ascii "WAIT" := by
      rw [name_of_isAck hsent]
      decide
    refine h.answers kinds_loggable hack rfl he rfl
      (fun fd r' heq hw => by cases heq; exact absurd hw hname) (fun other q₀ hq₀ => ?_) ?_
    · by_cases ho : other = link
      · subst ho
        obtain rfl := Option.some.inj (hq.symm.trans hq₀)
        exact ⟨_, Option.map_eq_some_iff.mpr ⟨_, setPeer_self _, rfl⟩, rfl⟩
      · exact ⟨_, Option.map_eq_some_iff.mpr
          ⟨q₀, (Function.update_of_ne ho _ _).trans hq₀, rfl⟩, rfl⟩
    · rintro other acked r' heq (⟨hpsync, -⟩ | ⟨-, client', text, -, htext, hacked⟩)
      · cases heq
        rw [name_of_isAck hsent] at hpsync
        exact absurd hpsync (by decide)
      · cases heq
        exact ⟨_, Option.map_eq_some_iff.mpr ⟨_, setPeer_self _, rfl⟩,
          fun _ => acked_of_ackText hsent htext hacked⟩
  | @replica link q env event hq hl hfd he hloss =>
    obtain ⟨client, hlinked⟩ := h.linked link q hq
    exact h.keeps hack hq (hlinked.offset_le env (.inl hl))
  | @leave link env hsome hd =>
    obtain ⟨q, hq⟩ := Option.isSome_iff_exists.mp hsome
    obtain ⟨client, hlinked⟩ := h.linked link q hq
    have hclient : sys.primary.clients.contains link = true := by
      rw [Std.ExtTreeMap.contains_eq_isSome_getElem?, hlinked.unused.connected]
      rfl
    have hclosed : sys.primary.step env (.hangup link) = sys.primary.closeClient link := by
      simp [Server.step, h.primary.halted, hclient]
    have hserves : Serves (Asks sys ((sys.setPeer link none).move
        (sys.primary.step env (.hangup link)))) sys.primary
        (sys.primary.step env (.hangup link)) := by
      rw [hclosed]
      exact serves_closeClient (h.asks _) link
    obtain ⟨new, hnew, hcounted⟩ := hserves.sends
    have hnil : new = [] := by
      rw [hclosed] at hnew
      exact List.self_eq_append_right.mp hnew
    refine ⟨_, ⟨fun _ _ hr => hr, ⟨new, hnew, by simp [hnil]⟩, hserves.tracked⟩,
      fun other acked hget => ?_⟩
    have ho : other ≠ link := by
      rintro rfl
      simp [move, hclosed, closeClient] at hget
    obtain ⟨q', hq', hacked⟩ := hack other acked (hserves.replicas other acked hget)
    obtain ⟨items, hstream⟩ := hserves.stream
    exact ⟨_, Option.map_eq_some_iff.mpr ⟨q', (Function.update_of_ne ho _ _).trans hq', rfl⟩,
      fun hsmall => hacked (hsmall.of_append hstream)⟩

end Acknowledged

def serve (event : Event) (sys : Cluster Whole) : Cluster Whole :=
  sys.move (sys.primary.step .still event)

theorem step_serve {P Q : List Bytes → Prop} {sys : Cluster Whole} (event : Event)
    (hl : event.isLocal = true) (hfd : ∀ fd, event.fd? = some fd → sys.peers fd = none)
    (he : event.Carries P)
    (hall : ∀ m ∈ sent sys.primary (sys.primary.step .still event), m.delivered = true) :
    Step P Q sys (serve event sys) :=
  .primary .still hl hfd he fun _ _ => Lossless.of_all hall

def waiting : Request := .of [ascii "WAIT", ascii "1", ascii "0"] (by decide)

def acknowledging : Request := .of [ascii "REPLCONF", ascii "ACK", ascii "27"] (by decide)

def guarding : Request :=
  .of [ascii "ACL", ascii "SETUSER", ascii "default", ascii ">tower"] (by decide)

def admitting : Request :=
  .of [ascii "ACL", ascii "SETUSER", ascii "default", ascii "nopass"] (by decide)

def locked : Cluster Whole :=
  serve (.accept 5) (serve (.request 6 guarding) (serve (.accept 6) (start {} .zeros)))

def opened : Cluster Whole := serve (.request 6 admitting) locked

def entered : Cluster Whole :=
  (opened.move (opened.primary.step .still (.request 5 joining))).setPeer 5 (some
    { server := boot {} .zeros (some (7, 0))
      fd := 7
      since := (opened.primary.step .still (.request 5 joining)).stream.length
      down := [] })

def barred : Cluster Whole :=
  serve (.request 6 waiting) (serve (.request 6 setting) (serve (.request 6 guarding) entered))

def heard : Peer Whole :=
  let q := (barred.peers 5).get (by decide +kernel)
  { q.move (q.server.step .still (.chunk q.down)) with down := [] }

/-- The acknowledgement of a replica whose connection was accepted under a password, and which was
registered while there was none. -/
def refused : Cluster Whole :=
  ((barred.setPeer 5 (some heard)).setPeer 5 (some { heard with up := [] })).move
    (barred.primary.step .still (.request 5 acknowledging))

end TrueStore.Cluster
