import TrueStore.Command.Interleaving
import TrueStore.Journal.Replay
import TrueStore.Server.Runs

/-! # Replaying the append-only file

`Aof::replay` reads the log in blocks and runs its commands as a client of its own. The first
command that blocks or fails, a protocol error or an incomplete file stops the start of the
server. A log whose commands are accepted one after the other is replayed completely.
-/

namespace TrueStore

open Framing Journal RespType

variable {F : Type} [Platform F]

namespace Aof

/-- The number of commands so far, which selects the clock readings of the next one, the store
and the client. -/
abbrev ReplayState (F : Type) [Platform F] := ℕ × Store F × ClientState

def failedToReplay (file response : Bytes) : Exn :=
  .runtimeError (ascii "Failed to replay AOF command in " ++ file ++ ascii ": " ++ response)

def incomplete (file : Bytes) : Exn := .runtimeError (ascii "Incomplete AOF: " ++ file)

def replayCommand (clock : ℕ → ℕ → Readings) (file : Bytes) :
    Handler (List Bytes) Exn (ReplayState F) := fun args _ st =>
  let r := handleCommand (clock st.1) args st.2.1 st.2.2
  ((st.1 + 1, { r.2.1 with pendingBlock := none, pendingPropagations := [] }, r.2.2),
    if r.2.1.pendingBlock.isSome || isError r.1 then some (failedToReplay file r.1) else none)

/-- The blocks in which a file is read; its length is enough fuel. -/
def chunks : ℕ → Bytes → List Bytes
  | 0, _ => []
  | fuel + 1, content =>
    if content = [] then [] else content.take 4096 :: chunks fuel (content.drop 4096)

/-- The loop of `Aof::replay` over one file, given by its name and its content. -/
def replayFile (clock : ℕ → ℕ → Readings) (file : Bytes × Bytes) (st : ReplayState F) :
    Except Exn (ReplayState F) :=
  match feedAll (parseCommand unlimited) (replayCommand clock file.1) st []
      (chunks file.2.length file.2) with
  | (_, .error e) => .error e
  | (st', .ok rest) =>
    if rest ≠ [] ∨ st'.2.2.inMulti then .error (incomplete file.1) else .ok st'

def replayFiles (clock : ℕ → ℕ → Readings) :
    List (Bytes × Bytes) → ReplayState F → Except Exn (ReplayState F)
  | [], st => .ok st
  | file :: files, st =>
    match replayFile clock file st with
    | .error e => .error e
    | .ok st' => replayFiles clock files st'

def replayClient : ClientState := { authenticated := true }

/-- `Aof::replay`: the store, or the exception that prevents the start. -/
def replay (clock : ℕ → ℕ → Readings) (files : List (Bytes × Bytes)) (store : Store F) :
    Except Exn (Store F) :=
  (replayFiles clock files (0, store, replayClient)).map fun st => st.2.1

theorem flatten_chunks {fuel : ℕ} {content : Bytes} (h : content.length ≤ fuel) :
    (chunks fuel content).flatten = content := by
  induction fuel generalizing content with
  | zero =>
    obtain rfl : content = [] := List.eq_nil_of_length_eq_zero (by omega)
    rfl
  | succ fuel ih =>
    unfold chunks
    split
    · rename_i he
      simp [he]
    · rename_i hne
      have hpos := List.length_pos_of_ne_nil hne
      rw [List.flatten_cons, ih (by rw [List.length_drop]; omega), List.take_append_drop]

end Aof

/-- A write on the data, refused when its reply is an error. -/
def write : Machine (Keyspace F) (List Bytes) Readings := fun clock args ks =>
  if isError (execute clock args ks).1 then none else some (execute clock args ks).2

theorem write_eq_some {clock : Readings} {args : List Bytes} {ks ks' : Keyspace F}
    (h : write clock args ks = some ks') :
    isError (execute clock args ks).1 = false ∧ ks' = (execute clock args ks).2 := by
  unfold write at h
  split at h
  · cases h
  · rename_i he
    exact ⟨by simpa using he, (Option.some.inj h).symm⟩

theorem commandName_of_isWriteCommand {command : Bytes} (h : isWriteCommand command = true) :
    ∀ name, commandName command = some name → ∃ data, name = .data data := by
  have hall : ∀ command ∈ writeCommands, ∀ name ∈ commandName command,
      name.toData.isSome = true := by decide
  intro name hn
  have hdata := hall command (by simpa [isWriteCommand] using h) name hn
  obtain ⟨data, hd⟩ := Option.isSome_iff_exists.mp hdata
  exact ⟨data, CommandName.toData_eq_some_iff.mp hd⟩

theorem dispatchCommand_write {args : List Bytes} (hw : isWriteCommand (upperName args) = true)
    (clock : Readings) (store : Store F) (client : ClientState) :
    dispatchCommand clock args store client =
      ((execute clock args store.toKeyspace).1,
        { store with toKeyspace := (execute clock args store.toKeyspace).2 }, client) := by
  rcases hn : commandName (upperName args) with _ | name
  · simp only [dispatchCommand, execute, dataCommand, hn]
  · obtain ⟨command, rfl⟩ := commandName_of_isWriteCommand hw name hn
    simp only [dispatchCommand, execute, dataCommand, hn, Store.onData]

theorem args_ne_nil_of_isWriteCommand {args : List Bytes}
    (h : isWriteCommand (upperName args) = true) : args ≠ [] := by
  rintro rfl
  revert h
  decide

theorem not_control_of_isWriteCommand {args : List Bytes}
    (hw : isWriteCommand (upperName args) = true) : upperName args ∉ controlCommands :=
  fun h => isWriteCommand_of_control h hw

theorem handleCommand_write {client : ClientState} (hfree : Free client) {args : List Bytes}
    (hw : isWriteCommand (upperName args) = true) (clock : ℕ → Readings) (store : Store F) :
    handleCommand clock args store client =
      ((execute (clock 0) args store.toKeyspace).1,
        { store with toKeyspace := (execute (clock 0) args store.toKeyspace).2 }, client) := by
  simp only [handleCommand, refusal_of_free hfree.authenticated hfree.subscriptions
    (args_ne_nil_of_isWriteCommand hw), runCommand_of_not_control (not_control_of_isWriteCommand hw),
    hfree.inMulti, Bool.false_eq_true, if_false, dispatchCommand_write hw]

theorem execQueue_writes {C : Readings → Prop} {Q : Keyspace F → Prop}
    {queue : List (List Bytes)} (hw : ∀ args ∈ queue, isWriteCommand (upperName args) = true)
    {clock : ℕ → Readings} (hC : ∀ i, C (clock i)) {store : Store F}
    (hb : store.pendingBlock = none) (client : ClientState)
    (h : Accepts write C queue Q store.toKeyspace) :
    Q (execQueue clock queue store client).2.1.toKeyspace ∧
      (execQueue clock queue store client).2.1.pendingBlock = none ∧
      (execQueue clock queue store client).2.2 = client := by
  induction queue generalizing clock store with
  | nil => exact ⟨h, hb, rfl⟩
  | cons args queue ih =>
    obtain ⟨ks', hks', h'⟩ := h (clock 0) (hC 0)
    obtain ⟨-, rfl⟩ := write_eq_some hks'
    have hd := dispatchCommand_write (hw args List.mem_cons_self) (clock 0) store client
    have hq := execQueued_eq (clock 0) args hb client
    rw [hd] at hq
    simp only [execQueue]
    rw [hq]
    exact ih (fun a ha => hw a (List.mem_cons_of_mem _ ha)) (fun i => hC (i + 1)) rfl h'

namespace Aof

structure Ready (st : ReplayState F) : Prop where
  client : st.2.2 = replayClient
  block : st.2.1.pendingBlock = none

theorem free_replayClient : Free replayClient := ⟨rfl, rfl, rfl⟩

section Log

variable {C : Readings → Prop} {clock : ℕ → ℕ → Readings} {file : Bytes}

def Replays (clock : ℕ → ℕ → Readings) (file : Bytes) (items : List (List Bytes × ℕ))
    (st st' : ReplayState F) : Prop :=
  handleAll (replayCommand clock file) items st = (st', none)

theorem Replays.append {items items' : List (List Bytes × ℕ)} {st st₁ st₂ : ReplayState F}
    (h : Replays clock file items st st₁) (h' : Replays clock file items' st₁ st₂) :
    Replays clock file (items ++ items') st st₂ := by
  unfold Replays at h h' ⊢
  rw [handleAll_append, h]
  exact h'

theorem replays_single {args : List Bytes} {n : ℕ} {st : ReplayState F}
    {r : Bytes × Store F × ClientState}
    (hr : handleCommand (clock st.1) args st.2.1 st.2.2 = r) (hb : r.2.1.pendingBlock = none)
    (he : isError r.1 = false) :
    Replays clock file [(args, n)] st
      (st.1 + 1, { r.2.1 with pendingBlock := none, pendingPropagations := [] }, r.2.2) := by
  simp [Replays, handleAll, replayCommand, hr, hb, he]

theorem replays_direct {args : List Bytes} (hw : isWriteCommand (upperName args) = true) (n : ℕ)
    {st : ReplayState F} (hst : Ready st) (hC : C (clock st.1 0)) {Q : Keyspace F → Prop}
    (h : Accepts write C [args] Q st.2.1.toKeyspace) :
    ∃ st', Replays clock file [(args, n)] st st' ∧ Ready st' ∧ Q st'.2.1.toKeyspace := by
  obtain ⟨ks', hks', h'⟩ := h _ hC
  obtain ⟨he, rfl⟩ := write_eq_some hks'
  have hr := handleCommand_write (hst.client ▸ free_replayClient) hw (clock st.1) st.2.1
  exact ⟨_, replays_single hr hst.block he, ⟨hst.client, rfl⟩, h'⟩

def queueing (queue : List (List Bytes)) : ClientState :=
  { replayClient with inMulti := true, queued := queue }

variable (clock file)

theorem replays_multi (n : ℕ) {st : ReplayState F} (hst : Ready st) :
    ∃ st', Replays clock file [([ascii "MULTI"], n)] st st' ∧ st'.2.2 = queueing [] ∧
      st'.2.1.pendingBlock = none ∧ st'.2.1.toKeyspace = st.2.1.toKeyspace := by
  have hr : handleCommand (clock st.1) [ascii "MULTI"] st.2.1 st.2.2 =
      (ok, st.2.1, queueing []) := by
    rw [hst.client]
    rfl
  exact ⟨_, replays_single hr hst.block rfl, rfl, rfl, rfl⟩

theorem replays_queue {items : List (List Bytes × ℕ)}
    (hw : ∀ item ∈ items, isWriteCommand (upperName item.1) = true) {queue : List (List Bytes)}
    {st : ReplayState F} (hclient : st.2.2 = queueing queue) (hb : st.2.1.pendingBlock = none) :
    ∃ st', Replays clock file items st st' ∧ st'.2.2 = queueing (queue ++ items.map Prod.fst) ∧
      st'.2.1.pendingBlock = none ∧ st'.2.1.toKeyspace = st.2.1.toKeyspace := by
  induction items generalizing queue st with
  | nil => exact ⟨st, rfl, by simpa using hclient, hb, rfl⟩
  | cons item items ih =>
    obtain ⟨args, n⟩ := item
    have hwrite := hw _ List.mem_cons_self
    have hr : handleCommand (clock st.1) args st.2.1 st.2.2 =
        ((simpleString (ascii "QUEUED")).toBytes, st.2.1, (queueing queue).enqueue args) := by
      rw [hclient, handleCommand, refusal_of_free rfl rfl (args_ne_nil_of_isWriteCommand hwrite)]
      exact runCommand_of_not_control (not_control_of_isWriteCommand hwrite) _ _ _
    have hclient₁ : ((st.1 + 1, { st.2.1 with pendingBlock := none, pendingPropagations := [] },
        (queueing queue).enqueue args) : ReplayState F).2.2 = queueing (queue ++ [args]) := rfl
    obtain ⟨st', hreplays, hclient', hb', hdata⟩ :=
      ih (fun item hm => hw item (List.mem_cons_of_mem _ hm)) hclient₁ rfl
    refine ⟨st', Replays.append (replays_single hr hb (by simp)) hreplays, ?_, hb', hdata⟩
    rw [hclient', List.append_assoc]
    rfl

theorem replays_exec {queue : List (List Bytes)}
    (hw : ∀ args ∈ queue, isWriteCommand (upperName args) = true) (n : ℕ) {st : ReplayState F}
    (hclient : st.2.2 = queueing queue) (hb : st.2.1.pendingBlock = none)
    (hC : ∀ i, C (clock st.1 i)) {Q : Keyspace F → Prop}
    (h : Accepts write C queue Q st.2.1.toKeyspace) :
    ∃ st', Replays clock file [([ascii "EXEC"], n)] st st' ∧ Ready st' ∧ Q st'.2.1.toKeyspace := by
  have hexec : handleCommand (clock st.1) [ascii "EXEC"] st.2.1 (queueing queue) =
      (arrayHeader queue.length ++
        (execQueue (fun i => clock st.1 (i + 1)) queue st.2.1 replayClient).1,
        (execQueue (fun i => clock st.1 (i + 1)) queue st.2.1 replayClient).2) := rfl
  rw [← hclient] at hexec
  obtain ⟨hQ, hblock, hc⟩ := execQueue_writes hw (fun i => hC (i + 1)) hb replayClient h
  exact ⟨_, replays_single hexec hblock (by simp [arrayHeader, isError]), ⟨hc, rfl⟩, hQ⟩

end Log

end Aof

namespace Entry

def requests : Entry → List (List Bytes)
  | direct args => [args]
  | transaction commands => [ascii "MULTI"] :: commands ++ [[ascii "EXEC"]]

theorem flatMap_encode_requests (entry : Entry) : entry.requests.flatMap encode = entry.bytes := by
  cases entry with
  | direct args => simp [requests, bytes]
  | transaction commands => simp [requests, bytes, Server.transactionBytes]

end Entry

def Loggable (args : List Bytes) : Prop := args.length ≤ maxSize ∧ (encode args).length < 2 ^ 63

theorem exists_requests {l : List (List Bytes)} (h : ∀ args ∈ l, Loggable args) :
    ∃ rs : List Request, rs.map Request.args = l ∧ wire rs = l.flatMap encode := by
  induction l with
  | nil => exact ⟨[], rfl, rfl⟩
  | cons args l ih =>
    obtain ⟨rs, hrs, hwire⟩ := ih fun a ha => h a (List.mem_cons_of_mem _ ha)
    obtain ⟨hlen, hbytes⟩ := h args List.mem_cons_self
    exact ⟨⟨args, hlen, hbytes⟩ :: rs, by simp [hrs], by simp [wire_cons, hwire, Request.bytes]⟩

theorem loggable_requests {entry : Entry} (h : ∀ args ∈ entry.commands, Loggable args) :
    ∀ args ∈ entry.requests, Loggable args := by
  cases entry with
  | direct args => exact h
  | transaction commands =>
    intro args ha
    simp only [Entry.requests, List.cons_append, List.mem_cons, List.mem_append, List.not_mem_nil,
      or_false] at ha
    rcases ha with rfl | ha | rfl
    · exact ⟨by decide, by decide⟩
    · exact h args ha
    · exact ⟨by decide, by decide⟩

namespace Aof

section Log

variable {C : Readings → Prop} {clock : ℕ → ℕ → Readings} {file : Bytes}

theorem replays_entry (hC : ∀ n i, C (clock n i)) {entry : Entry}
    (hw : ∀ args ∈ entry.commands, isWriteCommand (upperName args) = true)
    {items : List (List Bytes × ℕ)} (hi : items.map Prod.fst = entry.requests)
    {st : ReplayState F} (hst : Ready st) {Q : Keyspace F → Prop}
    (h : Accepts write C entry.commands Q st.2.1.toKeyspace) :
    ∃ st', Replays clock file items st st' ∧ Ready st' ∧ Q st'.2.1.toKeyspace := by
  cases entry with
  | direct args =>
    obtain ⟨⟨a, n⟩, rfl, rfl⟩ := List.map_eq_singleton_iff.mp hi
    exact replays_direct (hw _ List.mem_cons_self) n hst (hC _ _) h
  | transaction commands =>
    obtain ⟨⟨multi, m⟩, rest, rfl, rfl, hrest⟩ := List.map_eq_cons_iff.mp hi
    obtain ⟨queue, last, rfl, hqueue, hlast⟩ := List.map_eq_append_iff.mp hrest
    obtain ⟨⟨exec, n⟩, rfl, rfl⟩ := List.map_eq_singleton_iff.mp hlast
    have hw' : ∀ item ∈ queue, isWriteCommand (upperName item.1) = true := fun item hm =>
      hw _ (by rw [Entry.commands, ← hqueue]; exact List.mem_map_of_mem hm)
    obtain ⟨st₁, hr₁, hc₁, hb₁, hd₁⟩ := replays_multi clock file m hst
    obtain ⟨st₂, hr₂, hc₂, hb₂, hd₂⟩ := replays_queue clock file hw' hc₁ hb₁
    rw [List.nil_append, hqueue] at hc₂
    rw [← hd₁, ← hd₂] at h
    obtain ⟨st₃, hr₃, hready, hQ⟩ := replays_exec clock file hw n hc₂ hb₂ (hC st₂.1) h
    exact ⟨st₃, hr₁.append (hr₂.append hr₃), hready, hQ⟩

theorem replays_entries (hC : ∀ n i, C (clock n i)) {entries : List Entry}
    (hw : ∀ args ∈ entries.flatMap Entry.commands, isWriteCommand (upperName args) = true)
    {items : List (List Bytes × ℕ)} (hi : items.map Prod.fst = entries.flatMap Entry.requests)
    {st : ReplayState F} (hst : Ready st) {Q : Keyspace F → Prop}
    (h : Accepts write C (entries.flatMap Entry.commands) Q st.2.1.toKeyspace) :
    ∃ st', Replays clock file items st st' ∧ Ready st' ∧ Q st'.2.1.toKeyspace := by
  induction entries generalizing items st with
  | nil =>
    obtain rfl := List.map_eq_nil_iff.mp hi
    exact ⟨st, rfl, hst, h⟩
  | cons entry entries ih =>
    rw [List.flatMap_cons] at hi hw h
    obtain ⟨items₁, items₂, rfl, hi₁, hi₂⟩ := List.map_eq_append_iff.mp hi
    obtain ⟨st₁, hr₁, hst₁, h₁⟩ := replays_entry hC
      (fun a ha => hw a (List.mem_append_left _ ha)) hi₁ hst (accepts_append.mp h)
    obtain ⟨st₂, hr₂, hst₂, hQ⟩ := ih (fun a ha => hw a (List.mem_append_right _ ha)) hi₂ hst₁ h₁
    exact ⟨st₂, hr₁.append hr₂, hst₂, hQ⟩

/-- A log of writes that the machine accepts is replayed to its end. -/
theorem replay_isLog (hC : ∀ n i, C (clock n i)) {commands : List (List Bytes)} {bytes : Bytes}
    (hlog : IsLog commands bytes)
    (hw : ∀ args ∈ commands, isWriteCommand (upperName args) = true ∧ Loggable args)
    {store : Store F} (hb : store.pendingBlock = none) {Q : Keyspace F → Prop}
    (h : Accepts write C commands Q store.toKeyspace) :
    ∃ store', replay clock [(file, bytes)] store = .ok store' ∧ Q store'.toKeyspace := by
  obtain ⟨entries, rfl, rfl⟩ := hlog
  obtain ⟨rs, hargs, hwire⟩ := exists_requests (l := entries.flatMap Entry.requests) (by
    intro args ha
    obtain ⟨entry, hentry, ha⟩ := List.mem_flatMap.mp ha
    exact loggable_requests
      (fun a ha' => (hw a (List.mem_flatMap.mpr ⟨entry, hentry, ha'⟩)).2) args ha)
  have hbytes : entries.flatMap Entry.bytes = wire rs := by
    rw [hwire, List.flatMap_assoc]
    simp only [Entry.flatMap_encode_requests]
  have hitems : (rs.map fun r => (r.args, r.bytes.length)).map Prod.fst =
      entries.flatMap Entry.requests := by
    simpa [List.map_map, Function.comp_def] using hargs
  have hst : Ready ((0, store, replayClient) : ReplayState F) := ⟨rfl, hb⟩
  obtain ⟨st', hreplays, hready, hQ⟩ : ∃ st', Replays clock file
      (rs.map fun r => (r.args, r.bytes.length)) (0, store, replayClient) st' ∧ Ready st' ∧
        Q st'.2.1.toKeyspace :=
    replays_entries hC (fun a ha => (hw a ha).1) hitems hst h
  refine ⟨st'.2.1, ?_, hQ⟩
  have hchunks : (chunks (entries.flatMap Entry.bytes).length
      (entries.flatMap Entry.bytes)).flatten = wire rs ++ [] := by
    rw [flatten_chunks le_rfl, hbytes, List.append_nil]
  have hfeed := feedAll_wire (replayCommand clock file) rs (.inl rfl) (0, store, replayClient)
    hchunks
  rw [hreplays] at hfeed
  simp only [replay, replayFiles, replayFile, hfeed, hready.client]
  rfl

end Log

end Aof

end TrueStore
