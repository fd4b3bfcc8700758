import TrueStore.Command.Frame

/-! # Commands of many clients

The commands of all clients work on one store, one command at a time. Between two commands the
event loop takes what the first one left for it. What else the loop does to the store meanwhile,
such as serving clients that wait, is an arbitrary change.
-/

namespace TrueStore

open RespType

variable {F : Type} [Platform F]

structure Free (client : ClientState) : Prop where
  authenticated : client.authenticated = true
  subscriptions : client.subscriptions.isEmpty = true
  inMulti : client.inMulti = false

theorem refusal_of_free {client : ClientState} (hauth : client.authenticated = true)
    (hsub : client.subscriptions.isEmpty = true) {args : List Bytes} (hargs : args ≠ [])
    (store : Store F) : refusal args store client = none := by
  simp [refusal, hauth, hsub, hargs]

theorem runCommand_of_not_control {args : List Bytes} (hc : upperName args ∉ controlCommands)
    (clock : ℕ → Readings) (store : Store F) (client : ClientState) :
    runCommand clock args store client =
      if client.inMulti then
        ((simpleString (ascii "QUEUED")).toBytes, store, client.enqueue args)
      else dispatchCommand (clock 0) args store client := by
  simp only [controlCommands, List.map_cons, List.map_nil, List.mem_cons, List.not_mem_nil,
    or_false, not_or] at hc
  obtain ⟨h₁, h₂, h₃, h₄, h₅, h₆, h₇⟩ := hc
  simp only [runCommand, h₁, h₂, h₃, h₄, h₅, h₆, h₇, or_self, if_false]
  rfl

/-- The store and what it knows of each client. -/
structure World (F : Type) [Platform F] where
  store : Store F
  clients : ℤ → ClientState

/-- A command of a client, with its clock readings, or a change of the store on behalf of others. -/
inductive Turn (F : Type) [Platform F] where
  | command (fd : ℤ) (clock : ℕ → Readings) (args : List Bytes)
  | elsewhere (change : Store F → Store F)

def Turn.by? : Turn F → Option ℤ
  | command fd _ _ => some fd
  | elsewhere _ => none

namespace Store

structure Settled (s : Store F) : Prop where
  block : s.pendingBlock = none
  propagations : s.pendingPropagations = []
  messages : s.pendingMessages = []

/-- The event loop takes what is left, and the offset counts the bytes that it propagates. -/
def settle (s : Store F) (logged : List (List Bytes)) : Store F :=
  { s with
    pendingBlock := none
    pendingPropagations := []
    pendingMessages := []
    masterReplOffset := s.masterReplOffset + (logged.flatMap encode).length }

theorem settled_settle (s : Store F) (logged : List (List Bytes)) : (s.settle logged).Settled :=
  ⟨rfl, rfl, rfl⟩

theorem Settled.settle_nil {s : Store F} (h : s.Settled) : s.settle [] = s := by
  cases s
  obtain ⟨rfl, rfl, rfl⟩ := h
  simp [settle]

end Store

namespace World

def fresh (store : Store F) : World F :=
  ⟨store.settle [], fun fd => { fd, authenticated := store.defaultUserAutoAuth }⟩

/-- What `handle_command` does for a client. -/
def handle (fd : ℤ) (clock : ℕ → Readings) (args : List Bytes) (w : World F) :
    Bytes × Store F × ClientState :=
  handleCommand clock args w.store (w.clients fd)

def reply (fd : ℤ) (clock : ℕ → Readings) (args : List Bytes) (w : World F) : Bytes :=
  (w.handle fd clock args).1

def logged (fd : ℤ) (clock : ℕ → Readings) (args : List Bytes) (w : World F) :
    List (List Bytes) :=
  ownArgs args (w.clients fd) (w.reply fd clock args) ++
    (w.handle fd clock args).2.1.pendingPropagations

def play (w : World F) : Turn F → World F
  | .command fd clock args =>
    ⟨(w.handle fd clock args).2.1.settle (w.logged fd clock args),
      Function.update w.clients fd (w.handle fd clock args).2.2⟩
  | .elsewhere change => ⟨(change w.store).settle [], w.clients⟩

def playAll (turns : List (Turn F)) (w : World F) : World F := turns.foldl play w

@[simp] theorem playAll_nil (w : World F) : playAll [] w = w := rfl

@[simp] theorem playAll_cons (t : Turn F) (turns : List (Turn F)) (w : World F) :
    playAll (t :: turns) w = playAll turns (w.play t) := rfl

theorem playAll_append (turns turns' : List (Turn F)) (w : World F) :
    playAll (turns ++ turns') w = playAll turns' (playAll turns w) :=
  List.foldl_append ..

theorem settled_play (w : World F) (t : Turn F) : (w.play t).store.Settled := by
  cases t <;> exact Store.settled_settle _ _

theorem settled_playAll {w : World F} (h : w.store.Settled) (turns : List (Turn F)) :
    (playAll turns w).store.Settled := by
  induction turns generalizing w with
  | nil => exact h
  | cons t turns ih => exact ih (w.settled_play t)

theorem play_clients_of_ne {w : World F} {t : Turn F} {fd : ℤ} (h : t.by? ≠ some fd) :
    (w.play t).clients fd = w.clients fd := by
  cases t with
  | command fd' clock args => exact Function.update_of_ne (fun he => h (by rw [he]; rfl)) _ _
  | elsewhere change => rfl

/-- Outside of a transaction a client has no queue. -/
def Tidy (client : ClientState) : Prop := client.inMulti = false → client.queued = []

theorem tidy_execQueue (clock : ℕ → Readings) (queue : List (List Bytes)) (store : Store F)
    (client : ClientState) :
    (execQueue clock queue store client).2.2.queued = client.queued := by
  induction queue generalizing clock store client with
  | nil => rfl
  | cons args queue ih =>
    simp only [execQueue, ih]
    exact (kept_dispatchCommand (clock 0) args store client).2

theorem inMulti_dispatchCommand (clock : Readings) (args : List Bytes) (store : Store F)
    (client : ClientState) :
    (dispatchCommand clock args store client).2.2.inMulti = client.inMulti := by
  rcases dispatchCommand_cases clock args store client with
    ⟨command, -, hd⟩ | ⟨-, key, value, rest, -, -, hd⟩ | ⟨-, -, happart⟩
  · rw [hd]
  · rw [hd]
  · rw [happart.aside.client]

theorem tidy_runCommand (clock : ℕ → Readings) (args : List Bytes) (store : Store F)
    {client : ClientState} (h : Tidy client) :
    Tidy (runCommand clock args store client).2.2 := by
  unfold runCommand
  dsimp only
  repeat' split
  · exact h
  · exact fun _ => rfl
  · exact fun _ => rfl
  · exact h
  · exact h
  · exact fun he => by simp at he
  · exact h
  · exact h
  · exact h
  · exact h
  · exact h
  · exact fun _ => rfl
  · exact h
  · unfold execTransaction
    dsimp only
    split
    · exact fun _ => rfl
    · exact fun _ => tidy_execQueue _ _ _ _
  · rename_i hin
    exact fun he => by simp [hin] at he
  · intro he
    rw [inMulti_dispatchCommand] at he
    rw [(kept_dispatchCommand (clock 0) args store client).2]
    exact h he

theorem tidy_handleCommand (clock : ℕ → Readings) (args : List Bytes) (store : Store F)
    {client : ClientState} (h : Tidy client) :
    Tidy (handleCommand clock args store client).2.2 := by
  unfold handleCommand
  split
  · exact h
  · exact tidy_runCommand clock args store h

theorem tidy_playAll {w : World F} (h : ∀ fd, Tidy (w.clients fd)) (turns : List (Turn F)) :
    ∀ fd, Tidy ((playAll turns w).clients fd) := by
  induction turns generalizing w with
  | nil => exact h
  | cons t turns ih =>
    refine ih fun fd => ?_
    by_cases hb : t.by? = some fd
    · cases t with
      | elsewhere change => cases hb
      | command fd' clock args =>
        cases hb
        simp only [play, Function.update_self]
        exact tidy_handleCommand clock args _ (h fd)
    · rw [play_clients_of_ne hb]
      exact h fd

end World

end TrueStore
