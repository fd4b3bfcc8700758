import Mathlib.Logic.Relation
import Mathlib.Data.Int.Order.Basic
import Mathlib.Data.List.Perm.Basic
import Mathlib.Tactic

/-! # The slots of the poll set

The loop keeps its descriptors in an array, the listener first. In one turn it goes over the slots
that were there when `poll` returned; it adds accepted connections at the end and marks closed ones
with -1, in whatever slot they are. The marked slots are filled from the end before the next turn.
-/

namespace TrueStore.Server

/-- `MAX_FDS`. -/
def maxFds : ℕ := 200

def closed : ℤ := -1

/-- The first `nfds` slots of the array, and between two calls of `poll` the slot that the loop
is at with the number of slots that it goes over. -/
structure PollSet where
  slots : List ℤ
  visit : Option (ℕ × ℕ) := none

namespace PollSet

/-- The poll set before the loop: the listener, and the link to a primary if there is one. -/
def start (listener : ℤ) (master : Option ℤ) : PollSet := { slots := listener :: master.toList }

/-- A connection from `accept`, closed at once when it cannot be made non-blocking or there are too
many. -/
def accept (fd : ℤ) (nonblocking : Bool) (slots : List ℤ) : List ℤ :=
  if !nonblocking then slots
  else if slots.length = maxFds then slots
  else slots ++ [fd]

/-- What `close_client` does to the array. -/
def close (index : ℕ) (slots : List ℤ) : List ℤ := slots.set index closed

/-- A message that `deliver_messages` cannot send: its recipient is looked for from slot 1 on. -/
def undelivered (recipient : ℤ) (slots : List ℤ) : List ℤ :=
  match slots.tail.idxOf? recipient with
  | some index => close (index + 1) slots
  | none => slots

/-- The compaction loop from slot `i` on: a closed slot takes the last one, which is looked at
next. -/
def compactFrom (i : ℕ) (slots : List ℤ) : List ℤ :=
  if i < slots.length then
    if slots.getD i 0 = closed then
      compactFrom i (slots.set i (slots.getD (slots.length - 1) 0)).dropLast
    else compactFrom (i + 1) slots
  else slots
termination_by slots.length - i
decreasing_by
  · simp only [List.length_dropLast, List.length_set]
    omega
  · omega

def compact (slots : List ℤ) : List ℤ := compactFrom 1 slots

/-- The steps of the loop. An accepted descriptor is not open, so it is in no slot. -/
inductive Step (listener : ℤ) : PollSet → PollSet → Prop where
  /-- `poll` returns. -/
  | poll {slots : List ℤ} : Step listener ⟨slots, none⟩ ⟨slots, some (0, slots.length)⟩
  /-- The listener has connections. -/
  | accept {slots : List ℤ} {i size : ℕ} (fd : ℤ) (nonblocking : Bool) : i < size →
      slots[i]? = some listener → 0 ≤ fd → fd ∉ slots →
      Step listener ⟨slots, some (i, size)⟩ ⟨accept fd nonblocking slots, some (i, size)⟩
  /-- The connection of the slot is closed. -/
  | close {slots : List ℤ} {i size : ℕ} (fd : ℤ) : i < size → slots[i]? = some fd →
      fd ≠ listener →
      Step listener ⟨slots, some (i, size)⟩ ⟨close i slots, some (i, size)⟩
  /-- A command of the slot leads to messages, one of which cannot be delivered. -/
  | undelivered {slots : List ℤ} {i size : ℕ} (recipient : ℤ) : i < size →
      slots[i]? ≠ some listener →
      Step listener ⟨slots, some (i, size)⟩ ⟨undelivered recipient slots, some (i, size)⟩
  /-- The loop goes on to the next slot. -/
  | next {slots : List ℤ} {i size : ℕ} : i < size →
      Step listener ⟨slots, some (i, size)⟩ ⟨slots, some (i + 1, size)⟩
  /-- All slots have been visited. -/
  | compact {slots : List ℤ} {size : ℕ} :
      Step listener ⟨slots, some (size, size)⟩ ⟨compact slots, none⟩

def live (slots : List ℤ) : List ℤ := slots.filter (· ≠ closed)

theorem ne_closed {fd : ℤ} (h : 0 ≤ fd) : fd ≠ closed := fun he => by
  rw [he] at h
  exact absurd h (by decide)

theorem live_append (slots slots' : List ℤ) : live (slots ++ slots') = live slots ++ live slots' :=
  List.filter_append ..

theorem live_cons_closed (slots : List ℤ) : live (closed :: slots) = live slots := by
  simp [live]

theorem live_cons {fd : ℤ} (h : fd ≠ closed) (slots : List ℤ) :
    live (fd :: slots) = fd :: live slots := by
  simp [live, h]

theorem closed_not_mem_live (slots : List ℤ) : closed ∉ live slots := by
  simp [live]

theorem compactFrom_append (before rest : List ℤ) :
    ∃ kept, compactFrom before.length (before ++ rest) = before ++ kept ∧
      kept.Perm (live rest) := by
  -- the number of slots that are still to be looked at
  induction hn : rest.length using Nat.strong_induction_on generalizing before rest with
  | _ n ih =>
    subst hn
    rw [compactFrom]
    cases rest with
    | nil => exact ⟨[], by simp, .nil⟩
    | cons fd tail =>
      have hlt : before.length < (before ++ fd :: tail).length := by simp
      have hget : (before ++ fd :: tail).getD before.length 0 = fd := by simp
      rw [if_pos hlt, hget]
      by_cases hfd : fd = closed
      · subst hfd
        rw [if_pos rfl, live_cons_closed]
        rcases List.eq_nil_or_concat' tail with rfl | ⟨middle, last, rfl⟩
        · obtain ⟨kept, hkept, hperm⟩ := ih 0 (by simp) before [] rfl
          refine ⟨kept, ?_, hperm⟩
          rw [← hkept]
          simp
        · obtain ⟨kept, hkept, hperm⟩ := ih (last :: middle).length (by simp) before
            (last :: middle) rfl
          refine ⟨kept, ?_, hperm.trans ?_⟩
          · rw [← hkept]
            congr 1
            have hlast : (before ++ closed :: (middle ++ [last])).getD
                ((before ++ closed :: (middle ++ [last])).length - 1) 0 = last := by
              have hassoc : before ++ closed :: (middle ++ [last]) =
                  (before ++ closed :: middle) ++ [last] := by simp
              rw [hassoc, List.length_append, List.length_singleton, Nat.add_sub_cancel]
              simp
            rw [hlast, List.set_append_right _ _ le_rfl, Nat.sub_self, List.set_cons_zero,
              ← List.cons_append, ← List.append_assoc, List.dropLast_concat]
          · rw [← List.singleton_append, live_append, live_append]
            exact List.perm_append_comm
      · rw [if_neg hfd, live_cons hfd]
        obtain ⟨kept, hkept, hperm⟩ := ih tail.length (by simp) (before ++ [fd]) tail rfl
        refine ⟨fd :: kept, ?_, hperm.cons fd⟩
        rw [List.length_append, List.length_singleton, List.append_assoc, List.append_assoc] at hkept
        exact hkept

theorem compact_cons (listener : ℤ) (slots : List ℤ) :
    ∃ kept, compact (listener :: slots) = listener :: kept ∧ kept.Perm (live slots) :=
  compactFrom_append [listener] slots

/-- The listener is in slot 0, there are no more slots than the array has, and no descriptor is in
two of them. -/
structure Sound (listener : ℤ) (slots : List ℤ) : Prop where
  size : slots.length ≤ maxFds
  listener : slots[0]? = some listener
  open_or_closed : ∀ fd ∈ slots, 0 ≤ fd ∨ fd = closed
  nodup : (live slots).Nodup

variable {listener : ℤ} {slots : List ℤ}

theorem sound_accept (h : Sound listener slots) {fd : ℤ} (hfd : 0 ≤ fd) (hnew : fd ∉ slots)
    (nonblocking : Bool) : Sound listener (accept fd nonblocking slots) := by
  unfold accept
  split
  · exact h
  split
  · exact h
  rename_i hfull
  have hlen := h.size
  refine ⟨?_, ?_, ?_, ?_⟩
  · rw [List.length_append, List.length_singleton]
    omega
  · have hpos : 0 < slots.length := (List.getElem?_eq_some_iff.mp h.listener).1
    rw [List.getElem?_append_left hpos]
    exact h.listener
  · intro fd' hmem
    rcases List.mem_append.mp hmem with hmem | hmem
    · exact h.open_or_closed fd' hmem
    · rw [List.mem_singleton.mp hmem]
      exact .inl hfd
  · rw [live_append, live_cons (ne_closed hfd)]
    refine List.nodup_append'.mpr ⟨h.nodup, by simp [live], ?_⟩
    intro fd' hmem hmem'
    rw [List.mem_singleton.mp hmem'] at hmem
    exact hnew (List.mem_of_mem_filter hmem)

theorem live_set_sublist (slots : List ℤ) (i : ℕ) :
    (live (slots.set i closed)).Sublist (live slots) := by
  induction slots generalizing i with
  | nil => simp
  | cons fd slots ih =>
    cases i with
    | zero =>
      rw [List.set_cons_zero, live_cons_closed]
      exact (List.sublist_cons_self fd slots).filter _
    | succ i =>
      rw [List.set_cons_succ]
      by_cases hfd : fd = closed
      · rw [hfd, live_cons_closed, live_cons_closed]
        exact ih i
      · rw [live_cons hfd, live_cons hfd]
        exact (ih i).cons_cons fd

theorem sound_close (h : Sound listener slots) {i : ℕ} (hi : i ≠ 0) :
    Sound listener (close i slots) := by
  refine ⟨by rw [close, List.length_set]; exact h.size, ?_, ?_, ?_⟩
  · rw [close, List.getElem?_set_ne hi]
    exact h.listener
  · intro fd hfd
    rcases List.mem_or_eq_of_mem_set hfd with hfd | hfd
    · exact h.open_or_closed fd hfd
    · exact .inr hfd
  · exact h.nodup.sublist (live_set_sublist slots i)

theorem sound_undelivered (h : Sound listener slots) (recipient : ℤ) :
    Sound listener (undelivered recipient slots) := by
  unfold undelivered
  split
  · exact sound_close h (Nat.succ_ne_zero _)
  · exact h

theorem Sound.eq_cons (h : Sound listener slots) : ∃ rest, slots = listener :: rest := by
  cases slots with
  | nil => exact absurd h.listener (by simp)
  | cons fd rest => exact ⟨rest, by rw [Option.some.inj h.listener]⟩

theorem sound_compact (hl : 0 ≤ listener) (h : Sound listener slots) :
    Sound listener (compact slots) := by
  obtain ⟨rest, rfl⟩ := h.eq_cons
  obtain ⟨kept, hkept, hperm⟩ := compact_cons listener rest
  have hlen := hperm.length_eq
  have hle : (live rest).length ≤ rest.length := List.length_filter_le ..
  have hsize := h.size
  have hlive : live kept = kept := by
    refine List.filter_eq_self.mpr fun fd hfd => ?_
    have hmem := hperm.mem_iff.mp hfd
    exact (List.mem_filter.mp hmem).2
  rw [hkept]
  refine ⟨?_, rfl, ?_, ?_⟩
  · rw [List.length_cons] at hsize ⊢
    omega
  · intro fd hfd
    rcases List.mem_cons.mp hfd with rfl | hfd
    · exact .inl hl
    · exact h.open_or_closed fd (List.mem_cons_of_mem _ (List.mem_of_mem_filter
        (hperm.mem_iff.mp hfd)))
  · rw [live_cons (ne_closed hl), hlive]
    have hnodup := h.nodup
    rw [live_cons (ne_closed hl)] at hnodup
    exact (hperm.cons listener).nodup_iff.mpr hnodup

theorem sound_step (hl : 0 ≤ listener) {s s' : PollSet} (hstep : Step listener s s')
    (h : Sound listener s.slots) : Sound listener s'.slots := by
  cases hstep with
  | poll => exact h
  | accept fd nonblocking _ _ hfd hnew => exact sound_accept h hfd hnew nonblocking
  | close fd _ hget hne =>
    refine sound_close h fun hi => hne ?_
    rw [hi] at hget
    exact Option.some.inj (hget.symm.trans h.listener)
  | undelivered recipient _ _ => exact sound_undelivered h recipient
  | next _ => exact h
  | compact => exact sound_compact hl h

theorem sound_start {master : Option ℤ} (hl : 0 ≤ listener)
    (hm : ∀ fd, master = some fd → 0 ≤ fd ∧ fd ≠ listener) :
    Sound listener (start listener master).slots := by
  cases master with
  | none =>
    refine ⟨by simp [start, maxFds], rfl, by simp [start, hl], ?_⟩
    simp [start, live, ne_closed hl]
  | some fd =>
    obtain ⟨hfd, hother⟩ := hm fd rfl
    refine ⟨by simp [start, maxFds], rfl, by simp [start, hl, hfd], ?_⟩
    change (live [listener, fd]).Nodup
    rw [live_cons (ne_closed hl), live_cons (ne_closed hfd)]
    simp [live, hother.symm]

theorem sound_run {master : Option ℤ} (hl : 0 ≤ listener)
    (hm : ∀ fd, master = some fd → 0 ≤ fd ∧ fd ≠ listener) {s : PollSet}
    (hrun : Relation.ReflTransGen (Step listener) (start listener master) s) :
    Sound listener s.slots := by
  induction hrun with
  | refl => exact sound_start hl hm
  | tail _ hstep ih => exact sound_step hl hstep ih

/-- Whatever is accepted and closed, the array holds the listener and every open connection once,
within its bounds, and the compaction keeps exactly the open connections. -/
theorem slots_keep_connections {listener : ℤ} {master : Option ℤ} (hl : 0 ≤ listener)
    (hm : ∀ fd, master = some fd → 0 ≤ fd ∧ fd ≠ listener) {s : PollSet}
    (hrun : Relation.ReflTransGen (Step listener) (start listener master) s) :
    s.slots.length ≤ maxFds ∧ s.slots[0]? = some listener ∧ (live s.slots).Nodup ∧
      ∃ kept, compact s.slots = listener :: kept ∧ kept.Perm (live s.slots.tail) ∧
        kept.Nodup ∧ closed ∉ kept := by
  have h := sound_run hl hm hrun
  obtain ⟨rest, hslots⟩ := h.eq_cons
  refine ⟨h.size, h.listener, h.nodup, ?_⟩
  have hnodup := h.nodup
  rw [hslots] at hnodup ⊢
  obtain ⟨kept, hkept, hperm⟩ := compact_cons listener rest
  refine ⟨kept, hkept, hperm, hperm.nodup_iff.mpr ?_, fun hc => ?_⟩
  · exact hnodup.sublist ((List.sublist_cons_self listener rest).filter _)
  · exact closed_not_mem_live rest (hperm.mem_iff.mp hc)

def busyTurn : PollSet := ⟨[3, -1, 6, -1], some (2, 2)⟩

theorem slots_keep_connections_busy :
    Relation.ReflTransGen (Step 3) (start 3 (some 5)) busyTurn ∧
      compact busyTurn.slots = [3, 6] := by
  have hrun : Relation.ReflTransGen (Step 3) (start 3 (some 5)) busyTurn := by
    refine .head .poll ?_
    refine .head (.accept 6 true (by decide) rfl (by decide) (by decide)) ?_
    refine .head (.accept 7 true (by decide) rfl (by decide) (by decide)) ?_
    refine .head (.next (by decide)) ?_
    refine .head (.undelivered 7 (by decide) (by decide)) ?_
    refine .head (.close 5 (by decide) rfl (by decide)) ?_
    exact .single (.next (by decide))
  obtain ⟨-, -, -, kept, hkept, hperm, -, -⟩ := slots_keep_connections (by decide)
    (fun fd h => by cases h; decide) hrun
  refine ⟨hrun, ?_⟩
  rw [hkept, List.perm_singleton.mp hperm]

end PollSet

end TrueStore.Server
