import TrueStore.Store.Services

/-! # The subscribers of a channel

Each way to change the subscriptions of a descriptor, seen from the channels. A channel that
nobody is subscribed to has no entry.
-/

namespace TrueStore.Store

variable {F : Type} [Platform F]

def subscribersOf (s : Store F) (channel : Bytes) : Std.ExtTreeSet ℤ :=
  s.subscribers.getD channel ∅

def NoEmptyChannel (s : Store F) : Prop :=
  ∀ (channel : Bytes) (fds : Std.ExtTreeSet ℤ), s.subscribers[channel]? = some fds → fds ≠ ∅

theorem mem_dropSubscriber {fd fd' : ℤ} {fds : Std.ExtTreeSet ℤ} :
    fd' ∈ (dropSubscriber fd fds).getD ∅ ↔ fd' ∈ fds ∧ fd' ≠ fd := by
  unfold dropSubscriber
  have hmem : fd' ∈ fds.erase fd ↔ fd' ∈ fds ∧ fd' ≠ fd := by
    rw [Std.ExtTreeSet.mem_erase, ne_eq, Std.compare_eq_iff_eq, and_comm, ne_comm]
  split
  · rename_i he
    rw [← hmem, Std.ExtTreeSet.isEmpty_iff.mp he]
    rfl
  · exact hmem

theorem dropSubscriber_ne_empty {fd : ℤ} {fds fds' : Std.ExtTreeSet ℤ}
    (h : dropSubscriber fd fds = some fds') : fds' ≠ ∅ := by
  unfold dropSubscriber at h
  split at h
  · cases h
  · rename_i he
    cases h
    exact fun h => he (by rw [h]; rfl)

variable {s : Store F} {fd fd' : ℤ} {channel channel' : Bytes}

theorem mem_subscribersOf_addSubscriber :
    fd' ∈ (s.addSubscriber fd channel).subscribersOf channel' ↔
      fd' ∈ s.subscribersOf channel' ∨ fd' = fd ∧ channel' = channel := by
  simp only [subscribersOf, addSubscriber, Std.ExtTreeMap.getD_insert,
    Std.compare_eq_iff_eq]
  split
  · rename_i he
    subst he
    rw [Std.ExtTreeSet.mem_insert, Std.compare_eq_iff_eq, eq_comm, or_comm]
    simp
  · rename_i he
    simp [Ne.symm he]

theorem noEmptyChannel_addSubscriber (h : s.NoEmptyChannel) :
    (s.addSubscriber fd channel).NoEmptyChannel := by
  intro channel' fds hc
  simp only [addSubscriber, Std.ExtTreeMap.getElem?_insert] at hc
  split at hc
  · cases hc
    exact Std.ExtTreeSet.insert_ne_empty
  · exact h channel' fds hc

theorem mem_subscribersOf_leaveChannel :
    fd' ∈ (s.leaveChannel fd channel).subscribersOf channel' ↔
      fd' ∈ s.subscribersOf channel' ∧ (channel' = channel → fd' ≠ fd) := by
  have hother : ∀ subscribers : Map (Std.ExtTreeSet ℤ),
      (channel' ≠ channel → subscribers[channel']? = s.subscribers[channel']?) →
      (fd' ∈ (subscribers[channel]?).getD ∅ ↔ fd' ∈ s.subscribersOf channel ∧ fd' ≠ fd) →
      (fd' ∈ (subscribers[channel']?).getD ∅ ↔
        fd' ∈ s.subscribersOf channel' ∧ (channel' = channel → fd' ≠ fd)) := by
    intro subscribers hne hself
    by_cases he : channel' = channel
    · subst he
      simpa using hself
    · rw [hne he]
      simp [he, subscribersOf, Std.ExtTreeMap.getD_eq_getD_getElem?]
  have hof : s.subscribersOf channel = (s.subscribers[channel]?).getD ∅ :=
    Std.ExtTreeMap.getD_eq_getD_getElem?
  rw [subscribersOf, Std.ExtTreeMap.getD_eq_getD_getElem?, leaveChannel]
  dsimp only
  split
  · rename_i hc
    refine hother _ (fun _ => rfl) ?_
    simp [hof, hc]
  · rename_i fds hc
    have hdrop : fd' ∈ (dropSubscriber fd fds).getD ∅ ↔ fd' ∈ fds ∧ fd' ≠ fd := mem_dropSubscriber
    rw [hc] at hof
    split
    · rename_i hd
      refine hother _ (fun hne => ?_) ?_
      · rw [Std.ExtTreeMap.getElem?_erase, if_neg (by simpa using Ne.symm hne)]
      · simpa [hof, hd] using hdrop
    · rename_i fds' hd
      refine hother _ (fun hne => ?_) ?_
      · rw [Std.ExtTreeMap.getElem?_insert, if_neg (by simpa using Ne.symm hne)]
      · simpa [hof, hd] using hdrop

theorem noEmptyChannel_leaveChannel (h : s.NoEmptyChannel) :
    (s.leaveChannel fd channel).NoEmptyChannel := by
  intro channel' fds hc
  simp only [leaveChannel] at hc
  split at hc
  · exact h channel' fds hc
  · split at hc
    · rw [Std.ExtTreeMap.getElem?_erase] at hc
      split at hc
      · cases hc
      · exact h channel' fds hc
    · rename_i fds' hd
      rw [Std.ExtTreeMap.getElem?_insert] at hc
      split at hc
      · cases hc
        exact dropSubscriber_ne_empty hd
      · exact h channel' fds hc

theorem mem_subscribersOf_removeSubscriber :
    fd' ∈ (s.removeSubscriber fd).subscribersOf channel ↔
      fd' ∈ s.subscribersOf channel ∧ fd' ≠ fd := by
  simp only [subscribersOf, removeSubscriber, Std.ExtTreeMap.getD_eq_getD_getElem?,
    Std.ExtTreeMap.getElem?_filterMap']
  cases s.subscribers[channel]? with
  | none => simp
  | some fds => exact mem_dropSubscriber

theorem noEmptyChannel_removeSubscriber (s : Store F) (fd : ℤ) :
    (s.removeSubscriber fd).NoEmptyChannel := by
  intro channel fds hc
  simp only [removeSubscriber, Std.ExtTreeMap.getElem?_filterMap'] at hc
  obtain ⟨fds', -, hd⟩ := Option.bind_eq_some_iff.mp hc
  exact dropSubscriber_ne_empty hd

end TrueStore.Store
