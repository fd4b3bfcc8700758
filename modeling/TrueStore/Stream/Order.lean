import TrueStore.Stream.Basic

/-! # Stream IDs only grow

Every accepted ID is greater than the IDs before it, so an insertion never meets its own key in
the tree. Two streams that got the same number of automatic IDs, the second one at later times,
stay comparable: the second one is ahead, with a sequence number that is small or the same.
-/

namespace TrueStore

namespace StreamID

theorem lt_iff {a b : StreamID} : a.lt b = true ↔
    a.milliseconds.toNat < b.milliseconds.toNat ∨
      a.milliseconds.toNat = b.milliseconds.toNat ∧ a.sequence.toNat < b.sequence.toNat := by
  unfold lt
  by_cases h : a.milliseconds = b.milliseconds
  · simp [h, UInt64.lt_iff_toNat_lt]
  · have : a.milliseconds.toNat ≠ b.milliseconds.toNat := fun he => h (UInt64.toNat_inj.mp he)
    simp [h, UInt64.lt_iff_toNat_lt, this]

theorem lt_irrefl (a : StreamID) : a.lt a = false := by
  simp [lt]

end StreamID

theorem toNat_add_one {n : UInt64} (h : n ≠ maxU64) : (n + 1).toNat = n.toNat + 1 := by
  have hne : n.toNat ≠ 18446744073709551615 := fun he => h (UInt64.toNat_inj.mp he)
  have hlt := n.toNat_lt
  rw [UInt64.toNat_add]
  exact Nat.mod_eq_of_lt (by simp; omega)

theorem writeU64Be_injective : Function.Injective writeU64Be := by
  intro a b h
  have hbyte : ∀ k < 8, a.toNat / 2 ^ (8 * k) % 256 = b.toNat / 2 ^ (8 * k) % 256 := by
    intro k hk
    have hk' := congrArg UInt8.toNat
      (List.map_inj_left.mp h (7 - k) (List.mem_range.mpr (by omega)))
    rw [show 7 - (7 - k) = k by omega] at hk'
    simp only [UInt64.toNat_toUInt8, UInt64.toNat_shiftRight, UInt64.toNat_ofNat',
      Nat.shiftRight_eq_div_pow] at hk'
    rwa [show 8 * k % 2 ^ 64 % 64 = 8 * k by omega] at hk'
  apply UInt64.toNat_inj.mp
  have ha := a.toNat_lt
  have hb := b.toNat_lt
  have h₀ := hbyte 0 (by omega)
  have h₁ := hbyte 1 (by omega)
  have h₂ := hbyte 2 (by omega)
  have h₃ := hbyte 3 (by omega)
  have h₄ := hbyte 4 (by omega)
  have h₅ := hbyte 5 (by omega)
  have h₆ := hbyte 6 (by omega)
  have h₇ := hbyte 7 (by omega)
  simp only [Nat.mul_zero, pow_zero, Nat.div_one, Nat.mul_one] at *
  omega

theorem encodeId_injective : Function.Injective encodeId := by
  intro a b h
  have hlen : ∀ n, (writeU64Be n).length = 8 := fun n => by simp [writeU64Be]
  obtain ⟨hm, hs⟩ := List.append_inj h (by rw [hlen, hlen])
  have hm := writeU64Be_injective hm
  have hs := writeU64Be_injective hs
  cases a
  cases b
  simp_all

namespace Stream

theorem nextSequence_eq_ok {s : Stream} {m : StreamID} (hm : s.maxId = some m) {ms : UInt64}
    {id : StreamID} : s.nextSequence ms = .ok id ↔
      m.milliseconds.toNat < ms.toNat ∧ id = ⟨ms, 0⟩ ∨
      ms.toNat ≤ m.milliseconds.toNat ∧ m.sequence ≠ maxU64 ∧
        id = ⟨m.milliseconds, m.sequence + 1⟩ := by
  unfold nextSequence
  rw [hm]
  dsimp only
  split
  · rename_i hlt
    have := UInt64.lt_iff_toNat_lt.mp hlt
    simp [this, eq_comm]
  · rename_i hlt
    have hle : ms.toNat ≤ m.milliseconds.toNat := by
      rw [UInt64.lt_iff_toNat_lt] at hlt
      omega
    split
    · rename_i hs
      simp [hs, Nat.not_lt.mpr hle]
    · rename_i hs
      simp [hs, Nat.not_lt.mpr hle, hle, eq_comm]

theorem lt_of_nextSequence {s : Stream} {ms : UInt64} {id m : StreamID}
    (h : s.nextSequence ms = .ok id) (hm : s.maxId = some m) : m.lt id = true := by
  rcases (nextSequence_eq_ok hm).mp h with ⟨hlt, rfl⟩ | ⟨-, hs, rfl⟩
  · exact StreamID.lt_iff.mpr (.inl hlt)
  · exact StreamID.lt_iff.mpr (.inr ⟨rfl, by rw [toNat_add_one hs]; omega⟩)

theorem lt_of_resolveId {s : Stream} {now : UInt64} {idText : Bytes} {id m : StreamID}
    (h : s.resolveId now idText = .ok id) (hm : s.maxId = some m) : m.lt id = true := by
  unfold resolveId at h
  split at h
  · exact lt_of_nextSequence h hm
  · split at h
    · split at h
      · cases h
      · split at h
        · cases h
        · rw [hm] at h
          dsimp only at h
          split at h
          · cases h
          · exact lt_of_nextSequence h hm
    · split at h
      · cases h
      · split at h
        · cases h
        · rw [hm] at h
          dsimp only at h
          split at h
          · cases h
          · rename_i hlt
            cases h
            simpa using hlt

/-- The keys of the tree are those of IDs up to the largest one. -/
def Ordered (s : Stream) : Prop :=
  ∀ key, s.tree.contains key = true →
    ∃ id m, key = encodeId id ∧ s.maxId = some m ∧ m.lt id = false

theorem ordered_empty : ({} : Stream).Ordered := fun key h => by simp at h

theorem Ordered.not_contains {s : Stream} (h : s.Ordered) {id : StreamID}
    (hid : ∀ m, s.maxId = some m → m.lt id = true) : s.tree.contains (encodeId id) = false := by
  by_contra hc
  obtain ⟨id', m, he, hm, hlt⟩ := h _ (by simpa using hc)
  obtain rfl := encodeId_injective he
  rw [hid m hm] at hlt
  cases hlt

theorem Ordered.insert_eq {s : Stream} (h : s.Ordered) {now : UInt64} {idText : Bytes}
    {id : StreamID} (hr : s.resolveId now idText = .ok id) (data : StreamEntryData) :
    s.insert now idText data =
      .ok (id, { tree := s.tree.insert (encodeId id) data, maxId := some id }) := by
  simp only [insert, hr, h.not_contains fun m hm => lt_of_resolveId hr hm, Bool.false_eq_true,
    if_false]

theorem insert_eq_ok {s s' : Stream} {now : UInt64} {idText : Bytes} {data : StreamEntryData}
    {id : StreamID} (h : s.insert now idText data = .ok (id, s')) :
    s.resolveId now idText = .ok id ∧
      s' = { tree := s.tree.insert (encodeId id) data, maxId := some id } := by
  unfold insert at h
  split at h
  · cases h
  · rename_i id' hid
    split at h
    · cases h
    · cases h
      exact ⟨hid, rfl⟩

theorem Ordered.insert {s s' : Stream} (h : s.Ordered) {now : UInt64} {idText : Bytes}
    {data : StreamEntryData} {id : StreamID} (hi : s.insert now idText data = .ok (id, s')) :
    s'.Ordered := by
  obtain ⟨hr, rfl⟩ := insert_eq_ok hi
  intro key hk
  simp only [Std.ExtTreeMap.contains_insert, Bool.or_eq_true, beq_iff_eq,
    Std.LawfulEqCmp.compare_eq_iff_eq] at hk
  rcases hk with rfl | hk
  · exact ⟨id, id, rfl, rfl, StreamID.lt_irrefl id⟩
  · obtain ⟨id', m, he, hm, hlt⟩ := h key hk
    refine ⟨id', id, he, rfl, ?_⟩
    have hlt' := lt_of_resolveId hr hm
    by_contra hc
    rw [StreamID.lt_iff] at hlt'
    have hc := StreamID.lt_iff.mp (by simpa using hc)
    have hno : ¬(m.lt id' = true) := by simp [hlt]
    rw [StreamID.lt_iff] at hno
    omega

/-- The largest ID of a stream and that of a later copy with fewer than `bound` automatic IDs. -/
def Ahead (bound : ℕ) (a b : StreamID) : Prop :=
  a = b ∨ b.lt a = false ∧ b.sequence.toNat ≤ bound

theorem Ahead.mono {bound bound' : ℕ} {a b : StreamID} (h : Ahead bound a b)
    (hb : bound ≤ bound') : Ahead bound' a b :=
  h.imp id fun h => ⟨h.1, h.2.trans hb⟩

theorem ahead_of_le {bound : ℕ} {a b : StreamID}
    (h : a.milliseconds.toNat < b.milliseconds.toNat ∨
      a.milliseconds.toNat = b.milliseconds.toNat ∧ a.sequence.toNat ≤ b.sequence.toNat)
    (hb : b.sequence.toNat ≤ bound) : Ahead bound a b := by
  refine .inr ⟨?_, hb⟩
  by_contra hc
  have hc := StreamID.lt_iff.mp (by simpa using hc)
  omega

/-- A later automatic ID on a copy that is ahead is accepted and stays ahead. -/
theorem Ahead.nextSequence {bound : ℕ} (hbound : bound + 1 < 2 ^ 64) {s s' : Stream}
    {m m' : StreamID} (hm : s.maxId = some m) (hm' : s'.maxId = some m') (h : Ahead bound m m')
    {now now' : UInt64} (hnow : now ≤ now') {id : StreamID} (hid : s.nextSequence now = .ok id) :
    ∃ id', s'.nextSequence now' = .ok id' ∧ Ahead (bound + 1) id id' := by
  have hnow := UInt64.le_iff_toNat_le.mp hnow
  have hzero : (0 : UInt64).toNat = 0 := rfl
  simp only [nextSequence_eq_ok hm'] at *
  by_cases hlater : m'.milliseconds.toNat < now'.toNat
  · -- the copy starts a new millisecond
    refine ⟨⟨now', 0⟩, .inl ⟨hlater, rfl⟩, ?_⟩
    rcases (nextSequence_eq_ok hm).mp hid with ⟨-, rfl⟩ | ⟨-, -, rfl⟩
    · exact ahead_of_le (by simp only [hzero]; omega) (by simp [hzero])
    · refine ahead_of_le (.inl ?_) (by simp [hzero])
      rcases h with rfl | ⟨h, -⟩
      · exact hlater
      · have h : ¬(m'.lt m = true) := by simp [h]
        rw [StreamID.lt_iff] at h
        simp only
        omega
  · rcases h with rfl | ⟨h, hseq⟩
    · -- the copy has been the same so far
      rcases (nextSequence_eq_ok hm).mp hid with ⟨hlt, -⟩ | ⟨hle, hs, rfl⟩
      · omega
      · exact ⟨_, .inr ⟨by omega, hs, rfl⟩, .inl rfl⟩
    · have hs : m'.sequence ≠ maxU64 := by
        rintro he
        rw [he] at hseq
        exact absurd hseq (by simp only [maxU64, UInt64.reduceToNat]; omega)
      have h : ¬(m'.lt m = true) := by simp [h]
      rw [StreamID.lt_iff] at h
      refine ⟨⟨m'.milliseconds, m'.sequence + 1⟩, .inr ⟨by omega, hs, rfl⟩,
        ahead_of_le ?_ (by simp only [toNat_add_one hs]; omega)⟩
      rcases (nextSequence_eq_ok hm).mp hid with ⟨-, rfl⟩ | ⟨-, hs', rfl⟩
      · simp only [hzero]
        omega
      · simp only [toNat_add_one hs, toNat_add_one hs']
        omega

theorem nextSequence_empty {s s' : Stream} (hm : s.maxId = none) (hm' : s'.maxId = none)
    {now now' : UInt64} (hnow : now ≤ now') {id : StreamID} (hid : s.nextSequence now = .ok id) :
    ∃ id', s'.nextSequence now' = .ok id' ∧ Ahead 0 id id' := by
  have hnow := UInt64.le_iff_toNat_le.mp hnow
  simp only [nextSequence, hm, hm', Except.ok.injEq] at hid ⊢
  refine ⟨_, rfl, ?_⟩
  subst hid
  by_cases he : now = now'
  · exact .inl (by rw [he])
  · have hne : now.toNat ≠ now'.toNat := fun h => he (UInt64.toNat_inj.mp h)
    have hpos : now' ≠ 0 := by
      rintro rfl
      simp at hnow hne
      omega
    exact ahead_of_le (.inl (by simp only; omega)) (by simp [hpos])

end Stream

end TrueStore
