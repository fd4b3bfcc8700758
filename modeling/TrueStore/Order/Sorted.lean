import Mathlib

/-! # Sorted lists

In a list that a relation sorts, the elements that satisfy a property closed in one direction come
first or last, so that skipping and stopping early amounts to filtering. An ordered map lists its
contents in sorted order, and this determines the list.
-/

namespace TrueStore.Sorted

variable {α β : Type*}

theorem dropWhile_eq_filter {R : α → α → Prop} {p : α → Bool} {l : List α} (h : l.Pairwise R)
    (hp : ∀ a b, R a b → p b = true → p a = true) : l.dropWhile p = l.filter fun a => !p a := by
  induction l with
  | nil => rfl
  | cons a l ih =>
    obtain ⟨ha, hl⟩ := List.pairwise_cons.mp h
    cases hpa : p a with
    | true => simp [hpa, ih hl]
    | false =>
      have hall : ∀ b ∈ l, (!p b) = true := by
        intro b hb
        by_contra hpb
        simp [hp a b (ha b hb) (by simpa using hpb)] at hpa
      simp [hpa, List.filter_eq_self.mpr hall]

theorem takeWhile_eq_filter {R : α → α → Prop} {p : α → Bool} {l : List α} (h : l.Pairwise R)
    (hp : ∀ a b, R a b → p b = true → p a = true) : l.takeWhile p = l.filter p := by
  induction l with
  | nil => rfl
  | cons a l ih =>
    obtain ⟨ha, hl⟩ := List.pairwise_cons.mp h
    cases hpa : p a with
    | true => simp [hpa, ih hl]
    | false =>
      have hall : ∀ b ∈ l, ¬p b = true := by
        intro b hb hpb
        simp [hp a b (ha b hb) hpb] at hpa
      simp [hpa, List.filter_eq_nil_iff.mpr hall]

variable [Ord α] [Std.TransOrd α] [Std.LawfulEqOrd α]

theorem toList_eq {t : Std.ExtTreeMap α β} {l : List (α × β)}
    (hl : l.Pairwise fun a b => compare a.1 b.1 = .lt)
    (hmem : ∀ k v, (k, v) ∈ l ↔ t[k]? = some v) : t.toList = l := by
  have hne : ∀ {l : List (α × β)}, (l.Pairwise fun a b => compare a.1 b.1 = .lt) → l.Nodup := by
    intro l h
    refine h.imp fun {a b} hlt he => ?_
    rw [he, Std.ReflOrd.compare_self] at hlt
    cases hlt
  have hperm : t.toList.Perm l := by
    refine (List.perm_ext_iff_of_nodup (hne Std.ExtTreeMap.ordered_keys_toList) (hne hl)).mpr ?_
    rintro ⟨k, v⟩
    rw [Std.ExtTreeMap.mem_toList_iff_getElem?_eq_some, hmem]
  refine hperm.eq_of_pairwise (fun a b _ _ hab hba => ?_) Std.ExtTreeMap.ordered_keys_toList hl
  have hswap : compare a.1 b.1 = (compare b.1 a.1).swap := Std.OrientedOrd.eq_swap
  rw [hswap, hba] at hab
  cases hab

theorem toList_insert {t : Std.ExtTreeMap α β} {k : α} (v : β)
    (h : ∀ e ∈ t.toList, compare e.1 k = .lt) : (t.insert k v).toList = t.toList ++ [(k, v)] := by
  have hnot : ∀ v', (k, v') ∉ t.toList := by
    intro v' hmem
    have := h _ hmem
    rw [Std.ReflOrd.compare_self] at this
    cases this
  refine toList_eq ?_ fun k' v' => ?_
  · refine List.pairwise_append.mpr ⟨Std.ExtTreeMap.ordered_keys_toList, List.pairwise_singleton _ _,
      fun a ha b hb => ?_⟩
    obtain rfl := List.mem_singleton.mp hb
    exact h a ha
  · rw [Std.ExtTreeMap.getElem?_insert, List.mem_append, List.mem_singleton, Prod.mk.injEq,
      Std.ExtTreeMap.mem_toList_iff_getElem?_eq_some]
    split
    · rename_i he
      obtain rfl := Std.LawfulEqOrd.eq_of_compare he
      have := hnot v'
      rw [Std.ExtTreeMap.mem_toList_iff_getElem?_eq_some] at this
      simp [this, eq_comm]
    · rename_i hne
      refine or_iff_left ?_
      rintro ⟨rfl, -⟩
      exact hne Std.ReflOrd.compare_self

omit [Std.LawfulEqOrd α] in
theorem values_eq_map (t : Std.ExtTreeMap α β) : t.values = t.toList.map Prod.snd := by
  obtain ⟨⟨q⟩⟩ := t
  induction q using Quotient.ind with
  | _ m =>
    obtain ⟨m, -⟩ := m
    change m.values = (Std.DTreeMap.Internal.Impl.Const.toList m).map Prod.snd
    rw [Std.DTreeMap.Internal.Impl.values_eq_map_snd,
      Std.DTreeMap.Internal.Impl.Const.toList_eq_toListModel_map]
    simp

theorem toList_erase (t : Std.ExtTreeMap α β) (k : α) :
    (t.erase k).toList = t.toList.filter fun e => compare k e.1 ≠ .eq := by
  refine toList_eq (Std.ExtTreeMap.ordered_keys_toList.filter _) fun k' v' => ?_
  rw [Std.ExtTreeMap.getElem?_erase, List.mem_filter,
    Std.ExtTreeMap.mem_toList_iff_getElem?_eq_some]
  split
  · rename_i he
    simp [he]
  · rename_i he
    simp [he]

/-- Without a key there are no more values of a kind than with it. -/
theorem countP_values_erase_le (t : Std.ExtTreeMap α β) (k : α) (p : β → Bool) :
    (t.erase k).values.countP p ≤ t.values.countP p := by
  rw [values_eq_map, values_eq_map, toList_erase]
  exact ((List.filter_sublist).map _).countP_le

end TrueStore.Sorted
