import Mathlib.Data.List.Basic

/-! # Stable sorting

Elements that a merge sort need not exchange stay in their order. A list in the order of one
relation that is sorted by another is therefore in the lexicographic order of both.
-/

namespace TrueStore.Stable

variable {α : Type} {le : α → α → Bool}

theorem filter_mergeSort (trans : ∀ a b c, le a b → le b c → le a c)
    (total : ∀ a b, le a b || le b a) (l : List α) (a : α) :
    ((l.mergeSort le).filter fun x => le a x && le x a) = l.filter fun x => le a x && le x a := by
  have hpairwise : (l.filter fun x => le a x && le x a).Pairwise (le · ·) := by
    refine List.Pairwise.imp_of_mem (R := fun _ _ => True) ?_ (List.pairwise_of_forall fun _ _ => trivial)
    intro x y hx hy _
    rw [List.mem_filter, Bool.and_eq_true] at hx hy
    exact trans x a y hx.2.2 hy.2.1
  have hsub := (List.sublist_mergeSort trans total hpairwise List.filter_sublist).filter
    fun x => le a x && le x a
  rw [List.filter_filter] at hsub
  simp only [Bool.and_self] at hsub
  exact (hsub.eq_of_length ((List.mergeSort_perm l le).filter _).length_eq.symm).symm

/-- Sorting a list in some order breaks ties by this order. -/
theorem pairwise_mergeSort (trans : ∀ a b c, le a b → le b c → le a c)
    (total : ∀ a b, le a b || le b a) {lt : α → α → Prop} {l : List α} (h : l.Pairwise lt) :
    (l.mergeSort le).Pairwise fun a b => le a b = true ∧ (le b a = true → lt a b) := by
  rw [List.pairwise_iff_forall_sublist]
  intro a b hab
  have hle : le a b = true :=
    List.pairwise_iff_forall_sublist.mp (List.pairwise_mergeSort trans total l) hab
  refine ⟨hle, fun hba => ?_⟩
  have haa : le a a = true := trans a b a hle hba
  have hpair := hab.filter fun x => le a x && le x a
  rw [filter_mergeSort trans total] at hpair
  simp only [List.filter_cons, hle, hba, haa, Bool.and_self, if_true, List.filter_nil] at hpair
  exact List.pairwise_iff_forall_sublist.mp h (hpair.trans List.filter_sublist)

end TrueStore.Stable
