import Mathlib.Tactic

/-! # Replaying a journal

A journal lists operations that a machine accepted once. A replay runs them again, from another
state and in other circumstances, and stops at the first one that is refused. The journal is
accepted when no admissible circumstances lead to a refusal.
-/

namespace TrueStore.Journal

variable {σ α κ : Type*}

/-- The machine runs an operation in some circumstances, or refuses it. -/
abbrev Machine (σ α κ : Type*) := κ → α → σ → Option σ

/-- In all admissible circumstances the operations are run one after the other, and the last
state satisfies the postcondition. -/
def Accepts (run : Machine σ α κ) (C : κ → Prop) : List α → (σ → Prop) → σ → Prop
  | [], Q, s => Q s
  | a :: as, Q, s => ∀ k, C k → ∃ s', run k a s = some s' ∧ Accepts run C as Q s'

variable {run : Machine σ α κ} {C : κ → Prop} {Q Q' : σ → Prop}

@[simp] theorem accepts_nil {s : σ} : Accepts run C [] Q s ↔ Q s := Iff.rfl

@[simp] theorem accepts_cons {a : α} {as : List α} {s : σ} :
    Accepts run C (a :: as) Q s ↔
      ∀ k, C k → ∃ s', run k a s = some s' ∧ Accepts run C as Q s' := Iff.rfl

theorem accepts_append {as bs : List α} {s : σ} :
    Accepts run C (as ++ bs) Q s ↔ Accepts run C as (Accepts run C bs Q) s := by
  induction as generalizing s with
  | nil => rfl
  | cons a as ih => simp only [List.cons_append, accepts_cons, ih]

theorem Accepts.imp {as : List α} {s : σ} (h : Accepts run C as Q s) (hQ : ∀ s, Q s → Q' s) :
    Accepts run C as Q' s := by
  induction as generalizing s with
  | nil => exact hQ s h
  | cons a as ih =>
    intro k hk
    obtain ⟨s', hs', h'⟩ := h k hk
    exact ⟨s', hs', ih h'⟩

/-- A state that the operations reach has every property that they lead to. -/
theorem Accepts.of_reached (hC : ∃ k, C k) {as : List α} {s t : σ} (h : Accepts run C as Q s)
    (ht : Accepts run C as (· = t) s) : Q t := by
  obtain ⟨k, hk⟩ := hC
  induction as generalizing s with
  | nil =>
    obtain rfl : s = t := ht
    exact h
  | cons a as ih =>
    obtain ⟨s', hs', h'⟩ := h k hk
    obtain ⟨s'', hs'', ht'⟩ := ht k hk
    rw [hs'] at hs''
    cases hs''
    exact ih h' ht'

end TrueStore.Journal
