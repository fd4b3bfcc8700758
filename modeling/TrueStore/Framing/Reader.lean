import Mathlib.Data.List.Infix
import Mathlib.Tactic

/-! # Readers of byte strings

A reader consumes a beginning of a byte string or fails. A format is read faithfully when every
encoding is consumed exactly, whatever follows, and when an encoding that was cut short is
refused. Both properties are carried through sequential composition.
-/

namespace TrueStore.Framing

/-- A reader with errors in `ε`: the value and the bytes that are left. -/
abbrev Reader (ε α : Type) := StateT (List UInt8) (Except ε) α

namespace Reader

variable {ε α β : Type} {e : ε}

def next (e : ε) : Reader ε UInt8 := fun data =>
  match data with
  | [] => .error e
  | b :: rest => .ok (b, rest)

def take (e : ε) (count : ℕ) : Reader ε (List UInt8) := fun data =>
  if data.length < count then .error e else .ok (data.take count, data.drop count)

/-- The reader takes an encoding for a value, and refuses every proper beginning of it. -/
structure Reads (e : ε) (r : Reader ε α) (a : α) (bytes : List UInt8) : Prop where
  whole : ∀ rest, r (bytes ++ rest) = .ok (a, rest)
  cut : ∀ start, start <+: bytes → start ≠ bytes → r start = .error e

theorem bind_apply (r : Reader ε α) (f : α → Reader ε β) (data : List UInt8) :
    (r >>= f) data = match r data with
      | .error e => .error e
      | .ok (a, rest) => f a rest := by
  change Except.bind _ _ = _
  cases r data <;> rfl

theorem Reads.pure (e : ε) (a : α) : Reads e (Pure.pure a : Reader ε α) a [] where
  whole _ := rfl
  cut _ hstart hne := absurd (List.prefix_nil.mp hstart) hne

theorem Reads.bind {r : Reader ε α} {f : α → Reader ε β} {a : α} {b : β} {bytes bytes' : List UInt8}
    (h : Reads e r a bytes) (h' : Reads e (f a) b bytes') : Reads e (r >>= f) b (bytes ++ bytes') where
  whole rest := by
    rw [bind_apply, List.append_assoc, h.whole]
    exact h'.whole rest
  cut start hstart hne := by
    rw [bind_apply]
    rcases List.prefix_or_prefix_of_prefix hstart (List.prefix_append bytes bytes') with hp | hp
    · by_cases heq : start = bytes
      · subst heq
        have hwhole := h.whole []
        rw [List.append_nil] at hwhole
        rw [hwhole]
        refine h'.cut [] List.nil_prefix fun hnil => hne ?_
        rw [← hnil, List.append_nil]
      · rw [h.cut start hp heq]
    · obtain ⟨tail, rfl⟩ := hp
      rw [h.whole]
      exact h'.cut tail ((List.prefix_append_right_inj _).mp hstart) fun ht => hne (by rw [ht])

theorem Reads.map {r : Reader ε α} {a : α} {bytes : List UInt8} (h : Reads e r a bytes) (f : α → β) :
    Reads e (r >>= fun x => Pure.pure (f x)) (f a) bytes := by
  simpa using h.bind (f := fun x => Pure.pure (f x)) (Reads.pure e (f a))

theorem reads_next (e : ε) (b : UInt8) : Reads e (next e) b [b] where
  whole _ := rfl
  cut start hstart hne := by
    rcases start with - | ⟨c, start⟩
    · rfl
    · obtain ⟨rfl, ht⟩ := List.cons_prefix_cons.mp hstart
      exact absurd (by rw [List.prefix_nil.mp ht]) hne

theorem Reads.cons {f : UInt8 → Reader ε β} {b : UInt8} {a : β} {bytes : List UInt8}
    (h : Reads e (f b) a bytes) : Reads e (next e >>= f) a (b :: bytes) := (reads_next e b).bind h

theorem reads_take (e : ε) (bytes : List UInt8) : Reads e (take e bytes.length) bytes bytes where
  whole rest := by simp [take]
  cut start hstart hne := by
    have hlt : start.length < bytes.length :=
      lt_of_le_of_ne hstart.length_le fun he => hne (hstart.eq_of_length he)
    simp [take, hlt]

end Reader

end TrueStore.Framing
