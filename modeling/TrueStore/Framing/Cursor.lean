import TrueStore.Framing.Reader

/-! # Readers with a position

A cursor stands in a byte string that does not change. Its size and its position are machine words,
so a difference of the two wraps around when the position has run past the end. A program over a
cursor refines a reader when it computes the same from the bytes that are left; it then never leaves
the byte string.
-/

namespace TrueStore.Framing

def wordAdd (a b : ℕ) : ℕ := (a + b) % 2 ^ 64

def wordSub (a b : ℕ) : ℕ := (a + 2 ^ 64 - b) % 2 ^ 64

theorem wordAdd_eq {a b : ℕ} (h : a + b < 2 ^ 64) : wordAdd a b = a + b := by
  unfold wordAdd
  exact Nat.mod_eq_of_lt h

theorem wordSub_eq {a b : ℕ} (hb : b ≤ a) (ha : a < 2 ^ 64) : wordSub a b = a - b := by
  unfold wordSub
  omega

structure Buffer where
  bytes : List UInt8
  size_lt : bytes.length < 2 ^ 64

structure Cursor where
  buffer : Buffer
  pos : ℕ := 0
  /-- History: the positions so far. -/
  visited : List ℕ := []

/-- How a program over a cursor stops: by an error of its own, by the exception of `substr` at a
position past the end, by reading a byte past the end, or not at all. -/
inductive Fault (ε : Type) where
  | error (e : ε)
  | outOfRange
  | outOfBounds
  | diverged
  deriving DecidableEq, Repr

/-- A program over a cursor. The cursor stays where it is when an exception is thrown. -/
abbrev Walker (ε α : Type) := ExceptT (Fault ε) (StateM Cursor) α

namespace Walker

variable {ε α β : Type}

def size (c : Cursor) : ℕ := c.buffer.bytes.length

/-- `pos_ >= data_.size()`. -/
def done : Walker ε Bool := fun c => (.ok (decide (size c ≤ c.pos)), c)

/-- `data_[pos_]`, without a check. -/
def peek : Walker ε UInt8 := fun c =>
  match c.buffer.bytes[c.pos]? with
  | some b => (.ok b, c)
  | none => (.error .outOfBounds, c)

def advance (count : ℕ) : Walker ε Unit := fun c =>
  let pos := wordAdd c.pos count
  (.ok (), { c with pos, visited := c.visited ++ [pos] })

def fail (e : ε) : Walker ε α := fun c => (.error (.error e), c)

def next (e : ε) : Walker ε UInt8 := do
  if ← done then fail e
  else
    let b ← peek
    advance 1
    pure b

/-- `data_.substr(pos_, count)`. -/
def substr (count : ℕ) : Walker ε (List UInt8) := fun c =>
  if size c < c.pos then (.error .outOfRange, c)
  else (.ok ((c.buffer.bytes.drop c.pos).take count), c)

/-- `data_.size() - pos_`. -/
def remaining : Walker ε ℕ := fun c => (.ok (wordSub (size c) c.pos), c)

def take (e : ε) (count : ℕ) : Walker ε (List UInt8) := do
  if (← remaining) < count then fail e
  else
    let out ← substr count
    advance count
    pure out

theorem bind_apply (r : Walker ε α) (f : α → Walker ε β) (c : Cursor) :
    (r >>= f) c = match r c with
      | (.error e, c') => (.error e, c')
      | (.ok a, c') => f a c' := by
  change (ExceptT.bindCont f (r c).1) (r c).2 = _
  rcases r c with ⟨_ | _, _⟩ <;> rfl

/-- The cursor is in the byte string and has never been anywhere else. -/
structure Inside (c : Cursor) : Prop where
  pos : c.pos ≤ size c
  visited : ∀ p ∈ c.visited, p ≤ size c

def rest (c : Cursor) : List UInt8 := c.buffer.bytes.drop c.pos

theorem Inside.length_rest {c : Cursor} (h : Inside c) : (rest c).length + c.pos = size c := by
  rw [rest, List.length_drop]
  exact Nat.sub_add_cancel h.pos

/-- From one cursor to another one of the same byte string, never backwards. -/
structure Moves (c c' : Cursor) : Prop where
  inside : Inside c'
  buffer : c'.buffer = c.buffer
  le : c.pos ≤ c'.pos

theorem Moves.refl {c : Cursor} (h : Inside c) : Moves c c := ⟨h, rfl, le_rfl⟩

theorem Moves.trans {c c₁ c₂ : Cursor} (h : Moves c c₁) (h' : Moves c₁ c₂) : Moves c c₂ :=
  ⟨h'.inside, h'.buffer.trans h.buffer, h.le.trans h'.le⟩

theorem Moves.size_eq {c c' : Cursor} (h : Moves c c') : size c' = size c := by
  unfold size
  rw [h.buffer]

theorem Moves.length_rest_le {c c' : Cursor} (h : Moves c c') (hc : Inside c) :
    (rest c').length ≤ (rest c).length := by
  have hlen := hc.length_rest
  have hlen' := h.inside.length_rest
  have hsize := h.size_eq
  have hle := h.le
  omega

/-- The program does to the cursor what the reader does to the bytes that are left, and its only
faults are the errors of the reader. -/
def Refines (r : Walker ε α) (q : Reader ε α) : Prop :=
  ∀ c, Inside c → ∃ c', Moves c c' ∧
    ((∃ a, q (rest c) = .ok (a, rest c') ∧ r c = (.ok a, c')) ∨
      ∃ e, q (rest c) = .error e ∧ r c = (.error (.error e), c'))

namespace Refines

theorem pure (a : α) : Refines (Pure.pure a : Walker ε α) (Pure.pure a) := fun c h =>
  ⟨c, .refl h, .inl ⟨a, rfl, rfl⟩⟩

theorem fail (e : ε) : Refines (fail e : Walker ε α) (throw e) := fun c h =>
  ⟨c, .refl h, .inr ⟨e, rfl, rfl⟩⟩

theorem bind {r : Walker ε α} {q : Reader ε α} {f : α → Walker ε β} {g : α → Reader ε β}
    (h : Refines r q) (h' : ∀ a, Refines (f a) (g a)) : Refines (r >>= f) (q >>= g) := by
  intro c hc
  obtain ⟨c₁, hmove, ⟨a, hq, hr⟩ | ⟨e, hq, hr⟩⟩ := h c hc
  · obtain ⟨c₂, hmove', hrest⟩ := h' a c₁ hmove.inside
    refine ⟨c₂, hmove.trans hmove', ?_⟩
    rw [bind_apply, Reader.bind_apply, hq, hr]
    exact hrest
  · refine ⟨c₁, hmove, .inr ⟨e, ?_, ?_⟩⟩
    · rw [Reader.bind_apply, hq]
    · rw [bind_apply, hr]

theorem ite {p : Prop} [Decidable p] {r r' : Walker ε α} {q q' : Reader ε α}
    (h : p → Refines r q) (h' : ¬p → Refines r' q') :
    Refines (if p then r else r') (if p then q else q') := by
  split
  · exact h ‹p›
  · exact h' ‹¬p›

end Refines

/-- The program ends with a result or with an error of its own, and stays in the byte string. -/
def Yields (r : Walker ε α) (c : Cursor) (x : Except ε α) : Prop :=
  ∃ c', Moves c c' ∧ r c = (x.mapError .error, c')

theorem Refines.yields {r : Walker ε α} {q : Reader ε α} (h : Refines r q) {f : α → Walker ε β}
    {x : Except ε β} {c : Cursor} (hc : Inside c) (herror : ∀ e, q (rest c) = .error e → x = .error e)
    (hok : ∀ a c', Moves c c' → q (rest c) = .ok (a, rest c') → Yields (f a) c' x) :
    Yields (r >>= f) c x := by
  obtain ⟨c₁, hmove, ⟨a, hq, hr⟩ | ⟨e, hq, hr⟩⟩ := h c hc
  · obtain ⟨c₂, hmove', hrest⟩ := hok a c₁ hmove hq
    refine ⟨c₂, hmove.trans hmove', ?_⟩
    rw [bind_apply, hr]
    exact hrest
  · refine ⟨c₁, hmove, ?_⟩
    rw [bind_apply, hr, herror e hq]
    rfl

theorem Inside.advance {c : Cursor} (h : Inside c) (count : ℕ) (hc : count ≤ (rest c).length) :
    ∃ c', (Walker.advance count : Walker ε Unit) c = (.ok (), c') ∧ Moves c c' ∧
      rest c' = (rest c).drop count := by
  have hlen := h.length_rest
  have hsize := c.buffer.size_lt
  have hpos : wordAdd c.pos count = c.pos + count := by
    refine wordAdd_eq ?_
    unfold size at hlen
    omega
  refine ⟨_, rfl, ⟨⟨?_, ?_⟩, rfl, ?_⟩, ?_⟩
  · simp only [size] at hlen ⊢
    omega
  · intro p hp
    rcases List.mem_append.mp hp with hp | hp
    · exact h.visited p hp
    · rw [List.mem_singleton.mp hp]
      simp only [size] at hlen ⊢
      omega
  · simp only [hpos]
    exact Nat.le_add_right _ _
  · simp only [rest, hpos, List.drop_drop]

theorem refines_next (e : ε) : Refines (next e) (Reader.next e) := by
  intro c h
  have hlen := h.length_rest
  unfold next
  rw [bind_apply]
  by_cases hend : size c ≤ c.pos
  · have hnil : rest c = [] := List.eq_nil_of_length_eq_zero (by omega)
    refine ⟨c, .refl h, .inr ⟨e, by rw [hnil]; rfl, ?_⟩⟩
    simp only [done, hend, decide_true, if_true]
    rfl
  · have hlt : c.pos < c.buffer.bytes.length := not_le.mp hend
    have hcons : rest c = c.buffer.bytes[c.pos] :: c.buffer.bytes.drop (c.pos + 1) :=
      List.drop_eq_getElem_cons hlt
    obtain ⟨c', hadvance, hmove, hrest⟩ := h.advance (ε := ε) 1 (by omega)
    refine ⟨c', hmove, .inl ⟨c.buffer.bytes[c.pos], ?_, ?_⟩⟩
    · rw [hrest, hcons]
      rfl
    · simp only [done, hend, decide_false, Bool.false_eq_true, if_false]
      rw [bind_apply]
      simp only [peek, List.getElem?_eq_getElem hlt]
      rw [bind_apply, hadvance]
      rfl

theorem refines_take (e : ε) (count : ℕ) : Refines (take e count) (Reader.take e count) := by
  intro c h
  have hlen := h.length_rest
  have hsize := c.buffer.size_lt
  -- the difference does not wrap around, as the position is not past the end
  have hremaining : wordSub (size c) c.pos = (rest c).length := by
    rw [wordSub_eq h.pos hsize]
    omega
  unfold take
  rw [bind_apply]
  simp only [remaining, hremaining]
  by_cases hshort : (rest c).length < count
  · refine ⟨c, .refl h, .inr ⟨e, ?_, ?_⟩⟩
    · rw [Reader.take, if_pos hshort]
    · rw [if_pos hshort]
      rfl
  · obtain ⟨c', hadvance, hmove, hrest⟩ := h.advance (ε := ε) count (not_lt.mp hshort)
    refine ⟨c', hmove, .inl ⟨(rest c).take count, ?_, ?_⟩⟩
    · rw [Reader.take, if_neg hshort, hrest]
    · rw [if_neg hshort, bind_apply]
      simp only [substr, if_neg (not_lt.mpr h.pos)]
      rw [bind_apply, hadvance]
      rfl

end Walker

end TrueStore.Framing
