import TrueStore.Text.Numeral

/-! # Extraction from a text stream

`operator>>` skips blanks and takes a word up to the next blank, or a number as far as it has
digits. What is taken is characterised by how the text is put together: blanks, the item, and a rest
that does not continue the item.
-/

namespace TrueStore.Extraction

def Blank (text : Bytes) : Prop := ∀ b ∈ text, isSpace b = true

instance (text : Bytes) : Decidable (Blank text) :=
  inferInstanceAs (Decidable (∀ b ∈ text, isSpace b = true))

structure Word (text : Bytes) : Prop where
  nonempty : text ≠ []
  solid : ∀ b ∈ text, isSpace b = false

/-- The rest after an item does not begin with a byte of some kind. -/
def Ends (p : UInt8 → Bool) (rest : Bytes) : Prop := ∀ b ∈ rest.head?, p b = false

/-- `operator>>` into a string: the word and the rest. -/
def word (text : Bytes) : Option (Bytes × Bytes) :=
  let text := text.dropWhile isSpace
  let w := text.takeWhile (!isSpace ·)
  if w = [] then none else some (w, text.dropWhile (!isSpace ·))

/-- `operator>>` into a `long long`: the number and the rest. -/
def number (text : Bytes) : Option (ℤ × Bytes) :=
  let signed := splitSign (text.dropWhile isSpace)
  let digits := signed.2.takeWhile isDigit
  let value := applySign signed.1 (digitsValue digits)
  if digits = [] ∨ ¬(-2 ^ 63 ≤ value ∧ value < 2 ^ 63) then none
  else some (value, signed.2.dropWhile isDigit)

section Split

variable {p : UInt8 → Bool} {a b : Bytes}

theorem takeWhile_append_ends (ha : ∀ x ∈ a, p x = true) (hb : Ends p b) :
    (a ++ b).takeWhile p = a := by
  rw [List.takeWhile_append_of_pos ha]
  cases b with
  | nil => simp
  | cons x b => simp [hb x rfl]

theorem dropWhile_append_ends (ha : ∀ x ∈ a, p x = true) (hb : Ends p b) :
    (a ++ b).dropWhile p = b := by
  rw [List.dropWhile_append_of_pos ha]
  cases b with
  | nil => rfl
  | cons x b => simp [hb x rfl]

theorem takeWhile_all (text : Bytes) : ∀ x ∈ text.takeWhile p, p x = true := fun _ hx =>
  List.mem_takeWhile_imp hx

theorem ends_dropWhile (text : Bytes) : Ends p (text.dropWhile p) := by
  intro x hx
  have h := List.head?_dropWhile_not p text
  rw [Option.mem_def.mp hx] at h
  exact h

theorem Word.ends {w : Bytes} (h : Word w) (rest : Bytes) : Ends isSpace (w ++ rest) := by
  obtain ⟨x, w, rfl⟩ := List.exists_cons_of_ne_nil h.nonempty
  intro y hy
  cases hy
  exact h.solid x List.mem_cons_self

theorem Blank.ends (ha : Blank a) (hne : a ≠ []) (rest : Bytes) :
    Ends (!isSpace ·) (a ++ rest) := by
  obtain ⟨x, a, rfl⟩ := List.exists_cons_of_ne_nil hne
  intro y hy
  cases hy
  simp [ha x List.mem_cons_self]

theorem Blank.ends_self (ha : Blank a) : Ends (!isSpace ·) a := by
  intro x hx
  simp [ha x (List.mem_of_mem_head? hx)]

theorem Blank.ends_digits (ha : Blank a) (hb : Ends isDigit b) : Ends isDigit (a ++ b) := by
  cases a with
  | nil => exact hb
  | cons x a =>
    intro y hy
    cases hy
    by_contra hdigit
    rw [Bool.not_eq_false] at hdigit
    exact absurd (ha x List.mem_cons_self) (by simp [isSpace_eq_false_of_isDigit hdigit])

/-- Two items that do not run together have a blank between them. -/
theorem Ends.gap_ne_nil (h : Ends (!isSpace ·) (a ++ b)) (hb : Ends isSpace b) (hne : b ≠ []) :
    a ≠ [] := by
  obtain ⟨x, b, rfl⟩ := List.exists_cons_of_ne_nil hne
  rintro rfl
  have hx : (!isSpace x) = false := h x rfl
  rw [hb x rfl] at hx
  cases hx

end Split

theorem word_append {gap w rest : Bytes} (hgap : Blank gap) (hw : Word w)
    (hrest : Ends (!isSpace ·) rest) : word (gap ++ (w ++ rest)) = some (w, rest) := by
  have hsolid : ∀ x ∈ w, (!isSpace x) = true := fun x hx => by rw [hw.solid x hx]; rfl
  unfold word
  rw [dropWhile_append_ends hgap (hw.ends rest)]
  dsimp only
  rw [takeWhile_append_ends hsolid hrest, dropWhile_append_ends hsolid hrest, if_neg hw.nonempty]

theorem word_eq_some {text w rest : Bytes} : word text = some (w, rest) ↔
    ∃ gap, text = gap ++ (w ++ rest) ∧ Blank gap ∧ Word w ∧ Ends (!isSpace ·) rest := by
  constructor
  · intro h
    unfold word at h
    dsimp only at h
    split at h
    · cases h
    · rename_i hne
      cases h
      refine ⟨text.takeWhile isSpace, ?_, takeWhile_all text, ⟨hne, fun b hb => ?_⟩,
        ends_dropWhile _⟩
      · rw [List.takeWhile_append_dropWhile, List.takeWhile_append_dropWhile]
      · simpa using takeWhile_all _ b hb
  · rintro ⟨gap, rfl, hgap, hw, hrest⟩
    exact word_append hgap hw hrest

theorem word_eq_none {text : Bytes} : word text = none ↔ Blank text := by
  unfold word
  dsimp only
  rw [ite_eq_left_iff]
  constructor
  · intro h
    have hnil : (text.dropWhile isSpace).takeWhile (!isSpace ·) = [] := by
      by_contra hne
      cases h hne
    have hend : text.dropWhile isSpace = [] := by
      rcases hrest : text.dropWhile isSpace with _ | ⟨b, rest⟩
      · rfl
      · have hb := ends_dropWhile (p := isSpace) text b (by rw [hrest]; rfl)
        rw [hrest] at hnil
        simp [hb] at hnil
    exact fun b hb => List.dropWhile_eq_nil_iff.mp hend b hb
  · intro h hne
    exact absurd (by rw [List.dropWhile_eq_nil_iff.mpr h]; rfl) hne

structure IsPositive (text : Bytes) (n : ℤ) : Prop where
  shape : ∃ digits, (text = digits ∨ text = 43 :: digits) ∧ digits ≠ [] ∧
    (∀ b ∈ digits, isDigit b = true) ∧ (digitsValue digits : ℤ) = n
  pos : 0 < n
  lt : n < 2 ^ 63

theorem splitSign_eq {text digits : Bytes} (hne : digits ≠ [])
    (hd : ∀ b ∈ digits, isDigit b = true) (h : text = digits ∨ text = 43 :: digits)
    (rest : Bytes) : splitSign (text ++ rest) = (false, digits ++ rest) := by
  obtain ⟨d, ds, rfl⟩ := List.exists_cons_of_ne_nil hne
  rcases h with rfl | rfl
  · exact splitSign_digit (hd d List.mem_cons_self) _
  · rfl

theorem splitSign_false {text body : Bytes} (h : splitSign text = (false, body)) :
    text = body ∨ text = 43 :: body := by
  unfold splitSign at h
  split at h
  · cases h
  · cases h
    exact .inr rfl
  · cases h
    exact .inl rfl

theorem IsPositive.nonempty {text : Bytes} {n : ℤ} (h : IsPositive text n) : text ≠ [] := by
  obtain ⟨digits, rfl | rfl, hne, -⟩ := h.shape
  · exact hne
  · exact List.cons_ne_nil _ _

theorem IsPositive.ends {text : Bytes} {n : ℤ} (h : IsPositive text n) (rest : Bytes) :
    Ends isSpace (text ++ rest) := by
  obtain ⟨digits, htext, hne, hd, -⟩ := h.shape
  obtain ⟨d, ds, rfl⟩ := List.exists_cons_of_ne_nil hne
  intro b hb
  rcases htext with rfl | rfl
  · cases hb
    exact isSpace_eq_false_of_isDigit (hd d List.mem_cons_self)
  · cases hb
    decide

theorem number_append {gap text rest : Bytes} {n : ℤ} (hgap : Blank gap) (h : IsPositive text n)
    (hrest : Ends isDigit rest) : number (gap ++ (text ++ rest)) = some (n, rest) := by
  obtain ⟨digits, htext, hne, hd, hvalue⟩ := h.shape
  have hpos := h.pos
  have hbounds : -2 ^ 63 ≤ n ∧ n < 2 ^ 63 := ⟨by omega, h.lt⟩
  have happly : applySign false (digitsValue digits) = n := hvalue
  unfold number
  rw [dropWhile_append_ends hgap (h.ends rest), splitSign_eq hne hd htext]
  dsimp only
  rw [takeWhile_append_ends hd hrest, dropWhile_append_ends hd hrest, happly,
    if_neg fun h => h.elim hne fun hb => hb hbounds]

theorem number_eq_some {text rest : Bytes} {n : ℤ} (hpos : 0 < n) : number text = some (n, rest) ↔
    ∃ gap digits, text = gap ++ (digits ++ rest) ∧ Blank gap ∧ IsPositive digits n ∧
      Ends isDigit rest := by
  constructor
  · intro h
    unfold number at h
    dsimp only at h
    split at h
    · cases h
    · rename_i hcond
      obtain ⟨hne, hbounds⟩ := not_or.mp hcond
      rw [not_not] at hbounds
      injection h with h
      injection h with hvalue hrest
      have hsplit := List.takeWhile_append_dropWhile (p := isSpace) (l := text)
      have hdigits := List.takeWhile_append_dropWhile (p := isDigit)
        (l := (splitSign (text.dropWhile isSpace)).2)
      rw [hvalue] at hbounds
      rw [hrest] at hdigits
      set digits := (splitSign (text.dropWhile isSpace)).2.takeWhile isDigit with hd
      have hall : ∀ b ∈ digits, isDigit b = true := takeWhile_all _
      have hends : Ends isDigit rest := hrest ▸ ends_dropWhile _
      -- a minus sign would make the number negative
      have hsign : (splitSign (text.dropWhile isSpace)).1 = false := by
        by_contra hneg
        rw [Bool.not_eq_false] at hneg
        rw [hneg] at hvalue
        simp only [applySign, if_true] at hvalue
        omega
      rw [hsign] at hvalue
      refine ⟨text.takeWhile isSpace, ?_⟩
      rcases splitSign_false (Prod.ext hsign rfl) with hbody | hbody
      · refine ⟨digits, ?_, takeWhile_all _, ⟨⟨digits, .inl rfl, hne, hall, hvalue⟩, hpos,
          hbounds.2⟩, hends⟩
        exact hsplit.symm.trans (congrArg _ (hbody.trans hdigits.symm))
      · refine ⟨43 :: digits, ?_, takeWhile_all _, ⟨⟨digits, .inr rfl, hne, hall, hvalue⟩, hpos,
          hbounds.2⟩, hends⟩
        exact hsplit.symm.trans (congrArg _ (hbody.trans (congrArg (43 :: ·) hdigits.symm)))
  · rintro ⟨gap, digits, rfl, hgap, hd, hrest⟩
    exact number_append hgap hd hrest

end TrueStore.Extraction
