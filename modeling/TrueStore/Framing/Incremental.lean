import Mathlib.Tactic

/-! # Incremental parsing of a byte stream

An incremental parser inspects a buffer and either fails, asks for more input, or
returns an item together with the number of symbols it used. A session appends each
arriving chunk to its buffer and hands over items until the parser stops. On a steady
stream the session sees the same items and ends in the same way however the stream
was cut into chunks.
-/

namespace TrueStore.Framing

variable {α β ε σ : Type*}

abbrev Parser (α β ε : Type*) := List β → Except ε (Option (α × ℕ))

abbrev Handler (α ε σ : Type*) := α → ℕ → σ → σ × Option ε

/-- Hand over items from the buffer until the parser asks for more input or something fails.
The result is the final state and either the unread rest of the buffer or the failure. -/
def consume (parse : Parser α β ε) (handle : Handler α ε σ) :
    ℕ → σ → List β → σ × Except ε (List β)
  | 0, st, buffer => (st, .ok buffer)
  | fuel + 1, st, buffer =>
    match parse buffer with
    | .error e => (st, .error e)
    | .ok none => (st, .ok buffer)
    | .ok (some (item, n)) =>
      match handle item n st with
      | (st', some e) => (st', .error e)
      | (st', none) => consume parse handle fuel st' (buffer.drop n)

/-- One arrival: append the chunk and drain the buffer. Every item uses some input, so the
buffer length is enough fuel. -/
def feed (parse : Parser α β ε) (handle : Handler α ε σ) (st : σ) (buffer chunk : List β) :
    σ × Except ε (List β) :=
  consume parse handle (buffer ++ chunk).length st (buffer ++ chunk)

def feedAll (parse : Parser α β ε) (handle : Handler α ε σ) :
    σ → List β → List (List β) → σ × Except ε (List β)
  | st, buffer, [] => (st, .ok buffer)
  | st, buffer, chunk :: chunks =>
    match feed parse handle st buffer chunk with
    | (st', .error e) => (st', .error e)
    | (st', .ok rest) => feedAll parse handle st' rest chunks

def handleAll (handle : Handler α ε σ) : List (α × ℕ) → σ → σ × Option ε
  | [], st => (st, none)
  | (item, n) :: items, st =>
    match handle item n st with
    | (st', some e) => (st', some e)
    | (st', none) => handleAll handle items st'

/-- The parser decides about `b` on no proper prefix differently than on `b` itself. -/
structure Settled (parse : Parser α β ε) (b : List β) : Prop where
  done : ∀ q item n, q <+: b → parse q = .ok (some (item, n)) →
    0 < n ∧ n ≤ q.length ∧ parse b = .ok (some (item, n))
  fail : ∀ q e, q <+: b → parse q = .error e → parse b = .error e

/-- Every item boundary of the stream is settled. -/
inductive Steady (parse : Parser α β ε) : List β → Prop where
  | stop {b : List β} : Settled parse b → (∀ p, parse b ≠ .ok (some p)) → Steady parse b
  | item {b : List β} {a : α} {n : ℕ} : Settled parse b → parse b = .ok (some (a, n)) →
      Steady parse (b.drop n) → Steady parse b

theorem Steady.settled {parse : Parser α β ε} {b : List β} (h : Steady parse b) :
    Settled parse b := by
  cases h <;> assumption

theorem Steady.tail {parse : Parser α β ε} {b : List β} {a : α} {n : ℕ} (h : Steady parse b)
    (hp : parse b = .ok (some (a, n))) : Steady parse (b.drop n) := by
  cases h with
  | stop _ hn => exact absurd hp (hn _)
  | item _ hp' ht =>
    rw [hp] at hp'
    cases hp'
    exact ht

section Fragmentation

variable {parse : Parser α β ε} {handle : Handler α ε σ}

theorem consume_of_more {b : List β} (h : parse b = .ok none) (fuel : ℕ) (st : σ) :
    consume parse handle fuel st b = (st, .ok b) := by
  cases fuel with
  | zero => rfl
  | succ fuel => simp only [consume, h]

theorem consume_item {b : List β} {a : α} {n : ℕ} (h : parse b = .ok (some (a, n)))
    (fuel : ℕ) (st : σ) :
    consume parse handle (fuel + 1) st b =
      match handle a n st with
      | (st', some e) => (st', .error e)
      | (st', none) => consume parse handle fuel st' (b.drop n) := by
  simp only [consume, h]

theorem Settled.item_length {b : List β} {a : α} {n : ℕ} (h : Settled parse b)
    (hp : parse b = .ok (some (a, n))) : 0 < n ∧ n ≤ b.length :=
  ⟨(h.done b a n List.prefix_rfl hp).1, (h.done b a n List.prefix_rfl hp).2.1⟩

theorem consume_preserves (parse : Parser α β ε) (handle : Handler α ε σ) {I : σ → Prop}
    (h : ∀ a n st, I st → I (handle a n st).1) (fuel : ℕ) {st : σ} (hst : I st) (b : List β) :
    I (consume parse handle fuel st b).1 := by
  induction fuel generalizing st b with
  | zero => exact hst
  | succ fuel ih =>
    unfold consume
    split
    · exact hst
    · exact hst
    · rename_i a n hp
      have hi := h a n st hst
      split
      · rename_i st' e he
        rw [he] at hi
        exact hi
      · rename_i st' he
        rw [he] at hi
        exact ih hi _

theorem handleAll_append (items items' : List (α × ℕ)) (st : σ) :
    handleAll handle (items ++ items') st =
      match handleAll handle items st with
      | (st', some e) => (st', some e)
      | (st', none) => handleAll handle items' st' := by
  induction items generalizing st with
  | nil => rfl
  | cons item items ih =>
    obtain ⟨a, n⟩ := item
    simp only [List.cons_append, handleAll]
    rcases handle a n st with ⟨st', _ | e⟩
    · exact ih st'
    · rfl

/-- On a steady stream any fuel from the buffer length on gives the same result. -/
theorem Steady.consume_fuel (hnil : parse [] = .ok none) {b : List β} (h : Steady parse b)
    {f g : ℕ} (hf : b.length ≤ f) (hg : b.length ≤ g) (st : σ) :
    consume parse handle f st b = consume parse handle g st b := by
  induction h generalizing f g st with
  | @stop b _ hn =>
    rcases hp : parse b with e | _ | p
    · have hb : b ≠ [] := fun he => by rw [he, hnil] at hp; cases hp
      obtain ⟨f, rfl⟩ := Nat.exists_eq_succ_of_ne_zero
        (by have := List.length_pos_of_ne_nil hb; omega : f ≠ 0)
      obtain ⟨g, rfl⟩ := Nat.exists_eq_succ_of_ne_zero
        (by have := List.length_pos_of_ne_nil hb; omega : g ≠ 0)
      simp only [consume, hp]
    · rw [consume_of_more hp, consume_of_more hp]
    · exact absurd hp (hn p)
  | @item b a n hs hp _ ih =>
    obtain ⟨h0, hn⟩ := hs.item_length hp
    obtain ⟨f, rfl⟩ := Nat.exists_eq_succ_of_ne_zero (by omega : f ≠ 0)
    obtain ⟨g, rfl⟩ := Nat.exists_eq_succ_of_ne_zero (by omega : g ≠ 0)
    rw [consume_item hp, consume_item hp]
    rcases handle a n st with ⟨st', _ | e⟩
    · exact ih (by simp; omega) (by simp; omega) st'
    · rfl

variable (handle) in
/-- Draining a prefix of a steady stream is a partial run of draining the whole. -/
theorem Steady.consume_part (hnil : parse [] = .ok none) {b : List β} (h : Steady parse b)
    {q s : List β} (hb : b = q ++ s) {f g : ℕ} (hf : q.length ≤ f) (hg : b.length ≤ g) (st : σ) :
    match consume parse handle f st q with
    | (st', .error e) => consume parse handle g st b = (st', .error e)
    | (st', .ok rest) => parse rest = .ok none ∧ Steady parse (rest ++ s) ∧
        consume parse handle g st b = consume parse handle (rest ++ s).length st' (rest ++ s) := by
  induction h generalizing q f g st with
  | @stop b hs hn =>
    have hq : q <+: b := ⟨s, hb.symm⟩
    rcases hp : parse q with e | _ | ⟨a, n⟩
    · have hpb := hs.fail q e hq hp
      have hne : q ≠ [] := fun he => by rw [he, hnil] at hp; cases hp
      have hlen := List.length_pos_of_ne_nil hne
      obtain ⟨f, rfl⟩ := Nat.exists_eq_succ_of_ne_zero (by omega : f ≠ 0)
      obtain ⟨g, rfl⟩ := Nat.exists_eq_succ_of_ne_zero
        (by have := hq.length_le; omega : g ≠ 0)
      simp only [consume, hp, hpb]
    · rw [consume_of_more hp]
      exact ⟨hp, hb ▸ .stop hs hn, by
        rw [← hb]; exact (Steady.stop hs hn).consume_fuel hnil hg le_rfl st⟩
    · exact absurd (hs.done q a n hq hp).2.2 (hn _)
  | @item b a n hs hpb ht ih =>
    have hq : q <+: b := ⟨s, hb.symm⟩
    rcases hp : parse q with e | _ | ⟨a', n'⟩
    · have := hs.fail q e hq hp
      rw [hpb] at this
      cases this
    · rw [consume_of_more hp]
      exact ⟨hp, hb ▸ .item hs hpb ht, by
        rw [← hb]; exact (Steady.item hs hpb ht).consume_fuel hnil hg le_rfl st⟩
    · obtain ⟨h0, hn, hpb'⟩ := hs.done q a' n' hq hp
      rw [hpb] at hpb'
      cases hpb'
      have hlen := hq.length_le
      obtain ⟨f, rfl⟩ := Nat.exists_eq_succ_of_ne_zero (by omega : f ≠ 0)
      obtain ⟨g, rfl⟩ := Nat.exists_eq_succ_of_ne_zero (by omega : g ≠ 0)
      rw [consume_item hp, consume_item hpb]
      rcases handle a n st with ⟨st', _ | e⟩
      · refine ih (q := q.drop n) ?_ (by simp; omega) (by simp; omega) st'
        rw [hb, List.drop_append_of_le_length hn]
      · rfl

theorem Steady.feedAll_eq (hnil : parse [] = .ok none) {buffer : List β} {chunks : List (List β)}
    (h : Steady parse (buffer ++ chunks.flatten)) (hm : parse buffer = .ok none) (st : σ) :
    feedAll parse handle st buffer chunks =
      consume parse handle (buffer ++ chunks.flatten).length st (buffer ++ chunks.flatten) := by
  induction chunks generalizing buffer st with
  | nil =>
    rw [consume_of_more (by simpa using hm)]
    simp [feedAll]
  | cons chunk chunks ih =>
    have hb : buffer ++ (chunk :: chunks).flatten = (buffer ++ chunk) ++ chunks.flatten := by simp
    have hstep := h.consume_part handle hnil hb le_rfl le_rfl st
    simp only [feedAll, feed]
    rcases hc : consume parse handle (buffer ++ chunk).length st (buffer ++ chunk) with
      ⟨st', e | rest⟩
    · rw [hc] at hstep
      exact hstep.symm
    · rw [hc] at hstep
      obtain ⟨hm', hs', he⟩ := hstep
      rw [he]
      exact ih hs' hm' st'

theorem feedAll_append {st st' : σ} {buffer rest : List β} {cs : List (List β)}
    (h : feedAll parse handle st buffer cs = (st', .ok rest)) (cs' : List (List β)) :
    feedAll parse handle st buffer (cs ++ cs') = feedAll parse handle st' rest cs' := by
  induction cs generalizing st buffer with
  | nil =>
    cases h
    rfl
  | cons chunk cs ih =>
    simp only [List.cons_append, feedAll] at h ⊢
    rcases hf : feed parse handle st buffer chunk with ⟨st₁, e | rest₁⟩
    · rw [hf] at h
      cases h
    · rw [hf] at h
      exact ih h

theorem Steady.feedAll_congr (hnil : parse [] = .ok none) {cs cs' : List (List β)}
    (h : Steady parse cs.flatten) (he : cs.flatten = cs'.flatten) (st : σ) :
    feedAll parse handle st [] cs = feedAll parse handle st [] cs' := by
  rw [Steady.feedAll_eq hnil (by simpa using h) hnil,
    Steady.feedAll_eq hnil (by simpa [← he] using h) hnil]
  simp [he]

end Fragmentation

end TrueStore.Framing
