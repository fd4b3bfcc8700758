import TrueStore.Resp.Parse

/-! # What a command declares

The bytes that a command occupies are fixed by its declared lengths alone. The scan
below reads only the headers of a command; the parser returns a command exactly when
the scan succeeds, and its arguments are the payloads of the scanned headers.
-/

namespace TrueStore

/-- The header of a bulk string: its own length and the length it declares. -/
def scanBulk : Bytes → Option (ℕ × ℕ)
  | 36 :: rest => (readTillCrlf rest).bind fun header =>
      (stoull header.1).map fun bulk => (header.2 + 1, bulk)
  | _ => none

/-- The number of bytes a bulk string with the given header occupies in `size_t` arithmetic. -/
def bulkSpan (h : ℕ × ℕ) : ℕ := sizeT (sizeT (h.1 + h.2) + 2)

/-- The end of the bulk string does not fit in a `size_t`. -/
def Overflows (h : ℕ × ℕ) : Prop := 2 ^ 64 ≤ h.1 + h.2 + 2

def scanElements : ℕ → Bytes → Option (List (ℕ × ℕ))
  | 0, _ => some []
  | count + 1, b =>
    match scanBulk b with
    | none => none
    | some h =>
      if b.length < bulkSpan h then none
      else (scanElements count (b.drop (bulkSpan h))).map (h :: ·)

/-- The length of the command header, for a command that the vector and the allocator accept. -/
def scanHeader (grants : ℕ → Bool) : Bytes → Option (ℕ × ℕ)
  | 42 :: rest => (readTillCrlf rest).bind fun header =>
      (stoull header.1).bind fun count =>
        if count ≤ maxSize ∧ grants count = true then some (header.2 + 1, count) else none
  | _ => none

def scanCommand (grants : ℕ → Bool) (b : Bytes) : Option (ℕ × List (ℕ × ℕ)) :=
  (scanHeader grants b).bind fun header =>
    (scanElements header.2 (b.drop header.1)).map fun hs =>
      (header.1 + (hs.map bulkSpan).sum, hs)

/-- The payloads that the parser takes for the given headers. -/
def payloads : List (ℕ × ℕ) → Bytes → List Bytes
  | [], _ => []
  | h :: hs, b => (b.drop h.1).take h.2 :: payloads hs (b.drop (bulkSpan h))

theorem findCrlf_append {b : Bytes} {pos : ℕ} (h : findCrlf b = some pos) (s : Bytes) :
    findCrlf (b ++ s) = some pos := by
  induction b generalizing pos with
  | nil => cases h
  | cons x rest ih =>
    unfold findCrlf at h
    rw [List.cons_append, findCrlf]
    split at h
    · rename_i hc
      rcases rest with _ | ⟨y, rest⟩
      · simp at hc
      · rw [if_pos (by simpa using hc)]
        exact h
    · rename_i hc
      obtain ⟨p, hp, rfl⟩ := Option.map_eq_some_iff.mp h
      rcases rest with _ | ⟨y, rest⟩
      · cases hp
      · rw [if_neg (by simpa using hc), ih hp]
        rfl

theorem readTillCrlf_append {b data : Bytes} {len : ℕ} (h : readTillCrlf b = some (data, len))
    (s : Bytes) : readTillCrlf (b ++ s) = some (data, len) := by
  obtain ⟨p, hp, he⟩ := Option.map_eq_some_iff.mp h
  cases he
  have hle := findCrlf_le hp
  simp [readTillCrlf, findCrlf_append hp, List.take_append_of_le_length (by omega : p ≤ b.length)]

theorem scanBulk_append {b : Bytes} {h : ℕ × ℕ} (hb : scanBulk b = some h) (s : Bytes) :
    scanBulk (b ++ s) = some h := by
  unfold scanBulk at hb
  split at hb
  · rename_i rest
    obtain ⟨⟨data, len⟩, hr, hd⟩ := Option.bind_eq_some_iff.mp hb
    simpa [scanBulk, readTillCrlf_append hr s] using hd
  · cases hb

theorem scanBulk_le {b : Bytes} {h : ℕ × ℕ} (hb : scanBulk b = some h) : h.1 ≤ b.length := by
  unfold scanBulk at hb
  split at hb
  · obtain ⟨⟨data, len⟩, hr, hd⟩ := Option.bind_eq_some_iff.mp hb
    obtain ⟨bulk, _, rfl⟩ := Option.map_eq_some_iff.mp hd
    have := (readTillCrlf_le hr).2
    simp only [List.length_cons]
    omega
  · cases hb

theorem scanElements_succ_iff {count : ℕ} {b : Bytes} {hs : List (ℕ × ℕ)} :
    scanElements (count + 1) b = some hs ↔
      ∃ hd tl, scanBulk b = some hd ∧ bulkSpan hd ≤ b.length ∧
        scanElements count (b.drop (bulkSpan hd)) = some tl ∧ hs = hd :: tl := by
  simp only [scanElements]
  constructor
  · intro h
    rcases hb : scanBulk b with _ | hd
    · rw [hb] at h; cases h
    · rw [hb] at h
      simp only at h
      split at h
      · cases h
      · rename_i hle
        obtain ⟨tl, htl, rfl⟩ := Option.map_eq_some_iff.mp h
        exact ⟨hd, tl, rfl, not_lt.mp hle, htl, rfl⟩
  · rintro ⟨hd, tl, hb, hle, htl, rfl⟩
    simp only [hb, if_neg (not_lt.mpr hle), htl]
    rfl

theorem scanElements_append {count : ℕ} {b : Bytes} {hs : List (ℕ × ℕ)}
    (h : scanElements count b = some hs) (s : Bytes) : scanElements count (b ++ s) = some hs := by
  induction count generalizing b hs with
  | zero => exact h
  | succ count ih =>
    obtain ⟨hd, tl, hb, hle, htl, rfl⟩ := scanElements_succ_iff.mp h
    refine scanElements_succ_iff.mpr ⟨hd, tl, scanBulk_append hb s, ?_, ?_, rfl⟩
    · simp only [List.length_append]; omega
    · rw [List.drop_append_of_le_length hle]
      exact ih htl

theorem scanHeader_append {grants : ℕ → Bool} {b : Bytes} {h : ℕ × ℕ}
    (hb : scanHeader grants b = some h) (s : Bytes) : scanHeader grants (b ++ s) = some h := by
  unfold scanHeader at hb
  split at hb
  · rename_i rest
    obtain ⟨⟨data, len⟩, hr, hd⟩ := Option.bind_eq_some_iff.mp hb
    simpa [scanHeader, readTillCrlf_append hr s] using hd
  · cases hb

theorem scanHeader_le {grants : ℕ → Bool} {b : Bytes} {h : ℕ × ℕ}
    (hb : scanHeader grants b = some h) : 0 < h.1 ∧ h.1 ≤ b.length := by
  unfold scanHeader at hb
  split at hb
  · obtain ⟨⟨data, len⟩, hr, hd⟩ := Option.bind_eq_some_iff.mp hb
    obtain ⟨count, _, hc⟩ := Option.bind_eq_some_iff.mp hd
    split at hc
    · cases hc
      have := (readTillCrlf_le hr).2
      simp only [List.length_cons]
      omega
    · cases hc
  · cases hb

theorem scanCommand_append {grants : ℕ → Bool} {b : Bytes} {n : ℕ} {hs : List (ℕ × ℕ)}
    (h : scanCommand grants b = some (n, hs)) (s : Bytes) :
    scanCommand grants (b ++ s) = some (n, hs) := by
  obtain ⟨hd, hh, he⟩ := Option.bind_eq_some_iff.mp h
  obtain ⟨tl, htl, hn⟩ := Option.map_eq_some_iff.mp he
  simp only [scanCommand, scanHeader_append hh s, Option.bind_some,
    List.drop_append_of_le_length (scanHeader_le hh).2, scanElements_append htl s]
  exact congrArg some hn

/-- A bulk string is parsed exactly when its header is complete and its span is buffered. -/
theorem parseBulkString_eq_some_iff {b value : Bytes} {n : ℕ} :
    parseBulkString b = .ok (some (value, n)) ↔
      ∃ h, scanBulk b = some h ∧ bulkSpan h ≤ b.length ∧ n = bulkSpan h ∧
        value = (b.drop h.1).take h.2 := by
  have key : ∀ data len bulk, b.head? = some 36 → readTillCrlf b.tail = some (data, len) →
      stoull data = some bulk → scanBulk b = some (len + 1, bulk) := by
    intro data len bulk hh hr hs
    rcases b with _ | ⟨x, rest⟩
    · cases hh
    · cases hh
      have hr' : readTillCrlf rest = some (data, len) := hr
      simp [scanBulk, hr', hs]
  constructor
  · intro h
    rcases parseBulkString_cases b with hp | ⟨m, hp⟩ | ⟨data, len, bulk, hh, hr, hs, _, hle, hp⟩
    · rw [h] at hp; cases hp
    · rw [h] at hp; cases hp
    · rw [h] at hp
      cases hp
      exact ⟨(len + 1, bulk), key data len bulk hh hr hs, hle, rfl, rfl⟩
  · rintro ⟨⟨hlen, bulk⟩, hscan, hle, rfl, rfl⟩
    unfold scanBulk at hscan
    split at hscan
    · rename_i rest
      obtain ⟨⟨data, len⟩, hr, hd⟩ := Option.bind_eq_some_iff.mp hscan
      obtain ⟨bulk', hs, he⟩ := Option.map_eq_some_iff.mp hd
      cases he
      have hlen := (readTillCrlf_le hr).2
      have hle' : ¬ (36 :: rest).length < sizeT (sizeT (len + 1 + bulk) + 2) := not_lt.mpr hle
      simp only [parseBulkString, hr, parseUsizeFromBuf, hs, if_neg hle', substr]
      rw [if_neg (by simp), if_neg (by simp only [List.length_cons]; omega)]
      rfl
    · cases hscan

theorem parseElements_of_scan {buffer : Bytes} {count offset : ℕ} {elements : List Bytes}
    {hs : List (ℕ × ℕ)} (ho : offset ≤ buffer.length)
    (h : scanElements count (buffer.drop offset) = some hs)
    (hn : offset + (hs.map bulkSpan).sum < 2 ^ 64) :
    parseElements buffer count offset elements =
      .ok (some (elements ++ payloads hs (buffer.drop offset), offset + (hs.map bulkSpan).sum)) := by
  induction count generalizing offset elements hs with
  | zero =>
    cases h
    simp [parseElements, payloads]
  | succ count ih =>
    obtain ⟨hd, tl, hb, hle, htl, rfl⟩ := scanElements_succ_iff.mp h
    simp only [List.map_cons, List.sum_cons] at hn
    have hle' : offset + bulkSpan hd ≤ buffer.length := by
      rw [List.length_drop] at hle; omega
    have hwrap : sizeT (offset + bulkSpan hd) = offset + bulkSpan hd :=
      Nat.mod_eq_of_lt (by omega)
    rw [parseElements_succ ho, parseBulkString_eq_some_iff.mpr ⟨hd, hb, hle, rfl, rfl⟩]
    simp only [hwrap]
    rw [List.drop_drop] at htl
    rw [ih hle' htl (by omega)]
    simp [payloads, List.drop_drop, Nat.add_assoc]

theorem scan_of_parseElements {buffer : Bytes} (hsize : buffer.length < 2 ^ 64) {count : ℕ}
    {offset n : ℕ} {elements args : List Bytes} (ho : offset ≤ buffer.length)
    (h : parseElements buffer count offset elements = .ok (some (args, n))) :
    ∃ hs, scanElements count (buffer.drop offset) = some hs ∧
      n = offset + (hs.map bulkSpan).sum ∧
      args = elements ++ payloads hs (buffer.drop offset) := by
  induction count generalizing offset elements with
  | zero =>
    cases h
    exact ⟨[], rfl, by simp, by simp [payloads]⟩
  | succ count ih =>
    rw [parseElements_succ ho] at h
    rcases hp : parseBulkString (buffer.drop offset) with e | _ | ⟨value, consumed⟩
    · rw [hp] at h; cases h
    · rw [hp] at h; cases h
    · rw [hp] at h
      obtain ⟨hd, hscan, hle, rfl, rfl⟩ := parseBulkString_eq_some_iff.mp hp
      have hle' : offset + bulkSpan hd ≤ buffer.length := by
        rw [List.length_drop] at hle; omega
      have hwrap : sizeT (offset + bulkSpan hd) = offset + bulkSpan hd :=
        Nat.mod_eq_of_lt (lt_of_le_of_lt hle' hsize)
      simp only [hwrap] at h
      obtain ⟨tl, htl, rfl, rfl⟩ := ih hle' h
      refine ⟨hd :: tl, ?_, ?_, ?_⟩
      · rw [← List.drop_drop] at htl
        exact scanElements_succ_iff.mpr ⟨hd, tl, hscan, hle, htl, rfl⟩
      · simp; omega
      · simp [payloads, List.drop_drop]

theorem parseCommand_of_header {grants : ℕ → Bool} {b : Bytes} {h : ℕ × ℕ}
    (hh : scanHeader grants b = some h) :
    parseCommand grants b = parseElements b h.2 h.1 [] := by
  unfold scanHeader at hh
  split at hh
  · rename_i rest
    obtain ⟨⟨data, len⟩, hr, hd⟩ := Option.bind_eq_some_iff.mp hh
    obtain ⟨count, hs, hc⟩ := Option.bind_eq_some_iff.mp hd
    split at hc
    · rename_i hok
      cases hc
      simp only [parseCommand, hr, parseUsizeFromBuf, hs, reserve, if_neg (not_lt.mpr hok.1),
        if_pos hok.2]
      simp
    · cases hc
  · cases hh

/-- A buffer without an accepted header is refused, or incomplete, whatever follows the header. -/
theorem parseCommand_of_no_header {grants : ℕ → Bool} {b : Bytes}
    (hh : scanHeader grants b = none) :
    parseCommand grants b = .ok none ∨
      ∃ e, ∀ s, parseCommand grants (b ++ s) = .error e := by
  rcases b with _ | ⟨x, rest⟩
  · exact .inl rfl
  by_cases hx : x = 42
  · subst hx
    rcases hr : readTillCrlf rest with _ | ⟨data, len⟩
    · exact .inl (by simp [parseCommand, hr])
    · refine .inr ?_
      rcases hs : stoull data with _ | count
      · exact ⟨_, fun s => by
          simp [parseCommand, readTillCrlf_append hr s, parseUsizeFromBuf, hs]; rfl⟩
      · have hno : ¬ (count ≤ maxSize ∧ grants count = true) := by
          simpa [scanHeader, hr, hs] using hh
        by_cases hmax : maxSize < count
        · exact ⟨.lengthError, fun s => by
            simp [parseCommand, readTillCrlf_append hr s, parseUsizeFromBuf, hs, reserve, hmax]⟩
        · have hg : ¬ grants count = true := fun hg => hno ⟨not_lt.mp hmax, hg⟩
          exact ⟨.badAlloc, fun s => by
            simp [parseCommand, readTillCrlf_append hr s, parseUsizeFromBuf, hs, reserve, hmax, hg]⟩
  · exact .inr ⟨_, fun s => by simp [parseCommand, hx]; rfl⟩

theorem scanCommand_eq_some_iff {grants : ℕ → Bool} {b : Bytes} {n : ℕ} {hs : List (ℕ × ℕ)} :
    scanCommand grants b = some (n, hs) ↔
      ∃ h, scanHeader grants b = some h ∧ scanElements h.2 (b.drop h.1) = some hs ∧
        n = h.1 + (hs.map bulkSpan).sum := by
  simp only [scanCommand, Option.bind_eq_some_iff, Option.map_eq_some_iff, Prod.mk.injEq]
  constructor
  · rintro ⟨h, hh, tl, htl, rfl, rfl⟩
    exact ⟨h, hh, htl, rfl⟩
  · rintro ⟨h, hh, htl, rfl⟩
    exact ⟨h, hh, hs, htl, rfl, rfl⟩

theorem span_le_length {count : ℕ} {b : Bytes} {hs : List (ℕ × ℕ)}
    (h : scanElements count b = some hs) : (hs.map bulkSpan).sum ≤ b.length := by
  induction count generalizing b hs with
  | zero => cases h; simp
  | succ count ih =>
    obtain ⟨hd, tl, hb, hle, htl, rfl⟩ := scanElements_succ_iff.mp h
    have := ih htl
    rw [List.length_drop] at this
    simp only [List.map_cons, List.sum_cons]
    omega

theorem scanCommand_le {grants : ℕ → Bool} {b : Bytes} {n : ℕ} {hs : List (ℕ × ℕ)}
    (h : scanCommand grants b = some (n, hs)) : 0 < n ∧ n ≤ b.length := by
  obtain ⟨hd, hh, hscan, rfl⟩ := scanCommand_eq_some_iff.mp h
  have h₁ := scanHeader_le hh
  have h₂ := span_le_length hscan
  rw [List.length_drop] at h₂
  omega

theorem bulkSpan_of_not_overflows {h : ℕ × ℕ} (ho : ¬ Overflows h) :
    bulkSpan h = h.1 + h.2 + 2 := by
  simp only [Overflows, not_le] at ho
  simp only [bulkSpan, sizeT]
  rw [Nat.mod_eq_of_lt (by omega : h.1 + h.2 < 2 ^ 64), Nat.mod_eq_of_lt ho]

/-- Without an overflow the payloads are read from the bytes of the command itself. -/
theorem payloads_append {count : ℕ} {b : Bytes} {hs : List (ℕ × ℕ)}
    (h : scanElements count b = some hs) (ho : ∀ h ∈ hs, ¬ Overflows h) (s : Bytes) :
    payloads hs (b ++ s) = payloads hs b := by
  induction count generalizing b hs with
  | zero => cases h; rfl
  | succ count ih =>
    obtain ⟨hd, tl, hb, hle, htl, rfl⟩ := scanElements_succ_iff.mp h
    have hspan := bulkSpan_of_not_overflows (ho hd List.mem_cons_self)
    simp only [payloads, List.cons.injEq]
    constructor
    · rw [List.drop_append_of_le_length (by omega),
        List.take_append_of_le_length (by rw [List.length_drop]; omega)]
    · rw [List.drop_append_of_le_length hle]
      exact ih htl fun h' hh' => ho h' (List.mem_cons_of_mem _ hh')

/-- An overflowing payload grows with the buffer. -/
theorem not_overflows_of_payloads_eq {count : ℕ} {b : Bytes} {hs : List (ℕ × ℕ)}
    (h : scanElements count b = some hs) (hsize : b.length < 2 ^ 63)
    (he : payloads hs (b ++ [0]) = payloads hs b) : ∀ h ∈ hs, ¬ Overflows h := by
  induction count generalizing b hs with
  | zero => cases h; simp
  | succ count ih =>
    obtain ⟨hd, tl, hb, hle, htl, rfl⟩ := scanElements_succ_iff.mp h
    have hhead := scanBulk_le hb
    simp only [payloads, List.cons.injEq] at he
    intro h' hh'
    rcases List.mem_cons.mp hh' with rfl | hh'
    · -- the whole rest of the buffer would be taken, with and without the extra byte
      intro hov
      simp only [Overflows] at hov
      have hlen := congrArg List.length he.1
      simp only [List.length_take, List.length_drop, List.length_append,
        List.length_singleton] at hlen
      omega
    · rw [List.drop_append_of_le_length hle] at he
      refine ih htl ?_ he.2 h' hh'
      rw [List.length_drop]
      omega

theorem parseBulkString_error_append {b : Bytes} {e : Exn} (h : parseBulkString b = .error e)
    (s : Bytes) : parseBulkString (b ++ s) = .error e := by
  rcases b with _ | ⟨x, rest⟩
  · cases h
  by_cases hx : x = 36
  · subst hx
    rcases hr : readTillCrlf rest with _ | ⟨data, len⟩
    · simp [parseBulkString, hr] at h
    · rcases hs : stoull data with _ | bulk
      · simp only [parseBulkString, hr, parseUsizeFromBuf, hs] at h
        simp only [List.cons_append, parseBulkString, readTillCrlf_append hr s, parseUsizeFromBuf, hs]
        exact h
      · rcases parseBulkString_cases (36 :: rest) with hp | ⟨m, hp⟩ | ⟨_, _, _, _, _, _, _, _, hp⟩
        · rw [h] at hp; cases hp
        · -- with a readable length only `substr` could throw, and it does not
          exfalso
          have hlen := (readTillCrlf_le hr).2
          simp only [parseBulkString, hr, parseUsizeFromBuf, hs, substr] at hp
          rw [if_neg (by simp)] at hp
          split at hp
          · cases hp
          · rw [if_neg (by simp only [List.length_cons]; omega)] at hp
            cases hp
        · rw [h] at hp; cases hp
  · simp only [parseBulkString, ne_eq, hx, not_false_eq_true, if_true] at h
    simp only [List.cons_append, parseBulkString, ne_eq, hx, not_false_eq_true, if_true]
    exact h

theorem parseElements_error_append {b : Bytes} {count offset : ℕ} {elements : List Bytes} {e : Exn}
    (ho : offset ≤ b.length) (h : parseElements b count offset elements = .error e) (s : Bytes) :
    ∀ elements', parseElements (b ++ s) count offset elements' = .error e := by
  induction count generalizing offset elements with
  | zero => cases h
  | succ count ih =>
    intro elements'
    rw [parseElements_succ ho] at h
    rw [parseElements_succ (by simp only [List.length_append]; omega),
      List.drop_append_of_le_length ho]
    rcases hp : parseBulkString (b.drop offset) with e' | _ | ⟨value, consumed⟩
    · rw [hp] at h
      rw [parseBulkString_error_append hp s]
      exact h
    · rw [hp] at h; cases h
    · rw [hp] at h
      obtain ⟨hd, hb, hle, rfl, rfl⟩ := parseBulkString_eq_some_iff.mp hp
      rw [parseBulkString_eq_some_iff.mpr ⟨hd, scanBulk_append hb s,
        by simp only [List.length_append]; omega, rfl, rfl⟩]
      exact ih (offset_le ho hp) h _

theorem parseCommand_error_append {grants : ℕ → Bool} {b : Bytes} {e : Exn}
    (h : parseCommand grants b = .error e) (s : Bytes) :
    parseCommand grants (b ++ s) = .error e := by
  rcases hh : scanHeader grants b with _ | hd
  · rcases parseCommand_of_no_header hh with hp | ⟨e', hp⟩
    · rw [h] at hp; cases hp
    · have := hp []
      rw [List.append_nil, h] at this
      cases this
      exact hp s
  · rw [parseCommand_of_header hh] at h
    rw [parseCommand_of_header (scanHeader_append hh s)]
    exact parseElements_error_append (scanHeader_le hh).2 h s _

theorem parseCommand_of_scan {grants : ℕ → Bool} {b : Bytes} {h : ℕ × ℕ} {hs : List (ℕ × ℕ)}
    (hh : scanHeader grants b = some h) (he : scanElements h.2 (b.drop h.1) = some hs)
    (hn : h.1 + (hs.map bulkSpan).sum < 2 ^ 64) :
    parseCommand grants b =
      .ok (some (payloads hs (b.drop h.1), h.1 + (hs.map bulkSpan).sum)) := by
  rw [parseCommand_of_header hh, parseElements_of_scan (scanHeader_le hh).2 he hn]
  rfl

theorem scan_of_parseCommand {grants : ℕ → Bool} {b : Bytes} (hsize : b.length < 2 ^ 64)
    {args : List Bytes} {n : ℕ} (hp : parseCommand grants b = .ok (some (args, n))) :
    ∃ h hs, scanHeader grants b = some h ∧ scanElements h.2 (b.drop h.1) = some hs ∧
      n = h.1 + (hs.map bulkSpan).sum ∧ args = payloads hs (b.drop h.1) := by
  rcases hh : scanHeader grants b with _ | h
  · rcases parseCommand_of_no_header hh with he | ⟨e, he⟩
    · rw [hp] at he; cases he
    · have := he []
      rw [List.append_nil, hp] at this
      cases this
  · rw [parseCommand_of_header hh] at hp
    obtain ⟨hs, h₁, h₂, h₃⟩ := scan_of_parseElements hsize (scanHeader_le hh).2 hp
    exact ⟨h, hs, rfl, h₁, h₂, by simpa using h₃⟩

theorem findCrlf_take {b : Bytes} {pos m : ℕ} (h : findCrlf b = some pos) (hm : pos + 2 ≤ m) :
    findCrlf (b.take m) = some pos := by
  induction b generalizing pos m with
  | nil => cases h
  | cons x rest ih =>
    obtain ⟨m, rfl⟩ : ∃ k, m = k + 1 := ⟨m - 1, by omega⟩
    unfold findCrlf at h
    rw [List.take_succ_cons, findCrlf]
    split at h
    · rename_i hc
      cases h
      have hm' : m ≠ 0 := by omega
      rw [if_pos (by simpa [List.head?_take, hm'] using hc)]
    · rename_i hc
      obtain ⟨p, hp, rfl⟩ := Option.map_eq_some_iff.mp h
      have hm' : m ≠ 0 := by omega
      rw [if_neg (by simpa [List.head?_take, hm'] using hc), ih hp (by omega)]
      rfl

theorem readTillCrlf_take {b data : Bytes} {len m : ℕ} (h : readTillCrlf b = some (data, len))
    (hm : len ≤ m) : readTillCrlf (b.take m) = some (data, len) := by
  obtain ⟨p, hp, he⟩ := Option.map_eq_some_iff.mp h
  cases he
  simp [readTillCrlf, findCrlf_take hp hm, List.take_take, Nat.min_eq_left (by omega : p ≤ m)]

theorem scanBulk_take {b : Bytes} {h : ℕ × ℕ} {m : ℕ} (hb : scanBulk b = some h) (hm : h.1 ≤ m) :
    scanBulk (b.take m) = some h := by
  unfold scanBulk at hb
  split at hb
  · rename_i rest
    obtain ⟨⟨data, len⟩, hr, hd⟩ := Option.bind_eq_some_iff.mp hb
    obtain ⟨bulk, hs, rfl⟩ := Option.map_eq_some_iff.mp hd
    obtain ⟨m, rfl⟩ : ∃ k, m = k + 1 := ⟨m - 1, by simp only at hm; omega⟩
    simp [scanBulk, readTillCrlf_take hr (by simpa using hm), hs]
  · cases hb

theorem scanHeader_take {grants : ℕ → Bool} {b : Bytes} {h : ℕ × ℕ} {m : ℕ}
    (hb : scanHeader grants b = some h) (hm : h.1 ≤ m) : scanHeader grants (b.take m) = some h := by
  unfold scanHeader at hb
  split at hb
  · rename_i rest
    obtain ⟨⟨data, len⟩, hr, hd⟩ := Option.bind_eq_some_iff.mp hb
    obtain ⟨count, hs, hc⟩ := Option.bind_eq_some_iff.mp hd
    split at hc
    · rename_i hok
      cases hc
      obtain ⟨m, rfl⟩ : ∃ k, m = k + 1 := ⟨m - 1, by simp only at hm; omega⟩
      simp [scanHeader, readTillCrlf_take hr (by simpa using hm), hs, hok]
    · cases hc
  · cases hb

theorem scanElements_take {count m : ℕ} {b : Bytes} {hs : List (ℕ × ℕ)}
    (h : scanElements count b = some hs) (ho : ∀ h ∈ hs, ¬ Overflows h)
    (hm : (hs.map bulkSpan).sum ≤ m) : scanElements count (b.take m) = some hs := by
  induction count generalizing b hs m with
  | zero => cases h; rfl
  | succ count ih =>
    obtain ⟨hd, tl, hb, hle, htl, rfl⟩ := scanElements_succ_iff.mp h
    have hspan := bulkSpan_of_not_overflows (ho hd List.mem_cons_self)
    simp only [List.map_cons, List.sum_cons] at hm
    refine scanElements_succ_iff.mpr ⟨hd, tl, scanBulk_take hb (by omega), ?_, ?_, rfl⟩
    · simp only [List.length_take]; omega
    · rw [List.drop_take]
      exact ih htl (fun h' hh' => ho h' (List.mem_cons_of_mem _ hh')) (by omega)

theorem parseCommand_take_append {grants : ℕ → Bool} {b : Bytes} (hsize : b.length < 2 ^ 64)
    {args : List Bytes} {n : ℕ} {hs : List (ℕ × ℕ)}
    (h : parseCommand grants b = .ok (some (args, n))) (hscan : scanCommand grants b = some (n, hs))
    (ho : ∀ h ∈ hs, ¬ Overflows h) {m : ℕ} (hm : n ≤ m) (s : Bytes) :
    parseCommand grants (b.take m ++ s) = .ok (some (args, n)) := by
  obtain ⟨hd, hs', hh, he, rfl, rfl⟩ := scan_of_parseCommand hsize h
  obtain ⟨hd', hh', he', -⟩ := scanCommand_eq_some_iff.mp hscan
  rw [hh] at hh'
  cases hh'
  rw [he] at he'
  cases he'
  have hle := scanCommand_le hscan
  have hhead := scanHeader_take hh (by omega : hd.1 ≤ m)
  have helem : scanElements hd.2 ((b.take m).drop hd.1) = some hs := by
    rw [List.drop_take]
    exact scanElements_take he ho (by omega)
  have hpay : payloads hs ((b.take m).drop hd.1) = payloads hs (b.drop hd.1) := by
    have := payloads_append helem ho (b.drop m)
    rw [← this, ← List.drop_append_of_le_length (scanHeader_le hhead).2, List.take_append_drop]
  have hdrop : (b.take m ++ s).drop hd.1 = (b.take m).drop hd.1 ++ s :=
    List.drop_append_of_le_length (scanHeader_le hhead).2
  rw [parseCommand_of_scan (scanHeader_append hhead s)
    (by rw [hdrop]; exact scanElements_append helem s) (by omega), hdrop, payloads_append helem ho,
    hpay]

theorem scanCommand_of_parseCommand {grants : ℕ → Bool} {b : Bytes} (hsize : b.length < 2 ^ 64)
    {args : List Bytes} {n : ℕ} (h : parseCommand grants b = .ok (some (args, n))) :
    ∃ hs, scanCommand grants b = some (n, hs) := by
  obtain ⟨hd, hs, hh, he, rfl, -⟩ := scan_of_parseCommand hsize h
  exact ⟨hs, scanCommand_eq_some_iff.mpr ⟨hd, hh, he, rfl⟩⟩

end TrueStore
