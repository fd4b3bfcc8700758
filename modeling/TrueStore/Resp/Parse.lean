import TrueStore.Resp.Basic

/-! # The request parser

`parseCommand` reads one array of bulk strings from the head of a buffer. It asks for
more input, returns the arguments with the number of bytes used, or throws. The
declared lengths come from `std::stoull` and are added in `size_t` arithmetic. The
event loop survives only a `RespError`, so the exact set of buffers on which another
exception escapes is characterised here.
-/

namespace TrueStore

open RespType

/-- The exceptions that the parser and the library calls in it can throw. -/
inductive Exn where
  | respError (message : Bytes)
  | lengthError
  | badAlloc
  | outOfRange
  | runtimeError (message : Bytes)
  deriving DecidableEq, Repr

/-- A `size_t` computation. -/
def sizeT (n : ℕ) : ℕ := n % 2 ^ 64

/-- The address space over the 32 bytes of a `std::string`. `reserve` refuses more strings; where
the library's own `max_size()` is one less, the allocator has no room for the last count either. -/
def maxSize : ℕ := 2 ^ 63 / 32

/-- `buffer.find("\r\n")`. -/
def findCrlf : Bytes → Option ℕ
  | [] => none
  | b :: rest => if b = 13 ∧ rest.head? = some 10 then some 0 else (findCrlf rest).map (· + 1)

/-- `buffer.substr(pos, count)`, which throws when `pos` lies past the end. -/
def substr (buffer : Bytes) (pos count : ℕ) : Except Exn Bytes :=
  if buffer.length < pos then .error .outOfRange else .ok ((buffer.drop pos).take count)

/-- `buffer.substr(pos)`. -/
def substrFrom (buffer : Bytes) (pos : ℕ) : Except Exn Bytes :=
  if buffer.length < pos then .error .outOfRange else .ok (buffer.drop pos)

/-- `elements.reserve(count)`; `grants` says which requests the allocator serves. -/
def reserve (grants : ℕ → Bool) (count : ℕ) : Except Exn Unit :=
  if maxSize < count then .error .lengthError
  else if grants count then .ok () else .error .badAlloc

def readTillCrlf (buffer : Bytes) : Option (Bytes × ℕ) :=
  (findCrlf buffer).map fun pos => (buffer.take pos, pos + 2)

def parseUsizeFromBuf (buffer : Bytes) : Except Exn ℕ :=
  match stoull buffer with
  | some n => .ok n
  | none => .error (.respError (ascii "Invalid integer value"))

def parseBulkString : Bytes → Except Exn (Option (Bytes × ℕ))
  | [] => .ok none
  | b :: rest =>
    if b ≠ 36 then .error (.respError (ascii "Expected bulk string"))
    else match readTillCrlf rest with
      | none => .ok none
      | some (bufData, len) =>
        match parseUsizeFromBuf bufData with
        | .error e => .error e
        | .ok bulkstrLen =>
          let bytesConsumed := len + 1
          let bulkstrEndIdx := sizeT (bytesConsumed + bulkstrLen)
          if (b :: rest).length < sizeT (bulkstrEndIdx + 2) then .ok none
          else match substr (b :: rest) bytesConsumed bulkstrLen with
            | .error e => .error e
            | .ok bulkstr => .ok (some (bulkstr, sizeT (bulkstrEndIdx + 2)))

def parseElements (buffer : Bytes) : ℕ → ℕ → List Bytes → Except Exn (Option (List Bytes × ℕ))
  | 0, offset, elements => .ok (some (elements, offset))
  | count + 1, offset, elements =>
    match substrFrom buffer offset with
    | .error e => .error e
    | .ok rest =>
      match parseBulkString rest with
      | .error e => .error e
      | .ok none => .ok none
      | .ok (some (value, consumed)) =>
        parseElements buffer count (sizeT (offset + consumed)) (elements ++ [value])

def parseCommand (grants : ℕ → Bool) : Bytes → Except Exn (Option (List Bytes × ℕ))
  | [] => .ok none
  | b :: rest =>
    if b ≠ 42 then .error (.respError (ascii "Expected array for command"))
    else match readTillCrlf rest with
      | none => .ok none
      | some (countStr, headerLen) =>
        match parseUsizeFromBuf countStr with
        | .error e => .error e
        | .ok count =>
          match reserve grants count with
          | .error e => .error e
          | .ok () => parseElements (b :: rest) count (headerLen + 1) []

def unlimited : ℕ → Bool := fun _ => true

theorem findCrlf_le {b : Bytes} {pos : ℕ} (h : findCrlf b = some pos) : pos + 2 ≤ b.length := by
  induction b generalizing pos with
  | nil => cases h
  | cons x rest ih =>
    unfold findCrlf at h
    split at h
    · rename_i hc
      cases h
      rcases rest with _ | ⟨y, rest⟩
      · simp at hc
      · simp
    · obtain ⟨p, hp, rfl⟩ := Option.map_eq_some_iff.mp h
      have := ih hp
      simp only [List.length_cons]
      omega

theorem readTillCrlf_le {b data : Bytes} {len : ℕ} (h : readTillCrlf b = some (data, len)) :
    2 ≤ len ∧ len ≤ b.length := by
  obtain ⟨p, hp, he⟩ := Option.map_eq_some_iff.mp h
  cases he
  exact ⟨by omega, findCrlf_le hp⟩

theorem parseBulkString_cases (b : Bytes) :
    (parseBulkString b = .ok none) ∨ (∃ m, parseBulkString b = .error (.respError m)) ∨
    ∃ data len bulk, b.head? = some 36 ∧ readTillCrlf b.tail = some (data, len) ∧
      stoull data = some bulk ∧ len + 1 ≤ b.length ∧
      sizeT (sizeT (len + 1 + bulk) + 2) ≤ b.length ∧
      parseBulkString b = .ok (some ((b.drop (len + 1)).take bulk,
        sizeT (sizeT (len + 1 + bulk) + 2))) := by
  rcases b with _ | ⟨x, rest⟩
  · exact .inl rfl
  by_cases hx : x = 36
  · subst hx
    rcases hr : readTillCrlf rest with _ | ⟨data, len⟩
    · exact .inl (by simp [parseBulkString, hr])
    have hlen := (readTillCrlf_le hr).2
    rcases hs : stoull data with _ | bulk
    · exact .inr (.inl ⟨_, by simp [parseBulkString, hr, parseUsizeFromBuf, hs]; rfl⟩)
    by_cases hb : (36 :: rest).length < sizeT (sizeT (len + 1 + bulk) + 2)
    · refine .inl ?_
      simp only [parseBulkString, hr, parseUsizeFromBuf, hs, if_pos hb]
      simp
    · refine .inr (.inr ⟨data, len, bulk, rfl, hr, hs, ?_, not_lt.mp hb, ?_⟩)
      · simp only [List.length_cons]; omega
      · simp only [parseBulkString, hr, parseUsizeFromBuf, hs, if_neg hb, substr]
        rw [if_neg (by simp), if_neg (by simp only [List.length_cons]; omega)]
  · exact .inr (.inl ⟨_, by simp [parseBulkString, hx]; rfl⟩)

theorem parseBulkString_le {b value : Bytes} {n : ℕ}
    (h : parseBulkString b = .ok (some (value, n))) : n ≤ b.length := by
  rcases parseBulkString_cases b with h' | ⟨m, h'⟩ | ⟨_, _, _, _, _, _, _, hle, h'⟩
  · rw [h] at h'; cases h'
  · rw [h] at h'; cases h'
  · rw [h] at h'; cases h'; exact hle

/-- The offset of the element loop never leaves the buffer, so `substr` never throws in it. -/
theorem offset_le {buffer value : Bytes} {offset n : ℕ} (ho : offset ≤ buffer.length)
    (h : parseBulkString (buffer.drop offset) = .ok (some (value, n))) :
    sizeT (offset + n) ≤ buffer.length := by
  have hn := parseBulkString_le h
  rw [List.length_drop] at hn
  exact (Nat.mod_le _ _).trans (by omega)

theorem parseElements_succ {buffer : Bytes} {count offset : ℕ} {elements : List Bytes}
    (ho : offset ≤ buffer.length) :
    parseElements buffer (count + 1) offset elements =
      match parseBulkString (buffer.drop offset) with
      | .error e => .error e
      | .ok none => .ok none
      | .ok (some (value, consumed)) =>
        parseElements buffer count (sizeT (offset + consumed)) (elements ++ [value]) := by
  simp only [parseElements, substrFrom, if_neg (not_lt.mpr ho)]

theorem parseElements_error {buffer : Bytes} {count offset : ℕ} {elements : List Bytes} {e : Exn}
    (ho : offset ≤ buffer.length) (h : parseElements buffer count offset elements = .error e) :
    ∃ m, e = .respError m := by
  induction count generalizing offset elements with
  | zero => cases h
  | succ count ih =>
    rw [parseElements_succ ho] at h
    rcases parseBulkString_cases (buffer.drop offset) with hp | ⟨m, hp⟩ | ⟨_, _, _, _, _, _, _, _, hp⟩
    · rw [hp] at h; cases h
    · rw [hp] at h; cases h; exact ⟨m, rfl⟩
    · rw [hp] at h; exact ih (offset_le ho hp) h

/-- The element count that a complete command header declares. -/
def commandCount : Bytes → Option ℕ
  | 42 :: rest => (readTillCrlf rest).bind fun header => stoull header.1
  | _ => none

theorem parseCommand_of_count (grants : ℕ → Bool) {b : Bytes} {count : ℕ}
    (h : commandCount b = some count) :
    ∃ offset, offset ≤ b.length ∧ 0 < offset ∧
      (∃ data, readTillCrlf b.tail = some (data, offset - 1)) ∧
      parseCommand grants b = match reserve grants count with
        | .error e => .error e
        | .ok () => parseElements b count offset [] := by
  unfold commandCount at h
  split at h
  · rename_i rest
    obtain ⟨⟨data, len⟩, hr, hs⟩ := Option.bind_eq_some_iff.mp h
    have hlen := (readTillCrlf_le hr).2
    refine ⟨len + 1, by simp only [List.length_cons]; omega, by omega, ⟨data, by simpa using hr⟩, ?_⟩
    simp only [parseCommand, hr, parseUsizeFromBuf, hs]
    simp
  · cases h

/-- Without a complete header nothing but a `RespError` is thrown, and nothing is returned. -/
theorem parseCommand_of_no_count (grants : ℕ → Bool) {b : Bytes} (h : commandCount b = none) :
    parseCommand grants b = .ok none ∨ ∃ m, parseCommand grants b = .error (.respError m) := by
  rcases b with _ | ⟨x, rest⟩
  · exact .inl rfl
  by_cases hx : x = 42
  · subst hx
    rcases hr : readTillCrlf rest with _ | ⟨data, len⟩
    · exact .inl (by simp [parseCommand, hr])
    · have hs : stoull data = none := by simpa [commandCount, hr] using h
      exact .inr ⟨_, by simp [parseCommand, hr, parseUsizeFromBuf, hs]; rfl⟩
  · exact .inr ⟨_, by simp [parseCommand, hx]; rfl⟩

/-- A buffer makes the parser throw something other than `RespError` exactly when its header
declares more elements than a vector can hold, or than the allocator serves. -/
theorem parseCommand_only_respError_iff (grants : ℕ → Bool) (buffer : Bytes) :
    (∀ e, parseCommand grants buffer = .error e → ∃ m, e = .respError m) ↔
      ∀ count, commandCount buffer = some count → count ≤ maxSize ∧ grants count = true := by
  constructor
  · intro h count hc
    obtain ⟨offset, _, _, _, hp⟩ := parseCommand_of_count grants hc
    by_cases hmax : maxSize < count
    · have := h .lengthError (by rw [hp]; simp only [reserve, if_pos hmax])
      obtain ⟨m, hm⟩ := this
      cases hm
    · refine ⟨not_lt.mp hmax, ?_⟩
      by_contra hg
      have := h .badAlloc (by rw [hp]; simp only [reserve, if_neg hmax, if_neg hg])
      obtain ⟨m, hm⟩ := this
      cases hm
  · intro h e he
    rcases hc : commandCount buffer with _ | count
    · rcases parseCommand_of_no_count grants hc with hp | ⟨m, hp⟩
      · rw [hp] at he; cases he
      · rw [hp] at he; cases he; exact ⟨m, rfl⟩
    · obtain ⟨hmax, hg⟩ := h count hc
      obtain ⟨offset, ho, _, _, hp⟩ := parseCommand_of_count grants hc
      rw [hp] at he
      simp only [reserve, if_neg (not_lt.mpr hmax), if_pos hg] at he
      exact parseElements_error ho he

/-- The header `*-1` wraps around to `2 ^ 64 - 1` elements and `reserve` throws. -/
theorem parseCommand_negative_count :
    ¬ ∀ (grants : ℕ → Bool) (buffer : Bytes) (e : Exn),
      parseCommand grants buffer = .error e → ∃ m, e = .respError m := by
  intro h
  obtain ⟨m, hm⟩ := h unlimited [42, 45, 49, 13, 10] .lengthError (by decide)
  cases hm

end TrueStore
