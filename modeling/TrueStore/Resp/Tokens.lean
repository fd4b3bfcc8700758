import TrueStore.Resp.RoundTrip

/-! # Reading replies

A reply made of arrays and bulk strings is a sequence of array headers and bulk strings. A client
that splits it into these gets back what the server encoded.
-/

namespace TrueStore

open RespType

inductive Token where
  | header (count : ℕ)
  | bulk (value : Bytes)
  deriving DecidableEq, Repr

namespace Token

def bytes : Token → Bytes
  | header count => arrayHeader count
  | bulk value => bulkBytes value

/-- The number on a line, which the null values do not have. -/
def number (line : Bytes) : Option ℕ := if line.all isDigit then some (digitsValue line) else none

def read : Bytes → Option (Token × Bytes)
  | 42 :: rest =>
    match readTillCrlf rest with
    | none => none
    | some (line, length) => (number line).map fun n => (header n, rest.drop length)
  | 36 :: rest =>
    match readTillCrlf rest with
    | none => none
    | some (line, length) =>
      (number line).map fun n =>
        (bulk ((rest.drop length).take n), (rest.drop length).drop (n + 2))
  | _ => none

def readAll : ℕ → Bytes → List Token
  | 0, _ => []
  | fuel + 1, bytes =>
    match read bytes with
    | none => []
    | some (token, rest) => token :: readAll fuel rest

theorem read_bytes (t : Token) (rest : Bytes) : read (t.bytes ++ rest) = some (t, rest) := by
  have hnumber : ∀ n, number (decimal n) = some n := by
    intro n
    rw [number, if_pos (decimal_all_isDigit n), digitsValue_decimal]
  have hdrop : ∀ (n : ℕ) (s : Bytes),
      (decimal n ++ (crlf ++ s)).drop ((decimal n).length + 2) = s := by
    intro n s
    rw [← List.append_assoc]
    exact List.drop_left' (by simp [crlf])
  cases t with
  | header count =>
    have hbytes : (header count).bytes ++ rest = 42 :: (decimal count ++ (crlf ++ rest)) := by
      simp [bytes, arrayHeader]
    rw [hbytes, read, readTillCrlf_decimal]
    simp only [hnumber, hdrop, Option.map_some]
  | bulk value =>
    have hbytes : (bulk value).bytes ++ rest =
        36 :: (decimal value.length ++ (crlf ++ (value ++ (crlf ++ rest)))) := by
      simp [bytes, bulkBytes]
    have hafter : (value ++ (crlf ++ rest)).drop (value.length + 2) = rest := by
      rw [← List.append_assoc]
      exact List.drop_left' (by simp [crlf])
    rw [hbytes, read, readTillCrlf_decimal]
    simp only [hnumber, hdrop, Option.map_some, List.take_left, hafter]

theorem bytes_ne_nil (t : Token) : t.bytes ≠ [] := by
  cases t <;> simp [bytes, arrayHeader, bulkBytes]

/-- Reading gives back the tokens that were written. -/
theorem readAll_flatMap (tokens : List Token) {fuel : ℕ} (h : tokens.length ≤ fuel) :
    readAll fuel (tokens.flatMap bytes) = tokens := by
  induction tokens generalizing fuel with
  | nil => cases fuel <;> rfl
  | cons t tokens ih =>
    obtain ⟨n, rfl⟩ : ∃ n, fuel = n + 1 := ⟨fuel - 1, by simp at h; omega⟩
    rw [List.flatMap_cons, readAll, read_bytes]
    dsimp only
    rw [ih (by simpa using h)]

theorem length_le_flatMap (tokens : List Token) :
    tokens.length ≤ (tokens.flatMap bytes).length := by
  induction tokens with
  | nil => simp
  | cons t tokens ih =>
    have := List.length_pos_iff.mpr t.bytes_ne_nil
    simp only [List.length_cons, List.flatMap_cons, List.length_append]
    omega

def ofReply (reply : Bytes) : List Token := readAll reply.length reply

theorem ofReply_flatMap (tokens : List Token) : ofReply (tokens.flatMap bytes) = tokens :=
  readAll_flatMap tokens (length_le_flatMap tokens)

end Token

end TrueStore
