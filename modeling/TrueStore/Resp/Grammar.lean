import TrueStore.Resp.Basic

/-! # The grammar of replies

Simple strings and errors are lines, without CR (13) and LF (10) in their text. Bulk strings and
arrays carry their length. A client that reads a reply by this grammar knows where it ends.
-/

namespace TrueStore

open RespType

def OneLine (text : Bytes) : Prop := ∀ b ∈ text, b ≠ 13 ∧ b ≠ 10

instance (text : Bytes) : Decidable (OneLine text) :=
  List.decidableBAll (fun b => b ≠ 13 ∧ b ≠ 10) text

/-- The bytes of one complete reply. -/
inductive IsReply : Bytes → Prop where
  | simple {text : Bytes} : OneLine text → IsReply (43 :: text ++ crlf)
  | error {text : Bytes} : OneLine text → IsReply (45 :: text ++ crlf)
  | integer (value : ℤ) : IsReply (58 :: decimalInt value ++ crlf)
  | bulk (value : Bytes) : IsReply (bulkBytes value)
  | nullBulk : IsReply nullBulkString.toBytes
  | nullArray : IsReply nullArray.toBytes
  | array (parts : List Bytes) : (∀ part ∈ parts, IsReply part) →
      IsReply (arrayHeader parts.length ++ parts.flatten)

def decodeLine : Bytes → Option (Bytes × Bytes)
  | [] => none
  | 13 :: 10 :: rest => some ([], rest)
  | b :: rest =>
    if b = 13 ∨ b = 10 then none
    else (decodeLine rest).map fun p => (b :: p.1, p.2)

def decodeNat (line : Bytes) : Option ℕ :=
  if line ≠ [] ∧ line.all isDigit then some (digitsValue line) else none

def decodeInt : Bytes → Option ℤ
  | 45 :: digits => (decodeNat digits).map fun n => -(n : ℤ)
  | digits => (decodeNat digits).map fun n => (n : ℤ)

def decodeMany (next : Bytes → Option (RespType × Bytes)) :
    ℕ → Bytes → Option (List RespType × Bytes)
  | 0, bytes => some ([], bytes)
  | n + 1, bytes =>
    match next bytes with
    | none => none
    | some (value, rest) => (decodeMany next n rest).map fun p => (value :: p.1, p.2)

def decodeBody (next : Bytes → Option (RespType × Bytes)) (kind : UInt8) (line rest : Bytes) :
    Option (RespType × Bytes) :=
  if kind = 43 then some (simpleString line, rest)
  else if kind = 45 then some (simpleError line, rest)
  else if kind = 58 then (decodeInt line).map fun n => (integer n, rest)
  else if kind = 36 then
    if line = ascii "-1" then some (nullBulkString, rest)
    else match decodeNat line with
      | none => none
      | some n =>
        if (rest.drop n).take 2 = crlf then some (bulkString (rest.take n), rest.drop (n + 2))
        else none
  else if kind = 42 then
    if line = ascii "-1" then some (nullArray, rest)
    else match decodeNat line with
      | none => none
      | some n => (decodeMany next n rest).map fun p => (nestedArray p.1, p.2)
  else none

/-- The first value of a reply and the bytes after it; arrays may be nested `depth` deep. -/
def decodeReply : ℕ → Bytes → Option (RespType × Bytes)
  | 0, _ => none
  | _ + 1, [] => none
  | depth + 1, kind :: bytes =>
    match decodeLine bytes with
    | none => none
    | some (line, rest) => decodeBody (decodeReply depth) kind line rest

/-- A reply is nested less deep than it is long. -/
def decode (bytes : Bytes) : Option (RespType × Bytes) := decodeReply bytes.length bytes

theorem decodeLine_append {text : Bytes} (h : OneLine text) (rest : Bytes) :
    decodeLine (text ++ (crlf ++ rest)) = some (text, rest) := by
  induction text with
  | nil => rfl
  | cons b text ih =>
    obtain ⟨h₁, h₂⟩ := h b List.mem_cons_self
    rw [List.cons_append, decodeLine, if_neg (by simp [h₁, h₂]),
      ih fun b hb => h b (List.mem_cons_of_mem _ hb)]
    · rfl
    · rintro _ rfl
      exact absurd rfl h₁

theorem oneLine_of_decodeLine {bytes line rest : Bytes} (h : decodeLine bytes = some (line, rest)) :
    OneLine line ∧ bytes = line ++ (crlf ++ rest) := by
  induction bytes using decodeLine.induct generalizing line with
  | case1 => cases h
  | case2 rest' =>
    cases h
    exact ⟨by simp [OneLine], rfl⟩
  | case3 b bytes _ hb =>
    rw [decodeLine, if_pos hb] at h
    · cases h
    · assumption
  | case4 b bytes hne hb ih =>
    rw [decodeLine, if_neg hb] at h
    · obtain ⟨p, hp, he⟩ := Option.map_eq_some_iff.mp h
      cases he
      obtain ⟨hline, rfl⟩ := ih hp
      refine ⟨?_, rfl⟩
      intro c hc
      rcases List.mem_cons.mp hc with rfl | hc
      · exact not_or.mp hb
      · exact hline c hc
    · exact hne

theorem oneLine_digits {line : Bytes} (h : line.all isDigit = true) : OneLine line := by
  intro b hb
  have hd : isDigit b = true := List.all_eq_true.mp h b hb
  constructor <;> rintro rfl <;> exact absurd hd (by decide)

theorem decodeNat_decimal (n : ℕ) : decodeNat (decimal n) = some n := by
  rw [decodeNat, if_pos ⟨decimal_ne_nil n, decimal_all_isDigit n⟩, digitsValue_decimal]

theorem decimal_ne_minus (n : ℕ) (digits : Bytes) : decimal n ≠ 45 :: digits := by
  intro h
  have hd := decimal_all_isDigit n
  rw [h] at hd
  exact absurd hd (by simp [isDigit])

theorem decodeInt_decimalInt (z : ℤ) : decodeInt (decimalInt z) = some z := by
  cases z with
  | ofNat n =>
    rw [decimalInt, decodeInt, decodeNat_decimal]
    · rfl
    · exact fun digits h => decimal_ne_minus n digits h
  | negSucc n =>
    rw [decimalInt, decodeInt, decodeNat_decimal]
    rfl

theorem oneLine_decimal (n : ℕ) : OneLine (decimal n) := oneLine_digits (decimal_all_isDigit n)

theorem oneLine_decimalInt (z : ℤ) : OneLine (decimalInt z) := by
  cases z with
  | ofNat n => exact oneLine_decimal n
  | negSucc n =>
    intro b hb
    rcases List.mem_cons.mp hb with rfl | hb
    · decide
    · exact oneLine_decimal _ b hb

/-- The bytes stand for the value, wherever they occur. -/
def Decodes (bytes : Bytes) (value : RespType) : Prop :=
  ∀ depth rest, bytes.length ≤ depth → decodeReply depth (bytes ++ rest) = some (value, rest)

theorem Decodes.decode_append {bytes : Bytes} {value : RespType} (h : Decodes bytes value)
    (rest : Bytes) : decode (bytes ++ rest) = some (value, rest) := h _ rest (by simp)

theorem Decodes.decode {bytes : Bytes} {value : RespType} (h : Decodes bytes value) :
    decode bytes = some (value, []) := by simpa using h.decode_append []

theorem decodes_of_line {kind : UInt8} {line bytes : Bytes} {value : RespType}
    (hline : OneLine line)
    (hbody : ∀ depth rest, bytes.length ≤ depth →
      decodeBody (decodeReply depth) kind line (bytes ++ rest) = some (value, rest)) :
    Decodes (kind :: line ++ crlf ++ bytes) value := by
  intro depth rest hdepth
  obtain ⟨depth, rfl⟩ : ∃ d, depth = d + 1 := ⟨depth - 1, by simp at hdepth; omega⟩
  have happend : kind :: line ++ crlf ++ bytes ++ rest =
      kind :: (line ++ (crlf ++ (bytes ++ rest))) := by simp
  rw [happend, decodeReply, decodeLine_append hline]
  exact hbody depth rest (by simp at hdepth; omega)

theorem decodes_nil {kind : UInt8} {line : Bytes} {value : RespType} (hline : OneLine line)
    (hbody : ∀ depth rest, decodeBody (decodeReply depth) kind line rest = some (value, rest)) :
    Decodes (kind :: line ++ crlf) value := by
  have h : Decodes (kind :: line ++ crlf ++ []) value :=
    decodes_of_line hline fun depth rest _ => hbody depth rest
  simpa using h

theorem decodeMany_flatten {next : Bytes → Option (RespType × Bytes)} {parts : List Bytes}
    {values : List RespType}
    (h : List.Forall₂ (fun part value => ∀ rest, next (part ++ rest) = some (value, rest))
      parts values) (rest : Bytes) :
    decodeMany next parts.length (parts.flatten ++ rest) = some (values, rest) := by
  induction h with
  | nil => rfl
  | cons hpart _ ih => simp [decodeMany, hpart, ih]

theorem decodes_array {parts : List Bytes} {values : List RespType}
    (h : List.Forall₂ Decodes parts values) :
    Decodes (arrayHeader parts.length ++ parts.flatten) (nestedArray values) := by
  refine decodes_of_line (oneLine_decimal _) fun depth rest hdepth => ?_
  have hne : decimal parts.length ≠ ascii "-1" := decimal_ne_minus _ _
  have hmany : List.Forall₂
      (fun part value => ∀ rest, decodeReply depth (part ++ rest) = some (value, rest))
      parts values := by
    refine List.forall₂_iff_get.mpr ⟨h.length_eq, fun i h₁ h₂ rest => ?_⟩
    refine (List.forall₂_iff_get.mp h).2 i h₁ h₂ depth rest (le_trans ?_ hdepth)
    exact (List.sublist_flatten_of_mem (List.get_mem _ _)).length_le
  simp [decodeBody, hne, decodeNat_decimal, decodeMany_flatten hmany]

theorem decodes_bulk (value : Bytes) : Decodes (bulkBytes value) (bulkString value) := by
  have hne : decimal value.length ≠ ascii "-1" := decimal_ne_minus _ _
  have h : Decodes (36 :: decimal value.length ++ crlf ++ (value ++ crlf)) (bulkString value) := by
    refine decodes_of_line (oneLine_decimal _) fun depth rest _ => ?_
    have hafter : (value ++ (crlf ++ rest)).drop (value.length + 2) = rest := by
      rw [← List.append_assoc]
      exact List.drop_left' (by simp [crlf])
    have hend : (crlf ++ rest).take 2 = crlf := List.take_left' rfl
    simp [decodeBody, hne, decodeNat_decimal, hafter, hend]
  simpa [bulkBytes] using h

theorem exists_forall₂ {α β : Type} {R : α → β → Prop} {l : List α} (h : ∀ a ∈ l, ∃ b, R a b) :
    ∃ l', List.Forall₂ R l l' := by
  induction l with
  | nil => exact ⟨[], .nil⟩
  | cons a l ih =>
    obtain ⟨b, hb⟩ := h a List.mem_cons_self
    obtain ⟨l', hl⟩ := ih fun a ha => h a (List.mem_cons_of_mem _ ha)
    exact ⟨b :: l', .cons hb hl⟩

/-- Every complete reply is read as one value, whatever follows it. -/
theorem IsReply.decodes {bytes : Bytes} (h : IsReply bytes) : ∃ value, Decodes bytes value := by
  induction h with
  | simple htext => exact ⟨_, decodes_nil htext fun _ _ => rfl⟩
  | error htext => exact ⟨_, decodes_nil htext fun _ _ => rfl⟩
  | integer value =>
    refine ⟨RespType.integer value, decodes_nil (oneLine_decimalInt value) fun _ _ => ?_⟩
    simp [decodeBody, decodeInt_decimalInt]
  | bulk value => exact ⟨_, decodes_bulk value⟩
  | nullBulk =>
    have hline : OneLine (ascii "-1") := by decide
    have h : Decodes (36 :: ascii "-1" ++ crlf) nullBulkString := decodes_nil hline fun _ _ => rfl
    exact ⟨_, h⟩
  | nullArray =>
    have hline : OneLine (ascii "-1") := by decide
    have h : Decodes (42 :: ascii "-1" ++ crlf) RespType.nullArray :=
      decodes_nil hline fun _ _ => rfl
    exact ⟨_, h⟩
  | array parts _ ih =>
    obtain ⟨values, hvalues⟩ := exists_forall₂ ih
    exact ⟨_, decodes_array hvalues⟩

theorem IsReply.append_eq_nil {bytes rest : Bytes} {value : RespType} (h : IsReply bytes)
    (hd : decode (bytes ++ rest) = some (value, [])) : rest = [] := by
  obtain ⟨value', h'⟩ := h.decodes
  rw [h'.decode_append] at hd
  cases hd
  rfl

/-- An error that is read to its end has no line break in its text. -/
theorem oneLine_of_decode_errorReply {text : Bytes} {value : RespType}
    (h : decode (errorReply text) = some (value, [])) : OneLine text := by
  have hbytes : errorReply text = 45 :: (text ++ crlf) := by simp [errorReply, toBytes]
  rw [hbytes, decode, List.length_cons, decodeReply] at h
  split at h
  · cases h
  · rename_i line rest hline
    obtain ⟨hone, he⟩ := oneLine_of_decodeLine hline
    cases h
    obtain rfl : text = line := by simpa using he
    exact hone

theorem isReply_errorReply {text : Bytes} (h : OneLine text) : IsReply (errorReply text) := by
  rw [errorReply, toBytes]
  exact .error h

theorem OneLine.append {s t : Bytes} (hs : OneLine s) (ht : OneLine t) : OneLine (s ++ t) := by
  intro b hb
  rcases List.mem_append.mp hb with hb | hb
  · exact hs b hb
  · exact ht b hb

theorem oneLine_append_iff {s t : Bytes} : OneLine (s ++ t) ↔ OneLine s ∧ OneLine t :=
  ⟨fun h => ⟨fun b hb => h b (List.mem_append_left _ hb), fun b hb => h b (List.mem_append_right _ hb)⟩,
    fun h => h.1.append h.2⟩

theorem isReply_arityError {command : String} (h : OneLine (ascii command)) :
    IsReply (arityError command) :=
  isReply_errorReply (((by decide : OneLine _).append h).append (by decide))

@[simp] theorem isReply_wrongType : IsReply wrongType := isReply_errorReply (by decide)

theorem isReply_simpleString {text : Bytes} (h : OneLine text) :
    IsReply (simpleString text).toBytes := by
  rw [toBytes]
  exact .simple h

@[simp] theorem isReply_ok : IsReply ok := isReply_simpleString (by decide)

@[simp] theorem isReply_bulkString (value : Bytes) : IsReply (bulkString value).toBytes := by
  rw [toBytes]
  exact .bulk value

@[simp] theorem isReply_integer (value : ℤ) : IsReply (integer value).toBytes := by
  rw [toBytes]
  exact .integer value

@[simp] theorem isReply_nullBulkString : IsReply nullBulkString.toBytes := .nullBulk

@[simp] theorem isReply_nullArray : IsReply nullArray.toBytes := .nullArray

@[simp] theorem isReply_array (elements : List Bytes) : IsReply (array elements).toBytes := by
  have h : (array elements).toBytes =
      arrayHeader (elements.map bulkBytes).length ++ (elements.map bulkBytes).flatten := by
    simp [toBytes, List.flatMap]
  rw [h]
  refine .array _ fun part hpart => ?_
  obtain ⟨value, -, rfl⟩ := List.mem_map.mp hpart
  exact .bulk value

theorem nestedBytes_eq_flatten (nested : List RespType) :
    nestedBytes nested = (nested.map toBytes).flatten := by
  induction nested with
  | nil => rfl
  | cons element nested ih => simp [nestedBytes, ih]

theorem isReply_nestedArray {nested : List RespType}
    (h : ∀ element ∈ nested, IsReply element.toBytes) : IsReply (nestedArray nested).toBytes := by
  rw [toBytes, nestedBytes_eq_flatten, ← List.length_map toBytes]
  refine .array _ fun part hpart => ?_
  obtain ⟨element, helement, rfl⟩ := List.mem_map.mp hpart
  exact h element helement

end TrueStore
