import TrueStore.Resp.Fragmentation

/-! # Encoded requests are read back

The concatenation of encoded requests is decoded into exactly these requests, in order,
for every fragmentation. At any moment the receive loop has yielded precisely the
requests whose last byte has arrived; a proper prefix of an encoding only asks for more.
-/

namespace TrueStore

open Framing RespType

/-- The arguments of a request are a `std::vector<std::string>` and its encoding is a
`std::string`, so neither exceeds the `max_size` of its container. -/
structure Request where
  args : List Bytes
  args_le : args.length ≤ maxSize
  bytes_lt : (encode args).length < 2 ^ 63

namespace Request

def of (args : List Bytes) (h : args.length ≤ maxSize ∧ (encode args).length < 2 ^ 63) : Request :=
  ⟨args, h.1, h.2⟩

def bytes (r : Request) : Bytes := encode r.args

end Request

theorem findCrlf_of_not_mem {d : Bytes} (h : 13 ∉ d) (s : Bytes) :
    findCrlf (d ++ (crlf ++ s)) = some d.length := by
  induction d with
  | nil => rfl
  | cons x d ih =>
    have hx : x ≠ 13 := fun he => h (he ▸ List.mem_cons_self)
    simp only [List.cons_append, findCrlf, hx, false_and, if_false, List.length_cons]
    rw [ih fun hm => h (List.mem_cons_of_mem _ hm)]
    rfl

theorem readTillCrlf_decimal (n : ℕ) (s : Bytes) :
    readTillCrlf (decimal n ++ (crlf ++ s)) = some (decimal n, (decimal n).length + 2) := by
  simp only [readTillCrlf, findCrlf_of_not_mem (not_mem_decimal (by decide)), Option.map_some]
  simp

theorem bulkBytes_injective : Function.Injective bulkBytes := by
  intro v w h
  have h' : decimal v.length ++ (crlf ++ (v ++ crlf)) = decimal w.length ++ (crlf ++ (w ++ crlf)) := by
    simpa [bulkBytes] using h
  have hlen := congrArg findCrlf h'
  rw [findCrlf_of_not_mem (not_mem_decimal (by decide)),
    findCrlf_of_not_mem (not_mem_decimal (by decide)), Option.some_inj] at hlen
  have hrest := (List.append_inj h' hlen).2
  exact List.append_cancel_right (List.append_cancel_left hrest)

theorem scanBulk_bulkBytes {v : Bytes} (h : v.length < 2 ^ 64) (s : Bytes) :
    scanBulk (bulkBytes v ++ s) = some ((decimal v.length).length + 3, v.length) := by
  have he : bulkBytes v ++ s = 36 :: (decimal v.length ++ (crlf ++ (v ++ (crlf ++ s)))) := by
    simp [bulkBytes]
  rw [he]
  simp [scanBulk, readTillCrlf_decimal, stoull_decimal h]

theorem bulkSpan_bulkBytes {v : Bytes} (h : (bulkBytes v).length < 2 ^ 64) :
    bulkSpan ((decimal v.length).length + 3, v.length) = (bulkBytes v).length := by
  rw [length_bulkBytes] at h ⊢
  rw [bulkSpan_of_not_overflows (by simp only [Overflows]; omega)]
  omega

theorem length_bulkBytes_le {v : Bytes} {args : List Bytes} (h : v ∈ args) :
    (bulkBytes v).length ≤ (args.flatMap bulkBytes).length := by
  induction args with
  | nil => cases h
  | cons w args ih =>
    simp only [List.flatMap_cons, List.length_append]
    rcases List.mem_cons.mp h with rfl | h
    · omega
    · have := ih h; omega

theorem scanElements_bulkBytes (args : List Bytes) (s : Bytes)
    (h : (args.flatMap bulkBytes).length < 2 ^ 64) :
    ∃ hs, scanElements args.length (args.flatMap bulkBytes ++ s) = some hs ∧
      (hs.map bulkSpan).sum = (args.flatMap bulkBytes).length ∧
      payloads hs (args.flatMap bulkBytes ++ s) = args := by
  induction args with
  | nil => exact ⟨[], rfl, rfl, rfl⟩
  | cons v args ih =>
    simp only [List.flatMap_cons, List.length_append] at h
    obtain ⟨hs, hscan, hsum, hpay⟩ := ih (by omega)
    have hlen := length_bulkBytes v
    have hspan := bulkSpan_bulkBytes (v := v) (by omega)
    have hdrop : (bulkBytes v ++ (args.flatMap bulkBytes ++ s)).drop (bulkBytes v).length =
        args.flatMap bulkBytes ++ s := List.drop_left
    have htake : ((bulkBytes v ++ (args.flatMap bulkBytes ++ s)).drop
        ((decimal v.length).length + 3)).take v.length = v := by
      have he : bulkBytes v ++ (args.flatMap bulkBytes ++ s) =
          (36 :: decimal v.length ++ crlf) ++ (v ++ (crlf ++ (args.flatMap bulkBytes ++ s))) := by
        simp [bulkBytes]
      have hl : (decimal v.length).length + 3 = (36 :: decimal v.length ++ crlf).length := by
        simp [crlf]
      rw [he, hl, List.drop_left, List.take_left]
    refine ⟨((decimal v.length).length + 3, v.length) :: hs, ?_, ?_, ?_⟩
    · rw [List.flatMap_cons, List.append_assoc, List.length_cons]
      refine scanElements_succ_iff.mpr ⟨_, hs, scanBulk_bulkBytes (by omega) _, ?_, ?_, rfl⟩
      · rw [hspan]; simp
      · rw [hspan, hdrop]; exact hscan
    · rw [List.map_cons, List.sum_cons, hspan, hsum, List.flatMap_cons, List.length_append]
    · rw [List.flatMap_cons, List.append_assoc]
      simp only [payloads]
      rw [hspan, hdrop, hpay, htake]

theorem scanHeader_encode {args : List Bytes} (h : args.length ≤ maxSize) (s : Bytes) :
    scanHeader unlimited (encode args ++ s) =
      some ((arrayHeader args.length).length, args.length) := by
  have hlt : args.length < 2 ^ 64 := lt_of_le_of_lt h (by decide)
  have he : encode args ++ s =
      42 :: (decimal args.length ++ (crlf ++ (args.flatMap bulkBytes ++ s))) := by
    simp [encode_eq, arrayHeader]
  rw [he, length_arrayHeader]
  simp [scanHeader, readTillCrlf_decimal, stoull_decimal hlt, h, unlimited]

theorem parseCommand_encode (r : Request) (s : Bytes) :
    parseCommand unlimited (r.bytes ++ s) = .ok (some (r.args, r.bytes.length)) := by
  have hbytes := r.bytes_lt
  rw [encode_eq, List.length_append] at hbytes
  obtain ⟨hs, hscan, hsum, hpay⟩ := scanElements_bulkBytes r.args s (by omega)
  have hdrop : (r.bytes ++ s).drop (arrayHeader r.args.length).length =
      r.args.flatMap bulkBytes ++ s := by
    rw [Request.bytes, encode_eq, List.append_assoc, List.drop_left]
  have hp := parseCommand_of_scan (b := r.bytes ++ s) (scanHeader_encode r.args_le s)
    (by rw [hdrop]; exact hscan) (by simp only; omega)
  rw [hp, hdrop, hpay, hsum]
  simp [Request.bytes, encode_eq]

theorem parseCommand_of_incomplete (r : Request) {q : Bytes} (hq : q <+: r.bytes)
    (hne : q ≠ r.bytes) : parseCommand unlimited q = .ok none := by
  obtain ⟨t, ht⟩ := hq
  have hlt : q.length < r.bytes.length := by
    have : t ≠ [] := fun he => hne (by rw [← ht, he, List.append_nil])
    have := List.length_pos_of_ne_nil this
    rw [← ht, List.length_append]
    omega
  have hbytes := r.bytes_lt
  have hlen : q.length < 2 ^ 64 := by
    have : r.bytes.length < 2 ^ 63 := hbytes
    omega
  have hfull := parseCommand_encode r []
  rw [List.append_nil] at hfull
  rcases hp : parseCommand unlimited q with e | _ | ⟨args, n⟩
  · have := parseCommand_error_append hp t
    rw [ht, hfull] at this
    cases this
  · rfl
  · -- the declared lengths, and with them the consumed bytes, do not depend on the rest
    obtain ⟨hs, hscan⟩ := scanCommand_of_parseCommand hlen hp
    have hscan' := scanCommand_append hscan t
    rw [ht] at hscan'
    obtain ⟨hs', hscan''⟩ := scanCommand_of_parseCommand
      (by have : r.bytes.length < 2 ^ 63 := hbytes; omega) hfull
    rw [hscan'] at hscan''
    cases hscan''
    have := (scanCommand_le hscan).2
    omega

def wire (rs : List Request) : Bytes := rs.flatMap Request.bytes

@[simp] theorem wire_nil : wire [] = [] := rfl

@[simp] theorem wire_cons (r : Request) (rs : List Request) : wire (r :: rs) = r.bytes ++ wire rs :=
  rfl

theorem wire_append (rs rs' : List Request) : wire (rs ++ rs') = wire rs ++ wire rs' := by
  simp [wire]

/-- Bytes that complete no request, or the first bytes of the next one. -/
def Partial (rest : Bytes) : Prop :=
  rest = [] ∨ ∃ r : Request, rest <+: r.bytes ∧ rest ≠ r.bytes

theorem Partial.more {rest : Bytes} (h : Partial rest) : parseCommand unlimited rest = .ok none := by
  rcases h with rfl | ⟨r, hr, hne⟩
  · rfl
  · exact parseCommand_of_incomplete r hr hne

theorem Partial.shorter {rest q : Bytes} (h : Partial rest) (hq : q <+: rest) : Partial q := by
  rcases h with rfl | ⟨r, hr, hne⟩
  · exact .inl (List.prefix_nil.mp hq)
  · refine .inr ⟨r, hq.trans hr, fun he => hne ?_⟩
    exact hr.eq_of_length_le (he ▸ hq.length_le)

theorem steady_wire (rs : List Request) {rest : Bytes} (h : Partial rest) :
    Steady (parseCommand unlimited) (wire rs ++ rest) := by
  induction rs with
  | nil =>
    rw [wire_nil, List.nil_append]
    refine .stop ⟨fun q item n hq hp => ?_, fun q e hq hp => ?_⟩ fun p hp => ?_
    · rw [(h.shorter hq).more] at hp; cases hp
    · rw [(h.shorter hq).more] at hp; cases hp
    · rw [h.more] at hp; cases hp
  | cons r rs ih =>
    rw [wire_cons, List.append_assoc]
    have hpos : 0 < r.bytes.length := List.length_pos_of_ne_nil (encode_ne_nil _)
    -- a prefix either contains the first request or is a proper prefix of it
    have hcases : ∀ q, q <+: r.bytes ++ (wire rs ++ rest) →
        (∃ t, q = r.bytes ++ t) ∨ parseCommand unlimited q = .ok none := by
      intro q hq
      rcases List.prefix_or_prefix_of_prefix hq (List.prefix_append _ _) with hq' | ⟨t, rfl⟩
      · by_cases he : q = r.bytes
        · exact .inl ⟨[], by simp [he]⟩
        · exact .inr (parseCommand_of_incomplete r hq' he)
      · exact .inl ⟨t, rfl⟩
    refine .item ⟨fun q item n hq hp => ?_, fun q e hq hp => ?_⟩ (parseCommand_encode r _) ?_
    · rcases hcases q hq with ⟨t, rfl⟩ | hm
      · rw [parseCommand_encode] at hp
        cases hp
        exact ⟨hpos, by simp, parseCommand_encode r _⟩
      · rw [hm] at hp; cases hp
    · rcases hcases q hq with ⟨t, rfl⟩ | hm
      · rw [parseCommand_encode] at hp; cases hp
      · rw [hm] at hp; cases hp
    · rw [List.drop_left]
      exact ih

theorem consume_wire_append {σ : Type*} (handle : Handler (List Bytes) Exn σ) (rs : List Request)
    (rest : Bytes) (st : σ) {fuel : ℕ} (hf : (wire rs ++ rest).length ≤ fuel) :
    ∃ fuel', rest.length ≤ fuel' ∧
      consume (parseCommand unlimited) handle fuel st (wire rs ++ rest) =
        match handleAll handle (rs.map fun r => (r.args, r.bytes.length)) st with
        | (st', some e) => (st', .error e)
        | (st', none) => consume (parseCommand unlimited) handle fuel' st' rest := by
  induction rs generalizing st fuel with
  | nil =>
    rw [wire_nil, List.nil_append] at hf ⊢
    exact ⟨fuel, hf, rfl⟩
  | cons r rs ih =>
    rw [wire_cons, List.append_assoc] at hf ⊢
    have hpos : 0 < r.bytes.length := List.length_pos_of_ne_nil (encode_ne_nil _)
    obtain ⟨fuel, rfl⟩ := Nat.exists_eq_succ_of_ne_zero
      (by simp only [List.length_append] at hf; omega : fuel ≠ 0)
    rw [consume_item (parseCommand_encode r _), List.drop_left]
    simp only [List.map_cons, handleAll]
    rcases handle r.args r.bytes.length st with ⟨st', _ | e⟩
    · exact ih st' (by simp only [List.length_append] at hf ⊢; omega)
    · exact ⟨rest.length, le_rfl, rfl⟩

/-- A session on such a stream handles the requests in order, and keeps the partial request
unless a request stops it. -/
theorem consume_wire {σ : Type*} (handle : Handler (List Bytes) Exn σ) (rs : List Request)
    {rest : Bytes} (h : Partial rest) (st : σ) {fuel : ℕ} (hf : (wire rs ++ rest).length ≤ fuel) :
    consume (parseCommand unlimited) handle fuel st (wire rs ++ rest) =
      match handleAll handle (rs.map fun r => (r.args, r.bytes.length)) st with
      | (st', some e) => (st', .error e)
      | (st', none) => (st', .ok rest) := by
  obtain ⟨fuel', -, he⟩ := consume_wire_append handle rs rest st hf
  rw [he]
  simp only [consume_of_more h.more fuel']

/-- Bytes that begin no request stop the session after the requests before them. -/
theorem consume_wire_error {σ : Type*} (handle : Handler (List Bytes) Exn σ) {rs : List Request}
    {rest : Bytes} {e : Exn} (h : parseCommand unlimited rest = .error e) (hne : rest ≠ [])
    {st st' : σ}
    (hall : handleAll handle (rs.map fun r => (r.args, r.bytes.length)) st = (st', none))
    {fuel : ℕ} (hf : (wire rs ++ rest).length ≤ fuel) :
    consume (parseCommand unlimited) handle fuel st (wire rs ++ rest) = (st', .error e) := by
  obtain ⟨fuel', hfuel, he⟩ := consume_wire_append handle rs rest st hf
  have hpos := List.length_pos_of_ne_nil hne
  obtain ⟨fuel', rfl⟩ := Nat.exists_eq_succ_of_ne_zero (by omega : fuel' ≠ 0)
  rw [he, hall]
  simp only [consume, h]

theorem feedAll_wire {σ : Type*} (handle : Handler (List Bytes) Exn σ) (rs : List Request)
    {rest : Bytes} (h : Partial rest) (st : σ) {chunks : List Bytes}
    (hc : chunks.flatten = wire rs ++ rest) :
    feedAll (parseCommand unlimited) handle st [] chunks =
      match handleAll handle (rs.map fun r => (r.args, r.bytes.length)) st with
      | (st', some e) => (st', .error e)
      | (st', none) => (st', .ok rest) := by
  rw [Steady.feedAll_eq rfl (by simpa [hc] using steady_wire rs h) rfl, List.nil_append, hc,
    consume_wire handle rs h st le_rfl]

theorem handleAll_collect (rs : List Request) (init : List (List Bytes)) :
    handleAll (fun args _ acc => (acc ++ [args], (none : Option Exn)))
      (rs.map fun r => (r.args, r.bytes.length)) init = (init ++ rs.map Request.args, none) := by
  induction rs generalizing init with
  | nil => simp [handleAll]
  | cons r rs ih => simp [handleAll, ih]

theorem receive_wire (rs : List Request) {rest : Bytes} (h : Partial rest) {chunks : List Bytes}
    (hc : chunks.flatten = wire rs ++ rest) :
    receive unlimited chunks = (rs.map Request.args, .ok rest) := by
  unfold receive
  rw [feedAll_wire _ rs h [] hc, handleAll_collect, List.nil_append]

theorem wire_cut (rs : List Request) {p : Bytes} (hp : p <+: wire rs) :
    ∃ j rest, p = wire (rs.take j) ++ rest ∧
      (rest = [] ∨ ∃ r, rs[j]? = some r ∧ rest <+: r.bytes ∧ rest ≠ r.bytes) := by
  induction rs generalizing p with
  | nil => exact ⟨0, [], by simpa using List.prefix_nil.mp hp, .inl rfl⟩
  | cons r rs ih =>
    rw [wire_cons] at hp
    rcases List.prefix_or_prefix_of_prefix hp (List.prefix_append _ _) with hp' | ⟨t, rfl⟩
    · by_cases he : p = r.bytes
      · exact ⟨1, [], by simp [he], .inl rfl⟩
      · exact ⟨0, p, by simp, .inr ⟨r, rfl, hp', he⟩⟩
    · obtain ⟨j, rest, rfl, hrest⟩ := ih ((List.prefix_append_right_inj _).mp hp)
      exact ⟨j + 1, rest, by simp, by simpa using hrest⟩

/-- Decoding undoes encoding under pipelining and fragmentation: after all chunks the loop has
yielded exactly the encoded requests and its buffer is empty, and after the first `k` chunks it
has yielded exactly the requests that are complete by then. -/
theorem receive_undoes_encode (rs : List Request) (chunks : List Bytes)
    (hc : chunks.flatten = wire rs) :
    receive unlimited chunks = (rs.map Request.args, .ok []) ∧
      ∀ k, ∃ j rest, receive unlimited (chunks.take k) = ((rs.map Request.args).take j, .ok rest) ∧
        (chunks.take k).flatten = wire (rs.take j) ++ rest ∧
        (rest = [] ∨ ∃ r, rs[j]? = some r ∧ rest <+: r.bytes ∧ rest ≠ r.bytes) := by
  refine ⟨receive_wire rs (.inl rfl) (by simpa using hc), fun k => ?_⟩
  have hpre : (chunks.take k).flatten <+: wire rs :=
    ⟨(chunks.drop k).flatten, by rw [← List.flatten_append, List.take_append_drop, hc]⟩
  obtain ⟨j, rest, hp, hrest⟩ := wire_cut rs hpre
  have hpart : Partial rest := hrest.imp id fun ⟨r, _, h⟩ => ⟨r, h⟩
  refine ⟨j, rest, ?_, hp, hrest⟩
  rw [receive_wire (rs.take j) hpart hp, List.map_take]

/-- A request whose payload imitates the protocol, cut in the middle. -/
theorem receive_undoes_encode_echo :
    receive unlimited [(encode [ascii "ECHO", ascii "\r\n*1$0", []]).take 9,
        (encode [ascii "ECHO", ascii "\r\n*1$0", []]).drop 9] =
      ([[ascii "ECHO", ascii "\r\n*1$0", []]], .ok []) :=
  (receive_undoes_encode [⟨[ascii "ECHO", ascii "\r\n*1$0", []], by decide, by decide⟩]
    [(encode [ascii "ECHO", ascii "\r\n*1$0", []]).take 9,
      (encode [ascii "ECHO", ascii "\r\n*1$0", []]).drop 9] (by decide)).1

end TrueStore
