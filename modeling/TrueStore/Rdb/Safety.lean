import TrueStore.Framing.Cursor
import TrueStore.Rdb.Reader

/-! # The RDB loader stays in its file

The class `Reader` as it is, with a position in the file and without a check on the bytes that it
reads there. It refines the loader on the bytes that are left, so that no length in the file leads
out of it.
-/

namespace TrueStore.Rdb.Unchecked

open Framing

abbrev Walker (α : Type) := Framing.Walker Error α

def byte : Walker UInt8 := Walker.next .unexpectedEnd

def bytes (count : ℕ) : Walker Bytes := Walker.take .unexpectedEnd count

/-- The loop of `little_endian` from byte `i` on. -/
def littleEndianFrom (value i : ℕ) : ℕ → Walker ℕ
  | 0 => pure value
  | width + 1 => do
    let b ← byte
    littleEndianFrom (value ||| b.toNat <<< (8 * i)) (i + 1) width

def littleEndian (width : ℕ) : Walker ℕ := littleEndianFrom 0 0 width

/-- The loop of `big_endian`. -/
def bigEndianFrom (value : ℕ) : ℕ → Walker ℕ
  | 0 => pure value
  | width + 1 => do
    let b ← byte
    bigEndianFrom (value <<< 8 ||| b.toNat) width

def bigEndian (width : ℕ) : Walker ℕ := bigEndianFrom 0 width

def length : Walker ℕ := do
  let first ← byte
  if first >>> 6 = 0 then pure (first &&& 0x3F).toNat
  else if first >>> 6 = 1 then do
    let b ← byte
    pure ((first &&& 0x3F).toNat <<< 8 ||| b.toNat)
  else if first = 0x80 then bigEndian 4
  else if first = 0x81 then bigEndian 8
  else Walker.fail .invalidLength

def integerText (first : UInt8) : Walker Bytes :=
  if first = 0xC0 then do
    let b ← byte
    pure (decimalInt (Int.bmod b.toNat (2 ^ 8)))
  else if first = 0xC1 then do
    let n ← littleEndian 2
    pure (decimalInt (Int.bmod n (2 ^ 16)))
  else if first = 0xC2 then do
    let n ← littleEndian 4
    pure (decimalInt (Int.bmod n (2 ^ 32)))
  else Walker.fail .unsupportedString

/-- The first byte is looked at before it is read. -/
def string : Walker Bytes := do
  if ← Walker.done then Walker.fail .unexpectedEnd
  else
    let first ← Walker.peek
    if first >>> 6 ≠ 3 then do
      let count ← length
      bytes count
    else do
      Walker.advance 1
      integerText first

def record (opcode : UInt8) (s : State) : Walker State :=
  if opcode = 0xFA then do
    let _ ← string
    let _ ← string
    pure s
  else if opcode = 0xFE then do
    let _ ← length
    pure s
  else if opcode = 0xFB then do
    let _ ← length
    let _ ← length
    pure s
  else if opcode = 0xFC then do
    let ms ← littleEndian 8
    pure { s with expireAtMs := some ms }
  else if opcode = 0xFD then do
    let seconds ← littleEndian 4
    pure { s with expireAtMs := some (seconds * 1000) }
  else if opcode = 0x00 then do
    let key ← string
    let value ← string
    pure { expireAtMs := none, entries := s.entries ++ [⟨key, value, s.expireAtMs⟩] }
  else Walker.fail .unsupportedOpcode

/-- The loop of `load_rdb`, which has not ended when the fuel runs out. -/
def loop : ℕ → State → Walker (List Entry)
  | 0, _ => fun c => (.error .diverged, c)
  | fuel + 1, s => do
    if ← Walker.done then pure s.entries
    else
      let opcode ← byte
      if opcode = 0xFF then pure s.entries
      else do
        let s ← record opcode s
        loop fuel s

/-- `load_rdb` on the bytes of a file. -/
def loadRdb (fuel : ℕ) : Walker (List Entry) := do
  let header ← bytes 9
  if header.take 5 = ascii "REDIS" then loop fuel {} else Walker.fail .missingHeader

open Walker (Refines Inside Moves Yields rest)

theorem refines_byte : Refines byte Rdb.byte := Walker.refines_next _

theorem refines_bytes (count : ℕ) : Refines (bytes count) (Rdb.bytes count) :=
  Walker.refines_take _ count

theorem refines_littleEndianFrom (value i width : ℕ) :
    Refines (littleEndianFrom value i width) (Rdb.littleEndianFrom value i width) := by
  induction width generalizing value i with
  | zero => exact .pure value
  | succ width ih => exact refines_byte.bind fun b => ih _ _

theorem refines_littleEndian (width : ℕ) : Refines (littleEndian width) (Rdb.littleEndian width) :=
  refines_littleEndianFrom 0 0 width

theorem refines_bigEndianFrom (value width : ℕ) :
    Refines (bigEndianFrom value width) (Rdb.bigEndianFrom value width) := by
  induction width generalizing value with
  | zero => exact .pure value
  | succ width ih => exact refines_byte.bind fun b => ih _

theorem refines_length : Refines length Rdb.length := by
  refine refines_byte.bind fun first => ?_
  refine .ite (fun _ => .pure _) fun _ => .ite (fun _ => ?_) fun _ => ?_
  · exact refines_byte.bind fun b => .pure _
  · refine .ite (fun _ => refines_bigEndianFrom 0 4) fun _ => .ite (fun _ => ?_) fun _ => .fail _
    exact refines_bigEndianFrom 0 8

theorem refines_integerText (first : UInt8) :
    Refines (integerText first) (Rdb.integerText first) := by
  refine .ite (fun _ => ?_) fun _ => .ite (fun _ => ?_) fun _ => .ite (fun _ => ?_) fun _ => .fail _
  · exact refines_byte.bind fun b => .pure _
  · exact (refines_littleEndian 2).bind fun n => .pure _
  · exact (refines_littleEndian 4).bind fun n => .pure _

theorem refines_string : Refines string Rdb.string := by
  intro c h
  have hlen := h.length_rest
  unfold string
  rw [Walker.bind_apply]
  by_cases hend : Walker.size c ≤ c.pos
  · have hnil : rest c = [] := List.eq_nil_of_length_eq_zero (by omega)
    refine ⟨c, .refl h, .inr ⟨.unexpectedEnd, by rw [hnil]; rfl, ?_⟩⟩
    simp only [Walker.done, hend, decide_true, if_true]
    rfl
  · have hlt : c.pos < c.buffer.bytes.length := not_le.mp hend
    set first := c.buffer.bytes[c.pos] with hfirst
    have hcons : rest c = first :: c.buffer.bytes.drop (c.pos + 1) :=
      List.drop_eq_getElem_cons hlt
    simp only [Walker.done, hend, decide_false, Bool.false_eq_true, if_false]
    rw [Walker.bind_apply]
    simp only [Walker.peek, List.getElem?_eq_getElem hlt, ← hfirst]
    by_cases hint : first >>> 6 = 3
    · obtain ⟨c₁, hadvance, hmove, hrest⟩ := h.advance (ε := Error) 1 (by omega)
      obtain ⟨c₂, hmove', hread⟩ := refines_integerText first c₁ hmove.inside
      refine ⟨c₂, hmove.trans hmove', ?_⟩
      have hq : Rdb.string (rest c) = Rdb.integerText first (rest c₁) := by
        rw [hrest, hcons]
        simp only [Rdb.string, if_pos hint, List.drop_succ_cons, List.drop_zero]
      rw [if_neg (not_not.mpr hint), Walker.bind_apply, hadvance, hq]
      exact hread
    · have hq : Rdb.string (rest c) = (Rdb.length >>= Rdb.bytes) (rest c) := by
        rw [hcons]
        simp only [Rdb.string, if_neg hint]
      rw [if_pos hint, hq]
      exact refines_length.bind refines_bytes c h

theorem refines_record (opcode : UInt8) (s : State) :
    Refines (record opcode s) (Rdb.record opcode s) := by
  refine .ite (fun _ => ?_) fun _ => .ite (fun _ => ?_) fun _ => .ite (fun _ => ?_) fun _ =>
    .ite (fun _ => ?_) fun _ => .ite (fun _ => ?_) fun _ => .ite (fun _ => ?_) fun _ => .fail _
  · exact refines_string.bind fun _ => refines_string.bind fun _ => .pure s
  · exact refines_length.bind fun _ => .pure s
  · exact refines_length.bind fun _ => refines_length.bind fun _ => .pure s
  · exact (refines_littleEndian 8).bind fun ms => .pure _
  · exact (refines_littleEndian 4).bind fun seconds => .pure _
  · exact refines_string.bind fun key => refines_string.bind fun value => .pure _

theorem loop_yields {fuel fuel' : ℕ} {s : State} {c : Cursor} (h : Inside c)
    (hf : (rest c).length < fuel) (hf' : (rest c).length ≤ fuel') :
    Yields (loop fuel s) c (Rdb.loop fuel' s (rest c)) := by
  induction fuel generalizing fuel' s c with
  | zero => cases hf
  | succ fuel ih =>
    have hlen := h.length_rest
    rcases hrest : rest c with _ | ⟨opcode, tail⟩
    · rw [hrest, List.length_nil] at hlen
      have hend : Walker.size c ≤ c.pos := by omega
      refine ⟨c, .refl h, ?_⟩
      rw [loop, Walker.bind_apply]
      simp only [Walker.done, hend, decide_true, if_true]
      cases fuel' <;> rfl
    · rw [hrest, List.length_cons] at hlen hf hf'
      have hend : ¬Walker.size c ≤ c.pos := by omega
      obtain ⟨fuel', rfl⟩ := Nat.exists_eq_succ_of_ne_zero (by omega : fuel' ≠ 0)
      have hturn : Yields (byte >>= fun opcode => if opcode = 0xFF then pure s.entries
          else record opcode s >>= loop fuel) c (Rdb.loop (fuel' + 1) s (opcode :: tail)) := by
        refine refines_byte.yields h (fun e he => ?_) fun b c₁ hmove hbyte => ?_
        · rw [hrest] at he
          cases he
        · rw [hrest] at hbyte
          obtain ⟨rfl, rfl⟩ : opcode = b ∧ tail = rest c₁ := by
            injection hbyte with hbyte
            injection hbyte with hb ht
            exact ⟨hb, ht⟩
          rw [Rdb.loop]
          by_cases hstop : opcode = 0xFF
          · rw [if_pos hstop, if_pos hstop]
            exact ⟨c₁, .refl hmove.inside, rfl⟩
          · rw [if_neg hstop, if_neg hstop]
            refine (refines_record opcode s).yields hmove.inside (fun e he => by rw [he]) ?_
            intro s' c₂ hmove' hrecord
            have hle := hmove'.length_rest_le hmove.inside
            rw [hrecord]
            exact ih hmove'.inside (by omega) (by omega)
      obtain ⟨c', hmove, hread⟩ := hturn
      refine ⟨c', hmove, ?_⟩
      rw [loop, Walker.bind_apply]
      simp only [Walker.done, hend, decide_false, Bool.false_eq_true, if_false]
      exact hread

theorem loadRdb_yields {fuel : ℕ} {c : Cursor} (h : Inside c) (hf : (rest c).length < fuel) :
    Yields (loadRdb fuel) c (Rdb.loadRdb (some (rest c))) := by
  rw [loadRdb, Rdb.loadRdb]
  refine (refines_bytes 9).yields h (fun e he => by rw [he]) fun header c₁ hmove hbytes => ?_
  rw [hbytes]
  dsimp only
  by_cases hheader : header.take 5 = ascii "REDIS"
  · rw [if_pos hheader, if_pos hheader]
    exact loop_yields hmove.inside ((hmove.length_rest_le h).trans_lt hf) le_rfl
  · rw [if_neg hheader, if_neg hheader]
    exact ⟨c₁, .refl hmove.inside, rfl⟩

/-- Whatever the bytes of a file are, the loader ends with the entries or an error of its own, and
its position is never past the end of the file. -/
theorem loadRdb_stays_inside (file : Buffer) (more : ℕ) :
    let r := loadRdb (file.bytes.length + 1 + more) { buffer := file }
    r.1 = (Rdb.loadRdb (some file.bytes)).mapError Fault.error ∧
      ((∃ entries, r.1 = .ok entries) ∨ ∃ e, r.1 = .error (.error e)) ∧
      r.2.pos ≤ file.bytes.length ∧ ∀ p ∈ r.2.visited, p ≤ file.bytes.length := by
  have hstart : Inside { buffer := file } := ⟨Nat.zero_le _, fun p hp => by cases hp⟩
  have hfuel : (rest { buffer := file }).length < file.bytes.length + 1 + more := by
    simp only [rest, List.drop_zero]
    omega
  obtain ⟨c', hmove, hload⟩ := loadRdb_yields hstart hfuel
  have hpos := hmove.inside.pos
  have hvisited := hmove.inside.visited
  rw [hmove.size_eq] at hpos hvisited
  simp only [hload]
  refine ⟨rfl, ?_, hpos, hvisited⟩
  cases Rdb.loadRdb (some (rest { buffer := file })) with
  | error e => exact .inr ⟨e, rfl⟩
  | ok entries => exact .inl ⟨entries, rfl⟩

end TrueStore.Rdb.Unchecked
