import TrueStore.Rdb.Reader

/-! # Encodings of RDB files

The supported subset of the format, stated apart from the loader: the forms of lengths and
strings, the records and the entries that a sequence of records describes. The loader reads
back every encoding and refuses an encoding that was cut inside a record.
-/

namespace TrueStore.Rdb

open Framing Framing.Reader

def littleEndianBytes : ℕ → ℕ → Bytes
  | 0, _ => []
  | width + 1, n => UInt8.ofNat (n % 256) :: littleEndianBytes width (n / 256)

def bigEndianBytes (width n : ℕ) : Bytes := (littleEndianBytes width n).reverse

inductive EncodesLength : ℕ → Bytes → Prop where
  | bits6 {n} : n < 2 ^ 6 → EncodesLength n [UInt8.ofNat n]
  | bits14 {n} : n < 2 ^ 14 → EncodesLength n [UInt8.ofNat (0x40 + n / 256), UInt8.ofNat (n % 256)]
  | bits32 {n} : n < 2 ^ 32 → EncodesLength n (0x80 :: bigEndianBytes 4 n)
  | bits64 {n} : n < 2 ^ 64 → EncodesLength n (0x81 :: bigEndianBytes 8 n)

/-- The bytes of a signed integer in two's complement, least significant first. -/
def signedBytes (width : ℕ) (z : ℤ) : Bytes := littleEndianBytes width (z % 256 ^ width).toNat

/-- A string is written behind its length, or as an integer of one, two or four bytes. -/
inductive EncodesString : Bytes → Bytes → Prop where
  | plain {s l : Bytes} : EncodesLength s.length l → EncodesString s (l ++ s)
  | int8 {z : ℤ} : -2 ^ 7 ≤ z → z < 2 ^ 7 → EncodesString (decimalInt z) (0xC0 :: signedBytes 1 z)
  | int16 {z : ℤ} : -2 ^ 15 ≤ z → z < 2 ^ 15 →
      EncodesString (decimalInt z) (0xC1 :: signedBytes 2 z)
  | int32 {z : ℤ} : -2 ^ 31 ≤ z → z < 2 ^ 31 →
      EncodesString (decimalInt z) (0xC2 :: signedBytes 4 z)

inductive Record where
  | aux (name value : Bytes)
  | selectDb (index : ℕ)
  | resizeDb (size expires : ℕ)
  | expireMs (ms : ℕ)
  | expireSeconds (seconds : ℕ)
  | entry (key value : Bytes)
  deriving DecidableEq, Repr

inductive EncodesRecord : Record → Bytes → Prop where
  | aux {name value l l' : Bytes} : EncodesString name l → EncodesString value l' →
      EncodesRecord (.aux name value) (0xFA :: (l ++ l'))
  | selectDb {index : ℕ} {l : Bytes} : EncodesLength index l →
      EncodesRecord (.selectDb index) (0xFE :: l)
  | resizeDb {size expires : ℕ} {l l' : Bytes} : EncodesLength size l → EncodesLength expires l' →
      EncodesRecord (.resizeDb size expires) (0xFB :: (l ++ l'))
  | expireMs {ms : ℕ} : ms < 2 ^ 64 → EncodesRecord (.expireMs ms) (0xFC :: littleEndianBytes 8 ms)
  | expireSeconds {seconds : ℕ} : seconds < 2 ^ 32 →
      EncodesRecord (.expireSeconds seconds) (0xFD :: littleEndianBytes 4 seconds)
  | entry {key value l l' : Bytes} : EncodesString key l → EncodesString value l' →
      EncodesRecord (.entry key value) (0x00 :: (l ++ l'))

def Record.IsMeta : Record → Prop
  | .aux .. | .selectDb _ | .resizeDb .. => True
  | _ => False

/-- The entries that a sequence of records describes. An expiry belongs to the entry that follows
it; records that describe no entry may stand anywhere. -/
inductive Describes : List Record → List Entry → Prop where
  | nil : Describes [] []
  | skip {r rs es} : r.IsMeta → Describes rs es → Describes (r :: rs) es
  | plain {key value rs es} : Describes rs es →
      Describes (.entry key value :: rs) (⟨key, value, none⟩ :: es)
  | expiringMs {ms others key value rs es} : (∀ r ∈ others, r.IsMeta) → Describes rs es →
      Describes (.expireMs ms :: (others ++ .entry key value :: rs))
        (⟨key, value, some ms⟩ :: es)
  | expiringSeconds {seconds others key value rs es} : (∀ r ∈ others, r.IsMeta) →
      Describes rs es →
      Describes (.expireSeconds seconds :: (others ++ .entry key value :: rs))
        (⟨key, value, some (seconds * 1000)⟩ :: es)

abbrev EncodesRecords : List Record → List Bytes → Prop := List.Forall₂ EncodesRecord

/-- A header, then records, the end of the file and anything after it. -/
structure File where
  header : Bytes
  records : List Record
  parts : List Bytes
  trailer : Bytes
  length_header : header.length = 9
  magic : header.take 5 = ascii "REDIS"
  encodes : EncodesRecords records parts

def File.body (f : File) : Bytes := f.header ++ f.parts.flatten

def File.bytes (f : File) : Bytes := f.body ++ 0xFF :: f.trailer

theorem length_littleEndianBytes (width n : ℕ) : (littleEndianBytes width n).length = width := by
  induction width generalizing n with
  | zero => rfl
  | succ width ih => rw [littleEndianBytes, List.length_cons, ih]

theorem or_shiftLeft {value b i : ℕ} (h : value < 256 ^ i) :
    value ||| b <<< (8 * i) = value + b * 256 ^ i := by
  have hpow : 256 ^ i = 2 ^ (8 * i) := by rw [pow_mul]; norm_num
  rw [hpow] at h ⊢
  rw [Nat.or_comm, ← Nat.shiftLeft_add_eq_or_of_lt h, Nat.shiftLeft_eq, Nat.add_comm]

theorem shiftLeft_or (value : ℕ) (b : UInt8) : value <<< 8 ||| b.toNat = value * 256 + b.toNat := by
  rw [← Nat.shiftLeft_add_eq_or_of_lt b.toNat_lt, Nat.shiftLeft_eq]

theorem reads_littleEndianFrom (width n value i : ℕ) (hv : value < 256 ^ i)
    (hn : n < 256 ^ width) :
    Reads .unexpectedEnd (littleEndianFrom value i width) (value + n * 256 ^ i)
      (littleEndianBytes width n) := by
  induction width generalizing n value i with
  | zero =>
    obtain rfl : n = 0 := by simpa using hn
    simpa [littleEndianFrom, littleEndianBytes] using Reads.pure Error.unexpectedEnd value
  | succ width ih =>
    have hb : (UInt8.ofNat (n % 256)).toNat = n % 256 :=
      UInt8.toNat_ofNat_of_lt' (Nat.mod_lt _ (by decide))
    have hmod : n % 256 < 256 := Nat.mod_lt _ (by decide)
    have hnext : value + n % 256 * 256 ^ i < 256 ^ (i + 1) := by
      rw [pow_succ']
      nlinarith
    have hdiv : n / 256 < 256 ^ width :=
      Nat.div_lt_of_lt_mul (by rw [← pow_succ']; exact hn)
    have hsum : value + n % 256 * 256 ^ i + n / 256 * 256 ^ (i + 1) = value + n * 256 ^ i := by
      nth_rewrite 3 [← Nat.mod_add_div n 256]
      ring
    have h := (reads_next Error.unexpectedEnd (UInt8.ofNat (n % 256))).bind
      (f := fun b => littleEndianFrom (value ||| b.toNat <<< (8 * i)) (i + 1) width)
      (by
        rw [hb, or_shiftLeft hv]
        exact ih _ _ _ hnext hdiv)
    rw [hsum] at h
    exact h

theorem reads_littleEndian (width : ℕ) {n : ℕ} (h : n < 256 ^ width) :
    Reads .unexpectedEnd (littleEndian width) n (littleEndianBytes width n) := by
  simpa [littleEndian] using reads_littleEndianFrom width n 0 0 (by simp) h

theorem reads_bigEndianFrom (l : Bytes) (value : ℕ) :
    Reads .unexpectedEnd (bigEndianFrom value l.length)
      (l.foldl (fun v b => v * 256 + b.toNat) value) l := by
  induction l generalizing value with
  | nil => exact Reads.pure _ value
  | cons b l ih =>
    refine (reads_next Error.unexpectedEnd b).bind
      (f := fun b => bigEndianFrom (value <<< 8 ||| b.toNat) l.length) ?_
    rw [shiftLeft_or]
    exact ih _

theorem value_bigEndianBytes {width n : ℕ} (h : n < 256 ^ width) :
    BigEndian.value (bigEndianBytes width n) = n := by
  induction width generalizing n with
  | zero =>
    obtain rfl : n = 0 := by simpa using h
    rfl
  | succ width ih =>
    have hb : (UInt8.ofNat (n % 256)).toNat = n % 256 :=
      UInt8.toNat_ofNat_of_lt' (Nat.mod_lt _ (by decide))
    have hdiv : n / 256 < 256 ^ width :=
      Nat.div_lt_of_lt_mul (by rw [← pow_succ']; exact h)
    have hih := ih hdiv
    unfold bigEndianBytes at hih
    rw [bigEndianBytes, littleEndianBytes, List.reverse_cons, BigEndian.value_append, hih]
    simp only [BigEndian.value, List.foldl_cons, List.foldl_nil, hb, List.length_singleton, pow_one]
    omega

theorem reads_bigEndian {width n : ℕ} (h : n < 256 ^ width) :
    Reads .unexpectedEnd (bigEndian width) n (bigEndianBytes width n) := by
  have hlen : (bigEndianBytes width n).length = width := by
    simp [bigEndianBytes, length_littleEndianBytes]
  have hread := reads_bigEndianFrom (bigEndianBytes width n) 0
  have hvalue := value_bigEndianBytes h
  rw [BigEndian.value] at hvalue
  rw [hlen, hvalue] at hread
  exact hread

theorem shift_bits6 {n : ℕ} (h : n < 2 ^ 6) :
    UInt8.ofNat n >>> 6 = 0 ∧ (UInt8.ofNat n &&& 0x3F).toNat = n := by
  have hall : ∀ n : Fin 64, UInt8.ofNat n >>> 6 = 0 ∧ (UInt8.ofNat n &&& 0x3F).toNat = n := by
    decide
  exact hall ⟨n, h⟩

theorem shift_bits14 {n : ℕ} (h : n < 2 ^ 6) :
    UInt8.ofNat (0x40 + n) >>> 6 = 1 ∧ (UInt8.ofNat (0x40 + n) &&& 0x3F).toNat = n := by
  have hall : ∀ n : Fin 64, UInt8.ofNat (0x40 + n) >>> 6 = 1 ∧
      (UInt8.ofNat (0x40 + n) &&& 0x3F).toNat = n := by decide
  exact hall ⟨n, h⟩

theorem reads_length {n : ℕ} {l : Bytes} (h : EncodesLength n l) :
    Reads .unexpectedEnd length n l := by
  unfold length
  cases h with
  | bits6 h =>
    obtain ⟨hshift, hvalue⟩ := shift_bits6 h
    refine Reads.cons ?_
    rw [if_pos hshift, hvalue]
    exact Reads.pure _ n
  | bits14 h =>
    obtain ⟨hshift, hvalue⟩ := shift_bits14 (n := n / 256) (by omega)
    have hlow : (UInt8.ofNat (n % 256)).toNat = n % 256 :=
      UInt8.toNat_ofNat_of_lt' (Nat.mod_lt _ (by decide))
    refine Reads.cons ?_
    rw [if_neg (by rw [hshift]; decide), if_pos hshift, hvalue]
    have hread := (reads_next Error.unexpectedEnd (UInt8.ofNat (n % 256))).map
      fun b => (n / 256) <<< 8 ||| b.toNat
    rw [shiftLeft_or, hlow, Nat.div_add_mod' n 256] at hread
    exact hread
  | bits32 h =>
    refine Reads.cons ?_
    exact reads_bigEndian (by norm_num; omega)
  | bits64 h =>
    refine Reads.cons ?_
    exact reads_bigEndian (by norm_num; omega)

theorem bmod_emod {z : ℤ} {m : ℕ} (h : -(m : ℤ) ≤ 2 * z) (h' : 2 * z < m) :
    Int.bmod ((z % m).toNat : ℤ) m = z := by
  have hpos : (0 : ℤ) < m := by omega
  rw [Int.toNat_of_nonneg (Int.emod_nonneg _ hpos.ne'), Int.emod_bmod]
  exact Int.bmod_eq_of_le_mul_two (by omega) (by omega)

theorem EncodesLength.head {n : ℕ} {l : Bytes} (h : EncodesLength n l) :
    ∃ first rest, l = first :: rest ∧ first >>> 6 ≠ 3 := by
  cases h with
  | bits6 h => exact ⟨_, _, rfl, by rw [(shift_bits6 h).1]; decide⟩
  | bits14 h => exact ⟨_, _, rfl, by rw [(shift_bits14 (n := n / 256) (by omega)).1]; decide⟩
  | bits32 h => exact ⟨_, _, rfl, by decide⟩
  | bits64 h => exact ⟨_, _, rfl, by decide⟩

theorem Reads.of_head {α : Type} {r r' : Reader α} {a : α} {first : UInt8} {l : Bytes}
    (hnil : r [] = .error .unexpectedEnd) (hcons : ∀ rest, r (first :: rest) = r' rest)
    (h : Reads .unexpectedEnd r' a l) : Reads .unexpectedEnd r a (first :: l) where
  whole rest := (hcons _).trans (h.whole rest)
  cut start hstart hne := by
    rcases start with - | ⟨b, start⟩
    · exact hnil
    · obtain ⟨rfl, hp⟩ := List.cons_prefix_cons.mp hstart
      exact (hcons _).trans (h.cut start hp fun he => hne (by rw [he]))

theorem reads_integerText {first : UInt8} {z : ℤ} {l : Bytes}
    (h : Reads .unexpectedEnd (integerText first) (decimalInt z) l) (hfirst : first >>> 6 = 3) :
    Reads .unexpectedEnd string (decimalInt z) (first :: l) :=
  Reads.of_head rfl (fun rest => by simp only [string, if_pos hfirst]) h

theorem reads_string {s l : Bytes} (h : EncodesString s l) : Reads .unexpectedEnd string s l := by
  cases h with
  | @plain _ l h =>
    obtain ⟨first, rest, rfl, hfirst⟩ := h.head
    have hread := (reads_length h).bind (f := bytes) (reads_take Error.unexpectedEnd s)
    constructor
    · intro tail
      rw [← hread.whole tail]
      simp only [List.cons_append, string, if_neg hfirst]
    · intro start hstart hne
      rcases start with - | ⟨b, start⟩
      · rfl
      · rw [← hread.cut _ hstart hne]
        obtain ⟨rfl, -⟩ := List.cons_prefix_cons.mp hstart
        simp only [string, if_neg hfirst]
  | @int8 z h h' =>
    refine reads_integerText ?_ (by decide)
    have hlow : (z % (2 ^ 8 : ℕ)).toNat < 256 := by omega
    have hbyte : (UInt8.ofNat ((z % 256 ^ 1).toNat % 256)).toNat = (z % (2 ^ 8 : ℕ)).toNat := by
      rw [UInt8.toNat_ofNat_of_lt' (Nat.mod_lt _ (by decide))]
      exact Nat.mod_eq_of_lt hlow
    have hread := (reads_next Error.unexpectedEnd (UInt8.ofNat ((z % 256 ^ 1).toNat % 256))).map
      fun b => decimalInt (Int.bmod b.toNat (2 ^ 8))
    rw [hbyte, bmod_emod (by omega) (by omega)] at hread
    exact hread
  | @int16 z h h' =>
    refine reads_integerText ?_ (by decide)
    have hread := (reads_littleEndian 2 (n := (z % 256 ^ 2).toNat) (by omega)).map
      fun n => decimalInt (Int.bmod n (2 ^ 16))
    rw [show (256 ^ 2 : ℤ) = ((2 ^ 16 : ℕ) : ℤ) by norm_num, bmod_emod (by omega) (by omega)] at hread
    exact hread
  | @int32 z h h' =>
    refine reads_integerText ?_ (by decide)
    have hread := (reads_littleEndian 4 (n := (z % 256 ^ 4).toNat) (by omega)).map
      fun n => decimalInt (Int.bmod n (2 ^ 32))
    rw [show (256 ^ 4 : ℤ) = ((2 ^ 32 : ℕ) : ℤ) by norm_num, bmod_emod (by omega) (by omega)] at hread
    exact hread

/-- What a record does to the state of the loop. -/
def Record.apply : Record → State → State
  | .aux .., s | .selectDb _, s | .resizeDb .., s => s
  | .expireMs ms, s => { s with expireAtMs := some ms }
  | .expireSeconds seconds, s => { s with expireAtMs := some (seconds * 1000) }
  | .entry key value, s =>
    { expireAtMs := none, entries := s.entries ++ [⟨key, value, s.expireAtMs⟩] }

theorem Record.IsMeta.apply {r : Record} (h : r.IsMeta) (s : State) : r.apply s = s := by
  cases r <;> first | rfl | exact h.elim

theorem reads_record {r : Record} {part : Bytes} (h : EncodesRecord r part) :
    ∃ opcode l, part = opcode :: l ∧ opcode ≠ 0xFF ∧
      ∀ s, Reads .unexpectedEnd (record opcode s) (r.apply s) l := by
  cases h with
  | aux hname hvalue =>
    refine ⟨_, _, rfl, by decide, fun s => ?_⟩
    exact (reads_string hname).bind ((reads_string hvalue).map fun _ => s)
  | selectDb h =>
    refine ⟨_, _, rfl, by decide, fun s => ?_⟩
    exact (reads_length h).map fun _ => s
  | resizeDb h h' =>
    refine ⟨_, _, rfl, by decide, fun s => ?_⟩
    exact (reads_length h).bind ((reads_length h').map fun _ => s)
  | expireMs h =>
    refine ⟨_, _, rfl, by decide, fun s => ?_⟩
    exact (reads_littleEndian 8 (by norm_num; omega)).map
      fun ms => { s with expireAtMs := some ms }
  | expireSeconds h =>
    refine ⟨_, _, rfl, by decide, fun s => ?_⟩
    exact (reads_littleEndian 4 (by norm_num; omega)).map
      fun seconds => { s with expireAtMs := some (seconds * 1000) }
  | @entry key value _ _ hkey hvalue =>
    refine ⟨_, _, rfl, by decide, fun s => ?_⟩
    exact (reads_string hkey).bind ((reads_string hvalue).map fun value =>
      (⟨none, s.entries ++ [⟨key, value, s.expireAtMs⟩]⟩ : State))

theorem loop_nil (fuel : ℕ) (s : State) : loop fuel s [] = .ok s.entries := by
  cases fuel <;> rfl

theorem loop_records {records : List Record} {parts : List Bytes}
    (h : EncodesRecords records parts) (s : State) (rest : Bytes) {fuel : ℕ}
    (hfuel : (parts.flatten ++ rest).length ≤ fuel) :
    ∃ fuel', rest.length ≤ fuel' ∧ loop fuel s (parts.flatten ++ rest) =
      loop fuel' (records.foldl (fun s r => r.apply s) s) rest := by
  induction h generalizing s fuel with
  | nil => exact ⟨fuel, hfuel, rfl⟩
  | @cons r part records parts hr _ ih =>
    obtain ⟨opcode, l, rfl, hopcode, hread⟩ := reads_record hr
    have hdata : (((opcode :: l) :: parts).flatten ++ rest) =
        opcode :: (l ++ (parts.flatten ++ rest)) := by simp
    rw [hdata] at hfuel ⊢
    obtain ⟨fuel, rfl⟩ : ∃ n, fuel = n + 1 := ⟨fuel - 1, by simp at hfuel; omega⟩
    have hless : (parts.flatten ++ rest).length ≤ fuel := by
      simp only [List.length_cons, List.length_append] at hfuel ⊢
      omega
    obtain ⟨fuel', hfuel', hloop⟩ := ih (r.apply s) hless
    refine ⟨fuel', hfuel', ?_⟩
    simp only [loop, if_neg hopcode, (hread s).whole, hloop, List.foldl_cons]

theorem foldl_apply_others {others : List Record} (h : ∀ r ∈ others, r.IsMeta) (s : State) :
    others.foldl (fun s r => r.apply s) s = s := by
  induction others with
  | nil => rfl
  | cons r others ih =>
    rw [List.foldl_cons, (h r List.mem_cons_self).apply]
    exact ih fun r' hr' => h r' (List.mem_cons_of_mem _ hr')

theorem foldl_apply {records : List Record} {entries : List Entry} (h : Describes records entries)
    (before : List Entry) :
    records.foldl (fun s r => r.apply s) ⟨none, before⟩ = ⟨none, before ++ entries⟩ := by
  induction h generalizing before with
  | nil => simp
  | skip hr _ ih => rw [List.foldl_cons, hr.apply, ih]
  | plain _ ih => rw [List.foldl_cons, Record.apply, ih]; simp
  | expiringMs hothers _ ih =>
    rw [List.foldl_cons, List.foldl_append, foldl_apply_others hothers, List.foldl_cons,
      Record.apply, Record.apply, ih]
    simp
  | expiringSeconds hothers _ ih =>
    rw [List.foldl_cons, List.foldl_append, foldl_apply_others hothers, List.foldl_cons,
      Record.apply, Record.apply, ih]
    simp

theorem File.loadRdb_header (f : File) (rest : Bytes) :
    loadRdb (some (f.header ++ rest)) = loop rest.length {} rest := by
  have hread := (reads_take Error.unexpectedEnd f.header).whole rest
  rw [f.length_header] at hread
  change Rdb.bytes 9 (f.header ++ rest) = _ at hread
  simp only [loadRdb, hread, f.magic, if_true]

/-- The loader returns exactly the entries that a file describes. -/
theorem loadRdb_file (f : File) {entries : List Entry} (h : Describes f.records entries) :
    loadRdb (some f.bytes) = .ok entries := by
  have hdata : f.bytes = f.header ++ (f.parts.flatten ++ 0xFF :: f.trailer) := by
    simp [File.bytes, File.body]
  rw [hdata, f.loadRdb_header]
  obtain ⟨fuel, hfuel, hloop⟩ := loop_records f.encodes {} (0xFF :: f.trailer) le_rfl
  obtain ⟨n, rfl⟩ : ∃ n, fuel = n + 1 := ⟨fuel - 1, by simp at hfuel; omega⟩
  rw [hloop, foldl_apply h]
  simp [loop]

/-- A file with each kind of record: an expiry in milliseconds and one in seconds with a record
between it and its entry, strings as integers of one and of two bytes, lengths in three forms. -/
def mixed : File where
  header := ascii "REDIS0011"
  records := [.aux (ascii "redis-bits") (decimalInt 64), .selectDb 0, .resizeDb 3 2,
    .expireMs 1893456000000, .entry (ascii "key") (ascii "old"),
    .entry (ascii "count") (decimalInt (-300)),
    .expireSeconds 2000000000, .selectDb 1, .entry (ascii "long") (List.replicate 70 0x61)]
  parts := [0xFA :: ((0x0A :: ascii "redis-bits") ++ [0xC0, 64]), [0xFE, 0x00],
    [0xFB, 0x03, 0x02], 0xFC :: littleEndianBytes 8 1893456000000,
    0x00 :: ((0x03 :: ascii "key") ++ (0x03 :: ascii "old")),
    0x00 :: ((0x05 :: ascii "count") ++ [0xC1, 0xD4, 0xFE]),
    [0xFD, 0x00, 0x94, 0x35, 0x77], [0xFE, 0x01],
    0x00 :: ((0x80 :: 0x00 :: 0x00 :: 0x00 :: 0x04 :: ascii "long") ++
      (0x40 :: 0x46 :: List.replicate 70 0x61))]
  trailer := List.replicate 8 0
  length_header := by decide
  magic := by decide
  encodes :=
    .cons (.aux (.plain (.bits6 (by decide))) (.int8 (by decide) (by decide))) <|
    .cons (.selectDb (.bits6 (by decide))) <|
    .cons (.resizeDb (.bits6 (by decide)) (.bits6 (by decide))) <|
    .cons (.expireMs (by decide)) <|
    .cons (.entry (.plain (.bits6 (by decide))) (.plain (.bits6 (by decide)))) <|
    .cons (.entry (.plain (.bits6 (by decide))) (.int16 (by decide) (by decide))) <|
    .cons (.expireSeconds (by decide)) <|
    .cons (.selectDb (.bits6 (by decide))) <|
    .cons (.entry (.plain (.bits32 (by decide))) (.plain (.bits14 (by decide)))) .nil

theorem loadRdb_file_mixed :
    loadRdb (some mixed.bytes) = .ok [⟨ascii "key", ascii "old", some 1893456000000⟩,
      ⟨ascii "count", ascii "-300", none⟩,
      ⟨ascii "long", List.replicate 70 0x61, some 2000000000000⟩] :=
  loadRdb_file mixed <|
    .skip trivial <| .skip trivial <| .skip trivial <|
    @Describes.expiringMs _ [] _ _ _ _ (by simp) <| .plain <|
    @Describes.expiringSeconds _ [.selectDb 1] _ _ _ _ (by simp [Record.IsMeta]) .nil

def sample : File where
  header := ascii "REDIS0011"
  records := [.selectDb 0, .entry (ascii "key") (ascii "old")]
  parts := [[0xFE, 0x00], 0x00 :: (0x03 :: ascii "key") ++ (0x03 :: ascii "old")]
  trailer := List.replicate 8 0
  length_header := by decide
  magic := by decide
  encodes := .cons (.selectDb (.bits6 (by decide)))
    (.cons (.entry (.plain (.bits6 (by decide))) (.plain (.bits6 (by decide)))) .nil)

/-- The cut is between two records, where the loader does not notice it. -/
def File.Between (f : File) (cut : Bytes) : Prop := ∃ k, cut = f.header ++ (f.parts.take k).flatten

/-- A beginning of a sequence of parts consists of whole parts and a beginning of the next one. -/
theorem flatten_cut {parts : List Bytes} {cut : Bytes} (h : cut <+: parts.flatten) :
    ∃ k, cut = (parts.take k).flatten ∨
      ∃ part start, parts[k]? = some part ∧ cut = (parts.take k).flatten ++ start ∧
        start <+: part ∧ start ≠ [] ∧ start ≠ part := by
  induction parts generalizing cut with
  | nil => exact ⟨0, .inl (by simpa using h)⟩
  | cons part parts ih =>
    rw [List.flatten_cons] at h
    rcases List.prefix_or_prefix_of_prefix h (List.prefix_append _ _) with hp | ⟨t, rfl⟩
    · by_cases hnil : cut = []
      · exact ⟨0, .inl (by simp [hnil])⟩
      by_cases hall : cut = part
      · exact ⟨1, .inl (by simp [hall])⟩
      · exact ⟨0, .inr ⟨part, cut, rfl, by simp, hp, hnil, hall⟩⟩
    · obtain ⟨k, hk⟩ := ih ((List.prefix_append_right_inj _).mp h)
      refine ⟨k + 1, ?_⟩
      rcases hk with hk | ⟨next, start, hget, he, hstart⟩
      · exact .inl (by simp [hk])
      · exact .inr ⟨next, start, by simpa using hget, by simp [he], hstart⟩

theorem loop_cut {r : Record} {part start : Bytes} (h : EncodesRecord r part)
    (hstart : start <+: part) (hnil : start ≠ []) (hne : start ≠ part) (s : State) {fuel : ℕ}
    (hfuel : start.length ≤ fuel) : loop fuel s start = .error .unexpectedEnd := by
  obtain ⟨opcode, l, rfl, hopcode, hread⟩ := reads_record h
  obtain ⟨b, start, rfl⟩ := List.exists_cons_of_ne_nil hnil
  obtain ⟨rfl, hp⟩ := List.cons_prefix_cons.mp hstart
  obtain ⟨n, rfl⟩ : ∃ n, fuel = n + 1 := ⟨fuel - 1, by simp at hfuel; omega⟩
  simp only [loop, if_neg hopcode, (hread s).cut start hp fun he => hne (by rw [he])]

theorem EncodesRecords.exists_of_mem {records : List Record} {parts : List Bytes}
    (h : EncodesRecords records parts) {part : Bytes} (hp : part ∈ parts) :
    ∃ r, EncodesRecord r part := by
  induction h with
  | nil => cases hp
  | cons hr _ ih =>
    rcases List.mem_cons.mp hp with rfl | hp
    · exact ⟨_, hr⟩
    · exact ih hp

theorem File.Between.loadRdb {f : File} {cut : Bytes} (h : f.Between cut) :
    ∃ entries, loadRdb (some cut) = .ok entries := by
  obtain ⟨k, rfl⟩ := h
  obtain ⟨fuel, -, hloop⟩ := loop_records (List.forall₂_take k f.encodes) {} [] le_rfl
  rw [List.append_nil] at hloop
  rw [f.loadRdb_header, hloop, loop_nil]
  exact ⟨_, rfl⟩

/-- A file that was cut before its end is refused exactly when the cut is not between two
records. -/
theorem loadRdb_cut (f : File) {cut : Bytes} (h : cut <+: f.body) :
    (∃ e, loadRdb (some cut) = .error e) ↔ ¬f.Between cut := by
  constructor
  · rintro ⟨e, he⟩ hb
    obtain ⟨entries, hok⟩ := hb.loadRdb
    rw [he] at hok
    cases hok
  · intro hb
    rcases List.prefix_or_prefix_of_prefix h (List.prefix_append f.header f.parts.flatten) with
      hp | ⟨rest, rfl⟩
    · have hne : cut ≠ f.header := fun he => hb ⟨0, by simp [he]⟩
      have hcut := (reads_take Error.unexpectedEnd f.header).cut cut hp hne
      rw [f.length_header] at hcut
      change Rdb.bytes 9 cut = _ at hcut
      exact ⟨.unexpectedEnd, by simp only [loadRdb, hcut]⟩
    · obtain ⟨k, hk | ⟨part, start, hget, rfl, hstart, hnil, hne⟩⟩ :=
        flatten_cut ((List.prefix_append_right_inj _).mp h)
      · exact absurd ⟨k, by rw [hk]⟩ hb
      · obtain ⟨r, hr⟩ := f.encodes.exists_of_mem (List.mem_of_getElem? hget)
        obtain ⟨fuel, hfuel, hloop⟩ := loop_records (List.forall₂_take k f.encodes) {} start le_rfl
        rw [f.loadRdb_header, hloop, loop_cut hr hstart hnil hne _ hfuel]
        exact ⟨_, rfl⟩

/-- The file of the test suite up to the middle of its entry. -/
theorem loadRdb_cut_inside :
    sample.body.take 15 <+: sample.body ∧
      ∃ e, loadRdb (some (sample.body.take 15)) = .error e := by
  refine ⟨List.take_prefix _ _, (loadRdb_cut sample (List.take_prefix 15 _)).mpr ?_⟩
  rintro ⟨k, hk⟩
  match k with
  | 0 => exact absurd hk (by decide)
  | 1 => exact absurd hk (by decide)
  | k + 2 =>
    have hall : sample.parts.take (k + 2) = sample.parts :=
      List.take_of_length_le (Nat.le_add_left 2 k)
    rw [hall] at hk
    exact absurd hk (by decide)

/-- The same file cut before its entry, and before the opcode for its end. -/
theorem loadRdb_accepts_truncated :
    sample.body.take 11 <+: sample.body ∧ loadRdb (some (sample.body.take 11)) = .ok [] ∧
      loadRdb (some sample.body) = .ok [⟨ascii "key", ascii "old", none⟩] :=
  ⟨List.take_prefix _ _, by decide, by decide⟩

end TrueStore.Rdb
