import TrueStore.Invariants.Sweep
import TrueStore.Text.Bits

/-! # `BITOP` on bit arrays

Sources are bit arrays that are zero past their ends, and `BITOP` combines them position by
position. The loop over the sources reads the clock once for each of them, so a source counts with
the value that it has at its own reading.
-/

namespace TrueStore

open Bits

namespace BitOperation

def onBits : BitOperation → List Bool → Bool
  | .and, bits => bits.all id
  | .or, bits => bits.any id
  | .xor, bits => bits.foldr Bool.xor false
  | .not, bits => !bits.headD false

theorem testBit_fold_and (inputs : List UInt8) (byte : UInt8) (j : ℕ) :
    (inputs.foldl (· &&& ·) byte).toNat.testBit j =
      (byte.toNat.testBit j && inputs.all (·.toNat.testBit j)) := by
  induction inputs generalizing byte with
  | nil => simp
  | cons input inputs ih =>
    rw [List.foldl_cons, ih, UInt8.toNat_and, Nat.testBit_and, List.all_cons, Bool.and_assoc]

theorem testBit_fold_or (inputs : List UInt8) (byte : UInt8) (j : ℕ) :
    (inputs.foldl (· ||| ·) byte).toNat.testBit j =
      (byte.toNat.testBit j || inputs.any (·.toNat.testBit j)) := by
  induction inputs generalizing byte with
  | nil => simp
  | cons input inputs ih =>
    rw [List.foldl_cons, ih, UInt8.toNat_or, Nat.testBit_or, List.any_cons, Bool.or_assoc]

theorem testBit_fold_xor (inputs : List UInt8) (byte : UInt8) (j : ℕ) :
    (inputs.foldl (· ^^^ ·) byte).toNat.testBit j =
      Bool.xor (byte.toNat.testBit j) ((inputs.map (·.toNat.testBit j)).foldr Bool.xor false) := by
  induction inputs generalizing byte with
  | nil => simp
  | cons input inputs ih =>
    rw [List.foldl_cons, ih, UInt8.toNat_xor, Nat.testBit_xor, List.map_cons, List.foldr_cons,
      Bool.xor_assoc]

theorem testBit_all_ones {j : ℕ} (hj : j < 8) : (0xff : UInt8).toNat.testBit j = true := by
  have h : ∀ j : Fin 8, (0xff : UInt8).toNat.testBit j = true := by decide
  exact h ⟨j, hj⟩

theorem testBit_combine {operation : BitOperation} {inputs : List UInt8}
    (hnot : operation = .not → inputs.length = 1) {j : ℕ} (hj : j < 8) :
    (operation.combine inputs).toNat.testBit j =
      operation.onBits (inputs.map (·.toNat.testBit j)) := by
  cases operation with
  | and =>
    have h := testBit_fold_and inputs 0xff j
    rw [testBit_all_ones hj, Bool.true_and] at h
    simpa [combine, onBits, Function.comp_def] using h
  | or =>
    have h := testBit_fold_or inputs 0 j
    simpa [combine, onBits, Function.comp_def] using h
  | xor =>
    have h := testBit_fold_xor inputs 0 j
    simpa [combine, onBits] using h
  | not =>
    obtain ⟨input, rfl⟩ := List.length_eq_one_iff.mp (hnot rfl)
    simp only [combine, onBits, List.foldl_cons, List.foldl_nil, List.map_cons, List.map_nil,
      List.headD_cons, UInt8.toNat_xor, Nat.testBit_xor, testBit_all_ones hj, Bool.xor_true]

theorem length_apply (operation : BitOperation) (sources : List Bytes) :
    (operation.apply sources).length = (sources.map List.length).foldl max 0 := by
  simp [apply]

theorem foldl_max_mem (lengths : List ℕ) (n : ℕ) :
    lengths.foldl max n = n ∨ lengths.foldl max n ∈ lengths := by
  induction lengths generalizing n with
  | nil => exact .inl rfl
  | cons l lengths ih =>
    rw [List.foldl_cons]
    rcases ih (max n l) with he | hm
    · rcases max_choice n l with hn | hl
      · exact .inl (he.trans hn)
      · rw [he, hl]
        exact .inr List.mem_cons_self
    · exact .inr (List.mem_cons_of_mem _ hm)

theorem le_foldl_max (lengths : List ℕ) (n : ℕ) :
    n ≤ lengths.foldl max n ∧ ∀ l ∈ lengths, l ≤ lengths.foldl max n := by
  induction lengths generalizing n with
  | nil => simp
  | cons l lengths ih =>
    obtain ⟨hn, hl⟩ := ih (max n l)
    rw [List.foldl_cons]
    constructor
    · exact le_trans (le_max_left n l) hn
    · rintro m (_ | ⟨_, hm⟩)
      · exact le_trans (le_max_right n l) hn
      · exact hl m hm

theorem isGreatest_length_apply (operation : BitOperation) {sources : List Bytes}
    (h : sources ≠ []) :
    IsGreatest {n | ∃ source ∈ sources, source.length = n} (operation.apply sources).length := by
  have hle : ∀ source ∈ sources, source.length ≤ (sources.map List.length).foldl max 0 :=
    fun source hsource => (le_foldl_max _ 0).2 _ (List.mem_map_of_mem hsource)
  rw [length_apply]
  constructor
  · rcases foldl_max_mem (sources.map List.length) 0 with he | hm
    · obtain ⟨source, hsource⟩ := List.exists_mem_of_ne_nil sources h
      have hlength := hle source hsource
      exact ⟨source, hsource, by omega⟩
    · obtain ⟨source, hsource, he⟩ := List.mem_map.mp hm
      exact ⟨source, hsource, he⟩
  · rintro n ⟨source, hsource, rfl⟩
    exact hle source hsource

/-- A position of the result has the combined bits of the sources at this position. -/
theorem bit_apply {operation : BitOperation} {sources : List Bytes}
    (hnot : operation = .not → sources.length = 1) {position : ℕ}
    (h : position < 8 * (operation.apply sources).length) :
    bit (operation.apply sources) position = operation.onBits (sources.map (bit · position)) := by
  have hbyte : position / 8 < (sources.map List.length).foldl max 0 := by
    rw [length_apply] at h
    omega
  have hget : (operation.apply sources).getD (position / 8) 0 =
      operation.combine (sources.map fun source => source.getD (position / 8) 0) := by
    simp only [apply, List.getD_eq_getElem?_getD, List.getElem?_map, List.getElem?_range hbyte,
      Option.map_some, Option.getD_some]
  rw [bit, hget, testBit_combine (by simpa using hnot) (by omega), List.map_map]
  rfl

theorem combine_perm {operation : BitOperation} (h : operation ≠ .not) {a b : List UInt8}
    (hperm : a.Perm b) : operation.combine a = operation.combine b := by
  unfold combine
  refine hperm.foldl_eq' (fun x _ y _ z => ?_) _
  cases operation with
  | and => simp only [UInt8.and_assoc, UInt8.and_comm x y]
  | or => simp only [UInt8.or_assoc, UInt8.or_comm x y]
  | xor => simp only [UInt8.xor_assoc, UInt8.xor_comm x y]
  | not => exact absurd rfl h

theorem apply_perm {operation : BitOperation} (h : operation ≠ .not) {a b : List Bytes}
    (hperm : a.Perm b) : operation.apply a = operation.apply b := by
  have hlength : (a.map List.length).foldl max 0 = (b.map List.length).foldl max 0 :=
    (hperm.map _).foldl_eq' (fun x _ y _ z => max_right_comm z x y) 0
  unfold apply
  rw [hlength]
  exact List.map_congr_left fun i _ => combine_perm h (hperm.map _)

end BitOperation

namespace Keyspace

open RespType

variable {F : Type} [Platform F]

def StringOrAbsent (ks : Keyspace F) (key : Bytes) : Prop :=
  ks.dynamicVector[key]? = none ∧ ks.streams[key]? = none ∧ ks.sortedSets[key]? = none

/-- The string at a key, empty for a key that is absent or has expired. -/
def stringAt (ks : Keyspace F) (c : Clock) (key : Bytes) : Bytes :=
  if ks.expired c key then [] else ks.storage.getD key []

/-- The key is one of the sources and has expired when it is read. -/
def Lapsed (ks : Keyspace F) (clock : Readings) (sources : List Bytes) (key : Bytes) : Prop :=
  ∃ i, sources[i]? = some key ∧ ks.expired (clock i) key = true

def Same (ks ks' : Keyspace F) (key : Bytes) : Prop :=
  ks'.storage[key]? = ks.storage[key]? ∧ ks'.expirations[key]? = ks.expirations[key]? ∧
    ks'.dynamicVector[key]? = ks.dynamicVector[key]? ∧ ks'.streams[key]? = ks.streams[key]? ∧
    ks'.sortedSets[key]? = ks.sortedSets[key]?

theorem wrongStringType_of_stringOrAbsent {ks : Keyspace F} {key : Bytes}
    (h : ks.StringOrAbsent key) (c : Clock) : (ks.wrongStringType c key).1 = false := by
  obtain ⟨hlist, hstream, hset⟩ := h
  have htype : ∀ ks' : Keyspace F, ks'.dynamicVector[key]? = none → ks'.streams[key]? = none →
      ks'.sortedSets[key]? = none → ks'.typeOf key = .string ∨ ks'.typeOf key = .none := by
    intro ks' h₁ h₂ h₃
    simp only [typeOf, Std.ExtTreeMap.contains_eq_isSome_getElem?, h₁, h₂, h₃]
    cases ks'.storage[key]? <;> simp
  simp only [wrongStringType, keyType]
  split
  · rfl
  · rcases htype (ks.evict c key) (by simpa using hlist) (by simpa using hstream)
      (by simpa using hset) with he | he <;> simp [he]

section evict

variable (ks : Keyspace F) (c c' : Clock) (key k : Bytes)

theorem evict_storage_getElem? : (ks.evict c key).storage[k]? =
    if ks.expired c key ∧ key = k then none else ks.storage[k]? := by
  rw [evict_eq]
  split <;> by_cases hk : key = k <;> simp_all [Std.ExtTreeMap.getElem?_erase]

theorem evict_expirations_getElem? : (ks.evict c key).expirations[k]? =
    if ks.expired c key ∧ key = k then none else ks.expirations[k]? := by
  rw [evict_eq]
  split <;> by_cases hk : key = k <;> simp_all [Std.ExtTreeMap.getElem?_erase]

theorem expired_evict_at : (ks.evict c key).expired c' k =
    if ks.expired c key ∧ key = k then false else ks.expired c' k := by
  rw [expired, evict_expirations_getElem?]
  split <;> rfl

variable {c c'}

theorem stringAt_evict (h : c.steady ≤ c'.steady) :
    (ks.evict c key).stringAt c' k = ks.stringAt c' k := by
  have hlater : ks.expired c k = true → ks.expired c' k = true := by
    unfold expired
    cases ks.expirations[k]? with
    | none => exact id
    | some deadline =>
      simp only [Option.any_some, decide_eq_true_eq]
      exact fun hd => le_trans hd h
  unfold stringAt
  rw [expired_evict_at, Std.ExtTreeMap.getD_eq_getD_getElem?, Std.ExtTreeMap.getD_eq_getD_getElem?,
    evict_storage_getElem?]
  by_cases hk : ks.expired c key = true ∧ key = k
  · obtain ⟨he, rfl⟩ := hk
    simp [he, hlater he]
  · rw [if_neg hk, if_neg hk]

theorem storage_getD_evict : (ks.evict c key).storage.getD key [] = ks.stringAt c key := by
  unfold stringAt
  rw [Std.ExtTreeMap.getD_eq_getD_getElem?, Std.ExtTreeMap.getD_eq_getD_getElem?,
    evict_storage_getElem?]
  cases ks.expired c key <;> simp

end evict

section sources

theorem bitopSources_cons {clock : Readings} {key : Bytes} {keys : List Bytes} {ks : Keyspace F}
    (h : ks.StringOrAbsent key) :
    bitopSources clock (key :: keys) ks =
      ((bitopSources clock.later keys (ks.evict (clock 0) key)).1.map
          (ks.stringAt (clock 0) key :: ·),
        (bitopSources clock.later keys (ks.evict (clock 0) key)).2) := by
  simp only [bitopSources, wrongStringType_of_stringOrAbsent h, wrongStringType_snd,
    Bool.false_eq_true, if_false, storage_getD_evict]

theorem StringOrAbsent.evict {ks : Keyspace F} {key : Bytes} (h : ks.StringOrAbsent key)
    (c : Clock) (k : Bytes) : (ks.evict c k).StringOrAbsent key := by
  simpa [StringOrAbsent] using h

/-- Each source counts with its string at its own reading. -/
theorem bitopSources_fst {clock : Readings} (hclock : Monotone fun i => (clock i).steady)
    {keys : List Bytes} {ks : Keyspace F} (h : ∀ key ∈ keys, ks.StringOrAbsent key) :
    (bitopSources clock keys ks).1 =
      some (keys.mapIdx fun i key => ks.stringAt (clock i) key) := by
  induction keys generalizing clock ks with
  | nil => rfl
  | cons key keys ih =>
    have hlater : Monotone fun i => (clock.later i).steady := fun i j hij =>
      hclock (Nat.succ_le_succ hij)
    rw [bitopSources_cons (h key List.mem_cons_self),
      ih hlater fun k hk => (h k (List.mem_cons_of_mem _ hk)).evict _ _, Option.map_some,
      List.mapIdx_cons]
    have hrest : (fun i k => (ks.evict (clock 0) key).stringAt (clock.later i) k) =
        fun i k => ks.stringAt (clock (i + 1)) k := by
      funext i k
      exact stringAt_evict ks key k (hclock (Nat.zero_le (i + 1)))
    rw [hrest]

theorem lapsed_cons {clock : Readings} {key k : Bytes} {keys : List Bytes} {ks : Keyspace F} :
    ks.Lapsed clock (key :: keys) k ↔
      (ks.expired (clock 0) key = true ∧ key = k) ∨
        (ks.evict (clock 0) key).Lapsed clock.later keys k := by
  constructor
  · rintro ⟨i, hi, he⟩
    by_cases hfirst : ks.expired (clock 0) key = true ∧ key = k
    · exact .inl hfirst
    · cases i with
      | zero =>
        obtain rfl : key = k := by simpa using hi
        exact .inl ⟨he, rfl⟩
      | succ i =>
        refine .inr ⟨i, by simpa using hi, ?_⟩
        rw [expired_evict_at, if_neg hfirst]
        exact he
  · rintro (⟨he, rfl⟩ | ⟨i, hi, he⟩)
    · exact ⟨0, rfl, he⟩
    · rw [expired_evict_at] at he
      split at he
      · cases he
      · exact ⟨i + 1, by simpa using hi, he⟩

theorem bitopSources_snd (clock : Readings) {keys : List Bytes} (ks : Keyspace F)
    (h : ∀ key ∈ keys, ks.StringOrAbsent key) (k : Bytes) :
    (ks.Lapsed clock keys k → (bitopSources clock keys ks).2.storage[k]? = none ∧
      (bitopSources clock keys ks).2.expirations[k]? = none) ∧
    (¬ks.Lapsed clock keys k → (bitopSources clock keys ks).2.storage[k]? = ks.storage[k]? ∧
      (bitopSources clock keys ks).2.expirations[k]? = ks.expirations[k]?) := by
  induction keys generalizing clock ks with
  | nil =>
    refine ⟨?_, fun _ => ⟨rfl, rfl⟩⟩
    rintro ⟨i, hi, -⟩
    simp at hi
  | cons key keys ih =>
    rw [bitopSources_cons (h key List.mem_cons_self), lapsed_cons]
    obtain ⟨hgone, hkept⟩ := ih clock.later (ks.evict (clock 0) key)
      fun k hk => (h k (List.mem_cons_of_mem _ hk)).evict _ _
    rw [evict_storage_getElem?, evict_expirations_getElem?] at hkept
    by_cases hl : (ks.evict (clock 0) key).Lapsed clock.later keys k
    · exact ⟨fun _ => hgone hl, fun hn => absurd (.inr hl) hn⟩
    · obtain ⟨hs, he⟩ := hkept hl
      refine ⟨fun hor => ?_, fun hn => ?_⟩
      · have hfirst := hor.resolve_right hl
        rw [if_pos hfirst] at hs he
        exact ⟨hs, he⟩
      · have hfirst : ¬(ks.expired (clock 0) key = true ∧ key = k) := fun hf => hn (.inl hf)
        rw [if_neg hfirst] at hs he
        exact ⟨hs, he⟩

theorem bitopSources_others (clock : Readings) (keys : List Bytes) (ks : Keyspace F) :
    (bitopSources clock keys ks).2.dynamicVector = ks.dynamicVector ∧
      (bitopSources clock keys ks).2.streams = ks.streams ∧
      (bitopSources clock keys ks).2.sortedSets = ks.sortedSets := by
  refine (evicts_bitopSources keys clock ks).preserves (P := fun ks' =>
    ks'.dynamicVector = ks.dynamicVector ∧ ks'.streams = ks.streams ∧
      ks'.sortedSets = ks.sortedSets) (fun ks' i key hks => ?_) ⟨rfl, rfl, rfl⟩
  simpa using hks

end sources

section order

variable {clock clock' : Readings} {keys keys' : List Bytes} {ks : Keyspace F}

/-- No source expires while the sources are read, in two runs of the loop. -/
def Agree (ks : Keyspace F) (clock clock' : Readings) (keys : List Bytes) : Prop :=
  ∀ key ∈ keys, ∀ i j, ks.expired (clock i) key = ks.expired (clock' j) key

theorem Agree.lapsed_iff (h : ks.Agree clock clock' keys) (hperm : keys.Perm keys') (k : Bytes) :
    ks.Lapsed clock keys k ↔ ks.Lapsed clock' keys' k := by
  constructor
  · rintro ⟨i, hi, he⟩
    have hmem : k ∈ keys := List.mem_of_getElem? hi
    obtain ⟨j, hj⟩ := List.mem_iff_getElem?.mp (hperm.mem_iff.mp hmem)
    exact ⟨j, hj, by rw [← h k hmem i j, he]⟩
  · rintro ⟨j, hj, he⟩
    have hmem : k ∈ keys := hperm.mem_iff.mpr (List.mem_of_getElem? hj)
    obtain ⟨i, hi⟩ := List.mem_iff_getElem?.mp hmem
    exact ⟨i, hi, by rw [h k hmem i j, he]⟩

theorem mapIdx_stringAt {c : Clock} (h : ∀ key ∈ keys, ∀ i,
    ks.expired (clock i) key = ks.expired c key) :
    (keys.mapIdx fun i key => ks.stringAt (clock i) key) = keys.map (ks.stringAt c) := by
  rw [List.mapIdx_eq_iff]
  intro i
  rw [List.getElem?_map]
  cases hi : keys[i]? with
  | none => rfl
  | some key =>
    simp only [Option.map_some, Option.some.injEq, stringAt]
    rw [h key (List.mem_of_getElem? hi) i]

theorem Agree.mapIdx_perm (h : ks.Agree clock clock' keys) (hperm : keys.Perm keys') :
    (keys.mapIdx fun i key => ks.stringAt (clock i) key).Perm
      (keys'.mapIdx fun i key => ks.stringAt (clock' i) key) := by
  rw [mapIdx_stringAt (c := clock 0) fun key hk i => (h key hk i 0).trans (h key hk 0 0).symm,
    mapIdx_stringAt (c := clock 0) fun key hk i => (h key (hperm.mem_iff.mpr hk) 0 i).symm]
  exact hperm.map _

theorem Agree.bitopSources_snd (h : ks.Agree clock clock' keys) (hperm : keys.Perm keys')
    (hkeys : ∀ key ∈ keys, ks.StringOrAbsent key) :
    (bitopSources clock keys ks).2 = (bitopSources clock' keys' ks).2 := by
  have hkeys' : ∀ key ∈ keys', ks.StringOrAbsent key := fun key hk =>
    hkeys key (hperm.mem_iff.mpr hk)
  have hlookup : ∀ k : Bytes, (bitopSources clock keys ks).2.storage[k]? =
        (bitopSources clock' keys' ks).2.storage[k]? ∧
      (bitopSources clock keys ks).2.expirations[k]? =
        (bitopSources clock' keys' ks).2.expirations[k]? := by
    intro k
    obtain ⟨hgone, hkept⟩ := Keyspace.bitopSources_snd clock ks hkeys k
    obtain ⟨hgone', hkept'⟩ := Keyspace.bitopSources_snd clock' ks hkeys' k
    by_cases hl : ks.Lapsed clock keys k
    · have hl' := (h.lapsed_iff hperm k).mp hl
      rw [(hgone hl).1, (hgone hl).2, (hgone' hl').1, (hgone' hl').2]
      exact ⟨rfl, rfl⟩
    · have hl' := fun hl' => hl ((h.lapsed_iff hperm k).mpr hl')
      rw [(hkept hl).1, (hkept hl).2, (hkept' hl').1, (hkept' hl').2]
      exact ⟨rfl, rfl⟩
  obtain ⟨hlist, hstream, hset⟩ := bitopSources_others clock keys ks
  obtain ⟨hlist', hstream', hset'⟩ := bitopSources_others clock' keys' ks
  exact Keyspace.ext (Std.ExtTreeMap.ext_getElem? fun k => (hlookup k).1)
    (Std.ExtTreeMap.ext_getElem? fun k => (hlookup k).2) (hlist.trans hlist'.symm)
    (hstream.trans hstream'.symm) (hset.trans hset'.symm)

end order

section storeBits

variable (ks : Keyspace F) (key result : Bytes)

theorem storeBits_self :
    (ks.storeBits key result).storage[key]? = (if result = [] then none else some result) ∧
      (ks.storeBits key result).expirations[key]? = none ∧
      (ks.storeBits key result).StringOrAbsent key := by
  refine ⟨?_, by simp [storeBits], by simp [storeBits, eraseOthers, StringOrAbsent]⟩
  unfold storeBits
  dsimp only
  split <;> simp

theorem storeBits_other {k : Bytes} (h : k ≠ key) : ks.Same (ks.storeBits key result) k := by
  have hk : key ≠ k := Ne.symm h
  refine ⟨?_, ?_⟩
  · unfold storeBits
    dsimp only
    split <;> simp [hk, Std.ExtTreeMap.getElem?_erase, Std.ExtTreeMap.getElem?_insert]
  · simp [storeBits, eraseOthers, hk, Std.ExtTreeMap.getElem?_erase]

end storeBits

theorem handleBitop_eq {clock : Readings} {c name dest source : Bytes} {sources : List Bytes}
    {ks : Keyspace F} {operation : BitOperation}
    (hname : BitOperation.parse (toUpper name) = some operation)
    (hnot : operation = .not → sources = [])
    (hsources : ∀ key ∈ source :: sources, ks.StringOrAbsent key)
    (hclock : Monotone fun i => (clock i).steady) :
    let result := operation.apply
      ((source :: sources).mapIdx fun i key => ks.stringAt (clock i) key)
    handleBitop clock (c :: name :: dest :: source :: sources) ks =
      ((integer result.length).toBytes,
        (bitopSources clock (source :: sources) ks).2.storeBits dest result) := by
  intro result
  have hguard : ¬(operation = .not ∧ sources ≠ []) := fun h => h.2 (hnot h.1)
  simp only [handleBitop, hname, if_neg hguard, bitopSources_fst hclock hsources]
  rfl

/-- `BITOP` combines its sources bit by bit, replaces its destination and leaves every other key
alone, lapsed sources aside. For all operations with several sources their order is irrelevant. -/
theorem bitop_pointwise (clock : Readings) (c name dest source : Bytes) (sources : List Bytes)
    (ks : Keyspace F) {operation : BitOperation}
    (hname : BitOperation.parse (toUpper name) = some operation)
    (hnot : operation = .not → sources = [])
    (hsources : ∀ key ∈ source :: sources, ks.StringOrAbsent key)
    (hclock : Monotone fun i => (clock i).steady) :
    let r := handleBitop clock (c :: name :: dest :: source :: sources) ks
    let values := (source :: sources).mapIdx fun i key => ks.stringAt (clock i) key
    (∃ n, IsGreatest {l | ∃ value ∈ values, value.length = l} n ∧ r.1 = (integer n).toBytes ∧
      r.2.expirations[dest]? = none ∧ r.2.StringOrAbsent dest ∧
      (n = 0 → r.2.storage[dest]? = none) ∧
      (n ≠ 0 → ∃ result, r.2.storage[dest]? = some result ∧ result.length = n ∧
        ∀ i < 8 * n, bit result i = operation.onBits (values.map (bit · i)))) ∧
    (∀ key, key ≠ dest →
      (¬ks.Lapsed clock (source :: sources) key → ks.Same r.2 key) ∧
      (ks.Lapsed clock (source :: sources) key →
        Same { ks with
          storage := ks.storage.erase key
          expirations := ks.expirations.erase key } r.2 key)) ∧
    (operation ≠ .not → ∀ (clock' : Readings) (source' : Bytes) (sources' : List Bytes),
      (Monotone fun i => (clock' i).steady) → ks.Agree clock clock' (source :: sources) →
      (source :: sources).Perm (source' :: sources') →
      handleBitop clock' (c :: name :: dest :: source' :: sources') ks = r) := by
  intro r values
  have hr : r = ((integer (operation.apply values).length).toBytes,
      (bitopSources clock (source :: sources) ks).2.storeBits dest (operation.apply values)) :=
    handleBitop_eq hname hnot hsources hclock
  have hvalues : values ≠ [] := by simp [values]
  have hone : operation = .not → values.length = 1 := fun h => by simp [values, hnot h]
  refine ⟨⟨_, operation.isGreatest_length_apply hvalues, ?_, ?_, ?_, ?_, ?_⟩, ?_, ?_⟩
  · rw [hr]
  · rw [hr]
    exact (storeBits_self ..).2.1
  · rw [hr]
    exact (storeBits_self ..).2.2
  · intro hn
    rw [hr, (storeBits_self ..).1, if_pos (List.length_eq_zero_iff.mp hn)]
  · intro hn
    refine ⟨operation.apply values, ?_, rfl, fun i hi => BitOperation.bit_apply hone hi⟩
    rw [hr, (storeBits_self ..).1, if_neg fun h => hn (List.length_eq_zero_iff.mpr h)]
  · intro key hkey
    obtain ⟨hgone, hkept⟩ := bitopSources_snd clock ks hsources key
    obtain ⟨hlist, hstream, hset⟩ := bitopSources_others clock (source :: sources) ks
    obtain ⟨hs, he, hd, ht, hz⟩ := storeBits_other
      (bitopSources clock (source :: sources) ks).2 dest (operation.apply values) hkey
    rw [hr]
    refine ⟨fun hl => ?_, fun hl => ?_⟩
    · exact ⟨hs.trans (hkept hl).1, he.trans (hkept hl).2, hd.trans (by rw [hlist]),
        ht.trans (by rw [hstream]), hz.trans (by rw [hset])⟩
    · refine ⟨hs.trans ?_, he.trans ?_, hd.trans (by rw [hlist]),
        ht.trans (by rw [hstream]), hz.trans (by rw [hset])⟩
      · rw [(hgone hl).1]
        simp
      · rw [(hgone hl).2]
        simp
  · intro hop clock' source' sources' hclock' hagree hperm
    have hsources' : ∀ key ∈ source' :: sources', ks.StringOrAbsent key := fun key hk =>
      hsources key (hperm.mem_iff.mpr hk)
    rw [handleBitop_eq hname (fun h => absurd h hop) hsources' hclock', hr,
      ← hagree.bitopSources_snd hperm hsources,
      ← BitOperation.apply_perm hop (hagree.mapIdx_perm hperm)]

/-- A key combined with itself and with a longer one, in place of a list. -/
theorem bitop_pointwise_aliased :
    let ks : Keyspace Whole :=
      { storage := ((∅ : Map Bytes).insert (ascii "a") [0xf0]).insert (ascii "b") [0x3c, 0x01]
        dynamicVector := (∅ : Map (List Bytes)).insert (ascii "d") [ascii "x"] }
    let r := handleBitop (fun _ => ⟨0, 0⟩)
      [ascii "BITOP", ascii "xor", ascii "d", ascii "a", ascii "b", ascii "a"] ks
    r.1 = (integer 2).toBytes ∧ r.2.StringOrAbsent (ascii "d") ∧
      ks.Same r.2 (ascii "b") := by
  intro ks r
  have hsource : ∀ key, ascii "d" ≠ key → ks.StringOrAbsent key := by
    intro key hkey
    simp [ks, StringOrAbsent, hkey]
  have hsources : ∀ key ∈ [ascii "a", ascii "b", ascii "a"], ks.StringOrAbsent key := by
    intro key hmem
    refine hsource key ?_
    rintro rfl
    exact absurd hmem (by decide)
  have hname : BitOperation.parse (toUpper (ascii "xor")) = some .xor := by decide
  obtain ⟨⟨n, -, -, -, hdest, -⟩, hothers, -⟩ := bitop_pointwise (fun _ => ⟨0, 0⟩)
    (ascii "BITOP") (ascii "xor") (ascii "d") (ascii "a") [ascii "b", ascii "a"] ks hname
    (by decide) hsources monotone_const
  refine ⟨by decide, hdest, (hothers (ascii "b") (by decide)).1 ?_⟩
  rintro ⟨i, -, he⟩
  simp [ks, expired] at he

end Keyspace

end TrueStore
