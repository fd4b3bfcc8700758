import TrueStore.Store.Loading
import TrueStore.Store.Strings
import TrueStore.Text.Signed

/-! # Deadlines in 64-bit ticks

Clocks count nanoseconds in signed 64-bit integers. A deadline is the exact one as long as it fits
there, both when `SET` adds a duration to the clock and when a snapshot is loaded. Loading keeps
values and deadlines in two containers, and not every entry writes to both.
-/

namespace TrueStore

open RespType

variable {F : Type} [Platform F]

namespace Keyspace

/-- The ticks of the options of `SET`. -/
def expiryUnit (option : Bytes) : Option ℤ :=
  if option = ascii "EX" then some 1000000000
  else if option = ascii "PX" then some 1000000
  else none

theorem handleSet_until {clock : Readings} {c key value option text : Bytes} {duration unit : ℤ}
    (hunit : expiryUnit option = some unit) (hduration : stoll text = some duration)
    (ks : Keyspace F) :
    handleSet clock [c, key, value, option, text] ks =
      if duration ≤ 0 then (invalidExpire, ks)
      else (ok, ks.assignUntil key value (deadline (clock 0) duration unit)) := by
  unfold expiryUnit at hunit
  simp only [handleSet, hduration]
  split
  · rfl
  · split at hunit
    · rename_i hex
      rw [if_pos hex]
      cases hunit
      rfl
    · rename_i hex
      rw [if_neg hex]
      split at hunit
      · rename_i hpx
        rw [if_pos hpx]
        cases hunit
        rfl
      · cases hunit

theorem deadline_eq_iff {clock : Clock} {duration unit : ℤ} (hnow : 0 ≤ clock.steady)
    (hpositive : 0 < duration * unit) :
    deadline clock duration unit = clock.steady + duration * unit ↔
      clock.steady + duration * unit < 2 ^ 63 := by
  unfold deadline
  obtain ⟨k, hk, -, -⟩ := wrap64_spec (duration * unit)
  obtain ⟨k', hk', hle, hlt⟩ := wrap64_spec (clock.steady + wrap64 (duration * unit))
  constructor
  · intro h
    omega
  · intro h
    omega

theorem handleGet_before {clock : Readings} {c key value : Bytes} {t : ℤ} {ks : Keyspace F}
    (ht : (clock 0).steady < t) :
    (handleGet clock [c, key] (ks.assignUntil key value t)).1 = (bulkString value).toBytes := by
  have hexpirations : (ks.assignUntil key value t).expirations[key]? = some t := by
    simp [assignUntil, assign, eraseOthers]
  have hstorage : (ks.assignUntil key value t).storage[key]? = some value := by
    simp [assignUntil, assign]
  have hlive : (ks.assignUntil key value t).isExpired (clock 0) key =
      (false, ks.assignUntil key value t) := by
    simp only [isExpired, hexpirations]
    rw [if_neg (by omega)]
  simp only [handleGet, hlive, Bool.false_eq_true, if_false, hstorage]

/-- An accepted `SET` with an expiry stores the exact deadline, and keeps the value until then,
exactly when that deadline is below the largest tick. -/
theorem set_deadline_exact_iff (clock : Readings) (c key value option text : Bytes)
    {duration unit : ℤ} (ks : Keyspace F) (hnow : 0 ≤ (clock 0).steady)
    (hunit : expiryUnit option = some unit) (hduration : stoll text = some duration)
    (hok : (handleSet clock [c, key, value, option, text] ks).1 = ok) :
    let after := (handleSet clock [c, key, value, option, text] ks).2
    let exact := (clock 0).steady + duration * unit
    (after.expirations[key]? = some exact ∧
      ∀ (later : Readings) (g : Bytes), (later 0).steady < exact →
        (handleGet later [g, key] after).1 = (bulkString value).toBytes) ↔
      exact < 2 ^ 63 := by
  intro after exact
  have hset : handleSet clock [c, key, value, option, text] ks =
      if duration ≤ 0 then (invalidExpire, ks)
      else (ok, ks.assignUntil key value (deadline (clock 0) duration unit)) :=
    handleSet_until hunit hduration ks
  have hpositive : 0 < duration := by
    by_contra hle
    rw [hset, if_pos (by omega)] at hok
    have herror : invalidExpire ≠ ok := by decide
    exact herror hok
  have hafter : after = ks.assignUntil key value (deadline (clock 0) duration unit) := by
    simp only [after, hset]
    rw [if_neg (by omega)]
  have hunit' : 0 < unit := by
    unfold expiryUnit at hunit
    split at hunit
    · cases hunit
      decide
    · split at hunit
      · cases hunit
        decide
      · cases hunit
  have hiff := deadline_eq_iff hnow (mul_pos hpositive hunit')
  have hstored : after.expirations[key]? = some (deadline (clock 0) duration unit) := by
    rw [hafter]
    simp [assignUntil, assign, eraseOthers]
  rw [hstored, Option.some.injEq]
  constructor
  · rintro ⟨h, -⟩
    exact hiff.mp h
  · intro h
    refine ⟨hiff.mpr h, fun later g hlater => ?_⟩
    rw [hafter, hiff.mpr h]
    exact handleGet_before hlater

/-- An hour from now. -/
theorem set_deadline_exact_iff_hour :
    let after := (handleSet (fun _ => ⟨5, 0⟩)
      [ascii "SET", ascii "k", ascii "v", ascii "EX", ascii "3600"] ({} : Keyspace Whole)).2
    after.expirations[ascii "k"]? = some (5 + 3600 * 1000000000) := by
  have hunit : expiryUnit (ascii "EX") = some 1000000000 := by decide
  have hduration : stoll (ascii "3600") = some 3600 := by decide
  have h := set_deadline_exact_iff (fun _ => ⟨5, 0⟩) (ascii "SET") (ascii "k") (ascii "v")
    (ascii "EX") (ascii "3600") ({} : Keyspace Whole) (by decide) hunit hduration (by decide)
  exact (h.mpr (by decide)).1

/-- A value that is to live for some three centuries is gone at once. -/
theorem set_deadline_wraps :
    let after := (handleSet (fun _ => ⟨0, 0⟩)
      [ascii "SET", ascii "k", ascii "v", ascii "EX", ascii "9223372037"] ({} : Keyspace Whole)).2
    (handleSet (fun _ => ⟨0, 0⟩)
      [ascii "SET", ascii "k", ascii "v", ascii "EX", ascii "9223372037"]
        ({} : Keyspace Whole)).1 = ok ∧
      after.expirations[ascii "k"]? ≠ some (9223372037 * 1000000000) ∧
      (handleGet (fun _ => ⟨0, 0⟩) [ascii "GET", ascii "k"] after).1 = nullBulkString.toBytes := by
  decide

def unexpired (systemNow : ℤ) (entry : Rdb.Entry) : Bool :=
  entry.expireAtMs.all fun ms : ℕ => decide (systemNow < (ms : ℤ) * 1000000)

def lifetimeEnd (systemNow steadyNow : ℤ) (ms : ℕ) : ℤ :=
  steadyNow + (ms * 1000000 - systemNow)

/-- The key of an entry has its value and its deadline, or nothing when the entry has expired. -/
def Honours (systemNow steadyNow : ℤ) (entry : Rdb.Entry) (ks : Keyspace F) : Prop :=
  if unexpired systemNow entry then
    ks.storage[entry.key]? = some entry.value ∧
      ks.expirations[entry.key]? = entry.expireAtMs.map (lifetimeEnd systemNow steadyNow)
  else ks.storage[entry.key]? = none ∧ ks.expirations[entry.key]? = none

/-- The expiry has passed, or it and the deadline are ticks. -/
def Fits (systemNow steadyNow : ℤ) (entry : Rdb.Entry) : Prop :=
  ∀ ms : ℕ, entry.expireAtMs = some ms → (ms : ℤ) * 1000000 ≤ systemNow ∨
    ((ms : ℤ) * 1000000 < 2 ^ 63 ∧ lifetimeEnd systemNow steadyNow ms < 2 ^ 63)

theorem wrap64_ms (ms : ℕ) : wrap64 (wrap64 ms * 1000000) = wrap64 (ms * 1000000) := by
  unfold wrap64
  rw [Int.bmod_mul_bmod]

/-- An expiry is understood and carried over exactly when it has passed or fits. -/
theorem expireAt_exact_iff (systemNow steadyNow : Int64) (ms : ℕ) :
    (systemNow.toInt < ms * 1000000 → systemNow.toInt < wrap64 (ms * 1000000) ∧
      wrap64 (steadyNow.toInt + wrap64 (wrap64 (ms * 1000000) - systemNow.toInt)) =
        lifetimeEnd systemNow.toInt steadyNow.toInt ms) ↔
    ((ms : ℤ) * 1000000 ≤ systemNow.toInt ∨ ((ms : ℤ) * 1000000 < 2 ^ 63 ∧
      lifetimeEnd systemNow.toInt steadyNow.toInt ms < 2 ^ 63)) := by
  have hsystem := systemNow.toInt_lt
  have hsystem' := systemNow.le_toInt
  have hsteady := steadyNow.toInt_lt
  have hsteady' := steadyNow.le_toInt
  obtain ⟨k, hk, hle, hlt⟩ := wrap64_spec (ms * 1000000)
  obtain ⟨k', hk', -, -⟩ := wrap64_spec (wrap64 (ms * 1000000) - systemNow.toInt)
  obtain ⟨k'', hk'', hle'', hlt''⟩ := wrap64_spec
    (steadyNow.toInt + wrap64 (wrap64 (ms * 1000000) - systemNow.toInt))
  unfold lifetimeEnd
  constructor
  · intro h
    by_cases hpast : (ms : ℤ) * 1000000 ≤ systemNow.toInt
    · exact .inl hpast
    · obtain ⟨hkept, hexact⟩ := h (by omega)
      exact .inr ⟨by omega, by omega⟩
  · intro h hlive
    rcases h with h | ⟨hfits, hfits'⟩
    · omega
    · exact ⟨by omega, by omega⟩

theorem wrap64_le_of_past {systemNow : Int64} {ms : ℕ} (h : ms * 1000000 ≤ systemNow.toInt) :
    wrap64 (ms * 1000000) ≤ systemNow.toInt := by
  have hsystem := systemNow.toInt_lt
  obtain ⟨k, hk, hle, hlt⟩ := wrap64_spec (ms * 1000000)
  omega

theorem honours_loadEntry_iff (systemNow steadyNow : Int64) (entry : Rdb.Entry) {ks : Keyspace F}
    (hstorage : ks.storage[entry.key]? = none) (hexpirations : ks.expirations[entry.key]? = none) :
    Honours systemNow.toInt steadyNow.toInt entry
        (loadEntry systemNow.toInt steadyNow.toInt ks entry) ↔
      Fits systemNow.toInt steadyNow.toInt entry := by
  unfold Honours Fits loadEntry unexpired
  cases hms : entry.expireAtMs with
  | none => simp [hexpirations]
  | some ms =>
    have hexact := expireAt_exact_iff systemNow steadyNow ms
    simp only [Option.all_some, decide_eq_true_eq, Option.map_some, Option.some.injEq, forall_eq',
      wrap64_ms]
    rw [← hexact]
    by_cases hlive : systemNow.toInt < ms * 1000000
    · rw [if_pos hlive]
      by_cases hkept : wrap64 (ms * 1000000) ≤ systemNow.toInt
      · rw [if_pos hkept, hstorage]
        simp [hlive, hkept]
      · rw [if_neg hkept]
        have hkept' : systemNow.toInt < wrap64 (ms * 1000000) := by omega
        simp [hlive, hkept']
    · rw [if_neg hlive, if_pos (wrap64_le_of_past (by omega))]
      simp [hlive, hstorage, hexpirations]

theorem loadEntry_other (systemNow steadyNow : ℤ) {entry : Rdb.Entry} {key : Bytes}
    (h : entry.key ≠ key) (ks : Keyspace F) :
    (loadEntry systemNow steadyNow ks entry).storage[key]? = ks.storage[key]? ∧
      (loadEntry systemNow steadyNow ks entry).expirations[key]? = ks.expirations[key]? := by
  unfold loadEntry
  split
  · simp [Std.ExtTreeMap.getElem?_insert, h]
  · dsimp only
    split
    · exact ⟨rfl, rfl⟩
    · simp [Std.ExtTreeMap.getElem?_insert, h]

theorem loadEntries_others (systemNow steadyNow : ℤ) {entries : List Rdb.Entry} {key : Bytes}
    (h : ∀ entry ∈ entries, entry.key ≠ key) (ks : Keyspace F) :
    (loadEntries systemNow steadyNow entries ks).storage[key]? = ks.storage[key]? ∧
      (loadEntries systemNow steadyNow entries ks).expirations[key]? = ks.expirations[key]? := by
  unfold loadEntries
  induction entries generalizing ks with
  | nil => exact ⟨rfl, rfl⟩
  | cons entry entries ih =>
    obtain ⟨hs, he⟩ := ih (fun e hm => h e (List.mem_cons_of_mem _ hm))
      (loadEntry systemNow steadyNow ks entry)
    obtain ⟨hs', he'⟩ := loadEntry_other systemNow steadyNow (h entry List.mem_cons_self) ks
    exact ⟨hs.trans hs', he.trans he'⟩

theorem Honours.congr {systemNow steadyNow : ℤ} {entry : Rdb.Entry} {ks ks' : Keyspace F}
    (hs : ks'.storage[entry.key]? = ks.storage[entry.key]?)
    (he : ks'.expirations[entry.key]? = ks.expirations[entry.key]?) :
    Honours systemNow steadyNow entry ks' ↔ Honours systemNow steadyNow entry ks := by
  unfold Honours
  rw [hs, he]

/-- Every deadline of a snapshot with distinct keys is honoured exactly when those that are still
to come fit into the ticks of the clocks. -/
theorem load_honours_deadlines_iff (systemNow steadyNow : Int64) (entries : List Rdb.Entry)
    (hkeys : (entries.map (·.key)).Nodup) :
    (∀ entry ∈ entries, Honours systemNow.toInt steadyNow.toInt entry
      (loadEntries systemNow.toInt steadyNow.toInt entries ({} : Keyspace F))) ↔
      ∀ entry ∈ entries, Fits systemNow.toInt steadyNow.toInt entry := by
  refine forall₂_congr fun entry hmem => ?_
  obtain ⟨before, after, rfl⟩ := List.append_of_mem hmem
  rw [List.map_append, List.map_cons, List.nodup_append, List.nodup_cons] at hkeys
  obtain ⟨-, ⟨hafter, -⟩, hbefore⟩ := hkeys
  have hnone := loadEntries_others systemNow.toInt steadyNow.toInt
    (fun e he heq => hbefore e.key (List.mem_map_of_mem he) entry.key List.mem_cons_self heq)
    ({} : Keyspace F)
  set ks := loadEntries systemNow.toInt steadyNow.toInt before ({} : Keyspace F) with hks
  have hload : loadEntries systemNow.toInt steadyNow.toInt (before ++ entry :: after) {} =
      loadEntries systemNow.toInt steadyNow.toInt after
        (loadEntry systemNow.toInt steadyNow.toInt ks entry) := by
    rw [hks, loadEntries, List.foldl_append, List.foldl_cons]
    rfl
  have hrest := loadEntries_others systemNow.toInt steadyNow.toInt 
    (fun e he (heq : e.key = entry.key) => hafter (heq ▸ List.mem_map_of_mem he))
    (loadEntry systemNow.toInt steadyNow.toInt ks entry)
  rw [hload, Honours.congr hrest.1 hrest.2]
  exact honours_loadEntry_iff systemNow steadyNow entry (by rw [hnone.1]; simp)
    (by rw [hnone.2]; simp)

/-- A string with an hour left to live. -/
theorem load_honours_deadlines_iff_hour :
    let entry : Rdb.Entry := ⟨ascii "k", ascii "v", some 3600001⟩
    Honours 1000000 5 entry (loadEntries 1000000 5 [entry] ({} : Keyspace Whole)) := by
  intro entry
  have hfits : Fits 1000000 5 entry := by
    intro ms hms
    cases hms
    exact .inr (by decide)
  have h := (load_honours_deadlines_iff (F := Whole) 1000000 5 [entry] (by decide)).mpr
    (by simpa using hfits)
  exact h entry List.mem_cons_self

/-- A string that is to live for some three centuries is not loaded. -/
theorem load_drops_far_deadline :
    let entry : Rdb.Entry := ⟨ascii "k", ascii "v", some 9223372036855⟩
    unexpired 0 entry = true ∧
      (loadEntries 0 0 [entry] ({} : Keyspace Whole)).storage[ascii "k"]? = none ∧
      ¬Honours 0 0 entry (loadEntries 0 0 [entry] ({} : Keyspace Whole)) := by
  intro entry
  have hnone : (loadEntries 0 0 [entry] ({} : Keyspace Whole)).storage[ascii "k"]? = none := by
    decide
  refine ⟨by decide, hnone, fun h => ?_⟩
  have hstored : (loadEntries 0 0 [entry] ({} : Keyspace Whole)).storage[ascii "k"]? =
      some (ascii "v") := h.1
  rw [hnone] at hstored
  cases hstored

def lastEntry (entries : List Rdb.Entry) (key : Bytes) : Option Rdb.Entry :=
  entries.reverse.find? fun entry => entry.key = key

theorem loadEntry_of_fits {systemNow steadyNow : Int64} {entry : Rdb.Entry}
    (h : Fits systemNow.toInt steadyNow.toInt entry) (ks : Keyspace F) :
    loadEntry systemNow.toInt steadyNow.toInt ks entry =
      if unexpired systemNow.toInt entry then
        { ks with
          storage := ks.storage.insert entry.key entry.value
          expirations := entry.expireAtMs.elim ks.expirations fun ms =>
            ks.expirations.insert entry.key (lifetimeEnd systemNow.toInt steadyNow.toInt ms) }
      else ks := by
  unfold loadEntry unexpired
  cases hms : entry.expireAtMs with
  | none => rfl
  | some ms =>
    have hexact := (expireAt_exact_iff systemNow steadyNow ms).mpr (h ms hms)
    simp only [Option.all_some, decide_eq_true_eq, wrap64_ms, Option.elim_some]
    by_cases hlive : systemNow.toInt < (ms : ℤ) * 1000000
    · obtain ⟨hkept, heq⟩ := hexact hlive
      rw [if_pos hlive, if_neg (by omega), heq]
    · rw [if_neg hlive, if_pos (wrap64_le_of_past (by omega))]

/-- The value of a key is that of its last live entry, and its deadline that of its last live entry
with an expiry. -/
theorem loadEntries_of_fits {systemNow steadyNow : Int64} {entries : List Rdb.Entry}
    (h : ∀ entry ∈ entries, Fits systemNow.toInt steadyNow.toInt entry) (key : Bytes) :
    let ks := loadEntries systemNow.toInt steadyNow.toInt entries ({} : Keyspace F)
    ks.storage[key]? = (entries.reverse.find? fun entry =>
        decide (entry.key = key) && unexpired systemNow.toInt entry).map (·.value) ∧
      ks.expirations[key]? = (entries.reverse.find? fun entry =>
        decide (entry.key = key) && unexpired systemNow.toInt entry && entry.expireAtMs.isSome).bind
          fun entry => entry.expireAtMs.map (lifetimeEnd systemNow.toInt steadyNow.toInt) := by
  induction entries using List.reverseRecOn with
  | nil => simp [loadEntries]
  | append_singleton entries entry ih =>
    obtain ⟨hs, he⟩ := ih fun e hm => h e (List.mem_append_left _ hm)
    have hfits := h entry (List.mem_append_right _ List.mem_cons_self)
    have hload : loadEntries systemNow.toInt steadyNow.toInt (entries ++ [entry])
        ({} : Keyspace F) = loadEntry systemNow.toInt steadyNow.toInt
          (loadEntries systemNow.toInt steadyNow.toInt entries {}) entry := by
      rw [loadEntries, List.foldl_append]
      rfl
    dsimp only
    rw [hload]
    rw [List.reverse_append, List.reverse_singleton, List.singleton_append, List.find?_cons,
      List.find?_cons]
    by_cases hkey : entry.key = key
    · rw [loadEntry_of_fits hfits]
      cases hlive : unexpired systemNow.toInt entry with
      | false => simpa [hkey] using ⟨hs, he⟩
      | true =>
        cases hms : entry.expireAtMs with
        | none => simpa [hkey] using he
        | some ms => simp [hkey, hms]
    · have hother := loadEntry_other systemNow.toInt steadyNow.toInt hkey
        (loadEntries systemNow.toInt steadyNow.toInt entries ({} : Keyspace F))
      rw [hother.1, hother.2]
      simpa [hkey] using ⟨hs, he⟩

theorem find?_of_imp {α : Type} {p q : α → Bool} {l : List α} {a : α} (h : l.find? p = some a)
    (hq : q a = true) (himp : ∀ x, q x = true → p x = true) : l.find? q = some a := by
  obtain ⟨-, before, after, rfl, hbefore⟩ := List.find?_eq_some_iff_append.mp h
  refine List.find?_eq_some_iff_append.mpr ⟨hq, before, after, rfl, fun x hx => ?_⟩
  have hp := hbefore x hx
  cases hqx : q x with
  | false => rfl
  | true => simp [himp x hqx] at hp

/-- A key that occurs several times has the value and the expiry of its last entry exactly when no
entry of the key is live but a later one is not, and none has an expiry but a later one has not. -/
theorem load_last_wins_iff (systemNow steadyNow : Int64) (entries : List Rdb.Entry)
    (hfits : ∀ entry ∈ entries, Fits systemNow.toInt steadyNow.toInt entry) :
    (∀ key entry, lastEntry entries key = some entry →
      Honours systemNow.toInt steadyNow.toInt entry
        (loadEntries systemNow.toInt steadyNow.toInt entries ({} : Keyspace F))) ↔
    ∀ key last, lastEntry entries key = some last →
      ∀ entry ∈ entries, entry.key = key → unexpired systemNow.toInt entry = true →
        unexpired systemNow.toInt last = true ∧
          (last.expireAtMs = none → entry.expireAtMs = none) := by
  refine forall₃_congr fun key last hlast => ?_
  obtain ⟨hs, he⟩ := loadEntries_of_fits (F := F) hfits key
  have hkey : last.key = key := by simpa using List.find?_some hlast
  have hexpiring : ((entries.reverse.find? fun entry => decide (entry.key = key) &&
      unexpired systemNow.toInt entry && entry.expireAtMs.isSome).bind fun entry =>
        entry.expireAtMs.map (lifetimeEnd systemNow.toInt steadyNow.toInt)) = none ↔
      ∀ entry ∈ entries, entry.key = key → unexpired systemNow.toInt entry = true →
        entry.expireAtMs = none := by
    rw [Option.bind_eq_none_iff]
    constructor
    · intro hnone entry hmem hk hl
      by_contra hms
      cases hfind : entries.reverse.find? fun entry => decide (entry.key = key) &&
          unexpired systemNow.toInt entry && entry.expireAtMs.isSome with
      | none =>
        have := List.find?_eq_none.mp hfind entry (List.mem_reverse.mpr hmem)
        simp [hk, hl] at this
        exact hms this
      | some e =>
        have hsome := List.find?_some hfind
        have := hnone e hfind
        simp [Option.map_eq_none_iff] at this
        simp [this] at hsome
    · intro hnone entry hfind
      have hsome := List.find?_some hfind
      have hmem := List.mem_reverse.mp (List.mem_of_find?_eq_some hfind)
      simp only [Bool.and_eq_true, decide_eq_true_eq] at hsome
      simp [hnone entry hmem hsome.1.1 hsome.1.2]
  unfold Honours
  rw [hkey, hs, he]
  cases hlive : unexpired systemNow.toInt last with
  | true =>
    have hvalue := find?_of_imp (q := fun entry => decide (entry.key = key) &&
      unexpired systemNow.toInt entry) hlast (by simp [hkey, hlive]) (by simp +contextual)
    rw [hvalue]
    cases hms : last.expireAtMs with
    | some ms =>
      have hexpiry := find?_of_imp (q := fun entry => decide (entry.key = key) &&
        unexpired systemNow.toInt entry && entry.expireAtMs.isSome) hlast
        (by simp [hkey, hlive, hms]) (by simp +contextual)
      simp [hexpiry, hms]
    | none => simp [hexpiring]
  | false =>
    rw [if_neg Bool.false_ne_true, hexpiring, Option.map_eq_none_iff, List.find?_eq_none]
    constructor
    · rintro ⟨hnone, -⟩ entry hmem hk hl
      have := hnone entry (List.mem_reverse.mpr hmem)
      simp [hk, hl] at this
    · intro hlast
      have hdead : ∀ entry ∈ entries, entry.key = key → unexpired systemNow.toInt entry ≠ true :=
        fun entry hmem hk hl => Bool.false_ne_true (hlast entry hmem hk hl).1
      refine ⟨fun entry hmem => ?_, fun entry hmem hk hl => absurd hl (hdead entry hmem hk)⟩
      simpa using hdead entry (List.mem_reverse.mp hmem)

/-- The later of two strings of one key. -/
theorem load_last_wins_iff_twice :
    let entries : List Rdb.Entry := [⟨ascii "k", ascii "a", none⟩, ⟨ascii "k", ascii "b", some 7⟩]
    (loadEntries 1000000 5 entries ({} : Keyspace Whole)).storage[ascii "k"]? =
      some (ascii "b") := by
  intro entries
  have hfits : ∀ entry ∈ entries, Fits 1000000 5 entry := by
    intro entry hmem ms hms
    simp only [entries, List.mem_cons, List.not_mem_nil, or_false] at hmem
    rcases hmem with rfl | rfl
    · cases hms
    · cases hms
      exact .inr (by decide)
  have hlast : lastEntry entries (ascii "k") = some ⟨ascii "k", ascii "b", some 7⟩ := by decide
  have hcond : ∀ key last, lastEntry entries key = some last →
      ∀ entry ∈ entries, entry.key = key → unexpired 1000000 entry = true →
        unexpired 1000000 last = true ∧ (last.expireAtMs = none → entry.expireAtMs = none) := by
    intro key last h entry hmem hk _
    have hkeys : ∀ e ∈ entries, e.key = ascii "k" := by decide
    obtain rfl : ascii "k" = key := (hkeys entry hmem).symm.trans hk
    cases hlast.symm.trans h
    exact ⟨by decide, fun hms => absurd hms (by decide)⟩
  exact ((load_last_wins_iff (F := Whole) 1000000 5 entries hfits).mpr hcond _ _ hlast).1

/-- A string without an expiry inherits that of an earlier one, and one that has expired leaves an
earlier one in place. -/
theorem load_mixes_entries :
    let expiring : Rdb.Entry := ⟨ascii "k", ascii "a", some 7⟩
    let persistent : Rdb.Entry := ⟨ascii "k", ascii "b", none⟩
    let expired : Rdb.Entry := ⟨ascii "k", ascii "c", some 1⟩
    (∀ entry ∈ [expiring, persistent, expired], Fits 1000000 5 entry) ∧
      (lastEntry [expiring, persistent] (ascii "k") = some persistent ∧
        ¬Honours 1000000 5 persistent
          (loadEntries 1000000 5 [expiring, persistent] ({} : Keyspace Whole))) ∧
      (lastEntry [persistent, expired] (ascii "k") = some expired ∧
        ¬Honours 1000000 5 expired
          (loadEntries 1000000 5 [persistent, expired] ({} : Keyspace Whole))) := by
  intro expiring persistent expired
  refine ⟨?_, ⟨by decide, ?_⟩, by decide, ?_⟩
  · intro entry hmem ms hms
    simp only [List.mem_cons, List.not_mem_nil, or_false] at hmem
    rcases hmem with rfl | rfl | rfl
    · cases hms
      exact .inr (by decide)
    · cases hms
    · cases hms
      exact .inl (by decide)
  · unfold Honours
    decide
  · unfold Honours
    decide

end Keyspace

end TrueStore
