import TrueStore.Command.Collections

/-! # List elements are neither lost nor duplicated

Whoever pushes and pops in whatever order, the elements pushed to a key are those that replies
handed out and those that are still in the list.
-/

namespace TrueStore

open RespType

variable {F : Type} [Platform F]

/-- How many elements an `LPOP` asks for. -/
def Keyspace.popCount : List Bytes → ℕ
  | [_, _] => 1
  | [_, _, text] => ((stoll text).getD 0).toNat
  | _ => 0

namespace Call

/-- The bytes that answer a call. A pop of the blocking path is answered with its key. -/
def answer : Call F → Bytes
  | .run clock data args => (execute clock args data).1
  | .pop data key => (array (key :: (data.listAt key).take 1)).toBytes

def pushed (key : Bytes) : Call F → List Bytes
  | .run clock data args =>
    if (dataCommand args = some .rpush ∨ dataCommand args = some .lpush) ∧ args[1]? = some key ∧
        isError (execute clock args data).1 = false then args.drop 2
    else []
  | .pop _ _ => []

def popsFrom (key : Bytes) : Call F → Bool
  | .run _ _ args => dataCommand args = some .lpop ∧ args[1]? = some key
  | .pop _ k => k = key

/-- The elements of a key that a call hands out: the first ones of the list. -/
def returned (key : Bytes) (c : Call F) : List Bytes :=
  if c.popsFrom key then (c.data.listAt key).take (Keyspace.popCount c.args) else []

/-- The answer to a pop shows the elements that it hands out. -/
def Shows (key : Bytes) (c : Call F) : Prop :=
  match c with
  | .pop _ _ => c.answer = (array (key :: c.returned key)).toBytes
  | .run _ _ args =>
    c.returned key = [] ∧ (isError c.answer = true ∨ c.answer = nullBulkString.toBytes ∨
        c.answer = nullArray.toBytes) ∨
      args.length = 2 ∧ (∃ v, c.returned key = [v] ∧ c.answer = (bulkString v).toBytes) ∨
      args.length = 3 ∧ c.answer = (array (c.returned key)).toBytes

end Call

namespace Keyspace

theorem listAt_storeList (ks : Keyspace F) (key : Bytes) (list : List Bytes) (k : Bytes) :
    (ks.storeList key list).listAt k = if key = k then list else ks.listAt k := by
  by_cases hk : key = k
  · subst hk
    by_cases hl : list = []
    · simp [storeList, listAt, hl]
    · simp [storeList, listAt, hl]
  · by_cases hl : list = []
    · simp [storeList, listAt, hl, hk, Std.ExtTreeMap.getD_erase]
    · simp [storeList, listAt, hl, hk, Std.ExtTreeMap.getD_insert]

theorem listAt_pushList (ks : Keyspace F) (key : Bytes) (list : List Bytes) (k : Bytes) :
    (ks.pushList key list).2.listAt k = if key = k then list else ks.listAt k := by
  by_cases hk : key = k
  · subst hk
    simp [pushList, listAt]
  · simp [pushList, listAt, hk, Std.ExtTreeMap.getD_insert]

@[simp] theorem listAt_evict (ks : Keyspace F) (clock : Clock) (key k : Bytes) :
    (ks.evict clock key).listAt k = ks.listAt k := by
  simp [listAt]

theorem keyType_ne_zset_of_listAt {ks : Keyspace F} {key : Bytes} (h : ks.listAt key ≠ [])
    (clock : Clock) : (ks.keyType clock key).1 ≠ .zset := by
  have hmem : (ks.evict clock key).dynamicVector.contains key = true := by
    by_contra hno
    apply h
    rw [evict_dynamicVector, Std.ExtTreeMap.contains_eq_isSome_getElem?, Bool.not_eq_true,
      Option.isSome_eq_false_iff, Option.isNone_iff_eq_none] at hno
    simp [listAt, Std.ExtTreeMap.getD_eq_getD_getElem?, hno]
  unfold keyType
  dsimp only
  split
  · simp
  · unfold typeOf
    rw [isExpired_snd, hmem]
    split <;> simp

/-- The lists and the reply after an `LPOP` of the first elements at a key. -/
structure Pops (ks : Keyspace F) (args : List Bytes) (key : Bytes) (n : ℕ)
    (r : Bytes × Keyspace F) : Prop where
  lists : ∀ k, r.2.listAt k = if key = k then (ks.listAt key).drop n else ks.listAt k
  reply : (ks.listAt key).take n = [] ∧
      (isError r.1 = true ∨ r.1 = nullBulkString.toBytes ∨ r.1 = nullArray.toBytes) ∨
    args.length = 2 ∧ (∃ v, (ks.listAt key).take n = [v] ∧ r.1 = (bulkString v).toBytes) ∨
    args.length = 3 ∧ r.1 = (array ((ks.listAt key).take n)).toBytes

theorem listAt_of_take_nil {ks : Keyspace F} {key : Bytes} {n : ℕ}
    (hn : (ks.listAt key).take n = []) (k : Bytes) :
    ks.listAt k = if key = k then (ks.listAt key).drop n else ks.listAt k := by
  split
  · rename_i hk
    subst hk
    simpa [hn] using (List.take_append_drop n (ks.listAt key)).symm
  · rfl

theorem pops_handleLpop (ks : Keyspace F) (args : List Bytes) {key : Bytes}
    (hkey : args[1]? = some key) : Pops ks args key (popCount args) (handleLpop args ks) := by
  match args, hkey with
  | [_, key'], hkey =>
    obtain rfl : key' = key := by simpa using hkey
    simp only [popCount, handleLpop]
    split
    · rename_i hlist
      have hnil : (ks.listAt key').take 1 = [] := by simp [hlist]
      exact ⟨listAt_of_take_nil hnil, .inl ⟨hnil, .inr (.inl rfl)⟩⟩
    · rename_i first rest hlist
      refine ⟨fun k => ?_, .inr (.inl ⟨rfl, first, by simp [hlist], rfl⟩)⟩
      rw [listAt_storeList, hlist]
      rfl
  | [_, key', text], hkey =>
    obtain rfl : key' = key := by simpa using hkey
    simp only [popCount, handleLpop]
    split
    · rename_i htext
      have hnil : (ks.listAt key').take ((stoll text).getD 0).toNat = [] := by simp [htext]
      exact ⟨listAt_of_take_nil hnil, .inl ⟨hnil, .inl rfl⟩⟩
    · rename_i count htext
      rw [htext, Option.getD_some]
      split
      · rename_i hneg
        have hnil : (ks.listAt key').take count.toNat = [] := by
          rw [Int.toNat_of_nonpos hneg.le, List.take_zero]
        exact ⟨listAt_of_take_nil hnil, .inl ⟨hnil, .inl rfl⟩⟩
      split
      · rename_i hempty
        have hnil : (ks.listAt key').take count.toNat = [] := by simp [hempty]
        exact ⟨listAt_of_take_nil hnil, .inl ⟨hnil, .inr (.inr rfl)⟩⟩
      split
      · rename_i hzero
        have hnil : (ks.listAt key').take count.toNat = [] := by simp [hzero]
        exact ⟨listAt_of_take_nil hnil, .inr (.inr ⟨rfl, by rw [hnil]⟩)⟩
      · have htake : (ks.listAt key').take (min count.toNat (ks.listAt key').length) =
            (ks.listAt key').take count.toNat := by
          rw [← List.take_take, List.take_length]
        refine ⟨fun k => ?_, .inr (.inr ⟨rfl, by rw [htake]⟩)⟩
        rw [listAt_storeList]
        congr 1
        rcases Nat.le_total count.toNat (ks.listAt key').length with hle | hle
        · rw [Nat.min_eq_left hle]
        · rw [Nat.min_eq_right hle, List.drop_length, List.drop_eq_nil_of_le hle]
  | [], hkey => simp at hkey
  | [_], hkey => simp at hkey
  | _ :: _ :: _ :: _ :: _, hkey =>
    exact ⟨listAt_of_take_nil (List.take_zero), .inl ⟨List.take_zero, .inl rfl⟩⟩

theorem pops_dispatch (ks : Keyspace F) (clock : Readings) (args : List Bytes) {key : Bytes}
    (hkey : args[1]? = some key) :
    Pops ks args key (popCount args) (DataCommand.lpop.dispatch clock args ks) := by
  rcases DataCommand.lpop.dispatch_cases clock args ks with ⟨-, h⟩ |
    ⟨c, k, more, rfl, -, ⟨hz, h⟩ | ⟨-, h⟩⟩ <;> rw [h]
  · exact pops_handleLpop ks args hkey
  · obtain rfl : k = key := by simpa using hkey
    have hnil : ks.listAt k = [] := by
      by_contra hne
      exact keyType_ne_zset_of_listAt hne (clock 0) hz
    have htake : (ks.listAt k).take (popCount (c :: k :: more)) = [] := by simp [hnil]
    refine ⟨fun k' => ?_, .inl ⟨htake, .inl rfl⟩⟩
    rw [listAt_evict]
    exact listAt_of_take_nil htake k'
  · obtain ⟨hlists, hreply⟩ := pops_handleLpop (ks.evict (clock 0) k) (c :: k :: more) hkey
    simp only [listAt_evict] at hlists hreply
    exact ⟨hlists, hreply⟩

theorem listAt_dispatch_lpop (clock : Readings) (ks : Keyspace F) {args : List Bytes} {key : Bytes}
    (hkey : args[1]? ≠ some key) :
    (DataCommand.lpop.dispatch clock args ks).2.listAt key = ks.listAt key := by
  match args with
  | [] => rfl
  | [_] => rfl
  | _ :: k :: _ =>
    rw [(pops_dispatch ks clock _ rfl).lists key, if_neg]
    rintro rfl
    exact hkey rfl

theorem handleLpop_congr {ks ks' : Keyspace F} (h : ks'.dynamicVector = ks.dynamicVector)
    (args : List Bytes) :
    (handleLpop args ks').2.dynamicVector = (handleLpop args ks).2.dynamicVector := by
  have hlist : ∀ key, ks'.listAt key = ks.listAt key := fun key => by rw [listAt, listAt, h]
  have hstore : ∀ key list, (ks'.storeList key list).dynamicVector =
      (ks.storeList key list).dynamicVector := fun key list => by rw [storeList, storeList, h]
  unfold handleLpop
  simp only [hlist]
  repeat' split
  all_goals first | exact h | exact hstore _ _

theorem dynamicVector_dispatch_lpop {ks : Keyspace F} {args : List Bytes} {key : Bytes}
    (hkey : args[1]? = some key) (h : ks.listAt key ≠ []) (clock : Readings) :
    (DataCommand.lpop.dispatch clock args ks).2.dynamicVector =
      (handleLpop args ks).2.dynamicVector := by
  rcases DataCommand.lpop.dispatch_cases clock args ks with ⟨-, he⟩ |
    ⟨c, k, more, rfl, -, ⟨hz, -⟩ | ⟨-, he⟩⟩
  · rw [he]
    rfl
  · obtain rfl : k = key := by simpa using hkey
    exact absurd hz (keyType_ne_zset_of_listAt h (clock 0))
  · rw [he]
    exact handleLpop_congr (evict_dynamicVector ..) _

def pushOnto (command : DataCommand) (values list : List Bytes) : List Bytes :=
  if command = .rpush then list ++ values else values.reverse ++ list

theorem listAt_handle_push {command : DataCommand} (hc : command = .rpush ∨ command = .lpush)
    (clock : Readings) (args : List Bytes) (ks : Keyspace F) (key : Bytes) :
    (command.handle clock args ks).2.listAt key =
      if args[1]? = some key ∧ isError (command.handle clock args ks).1 = false then
        pushOnto command (args.drop 2) (ks.listAt key)
      else ks.listAt key := by
  rcases hc with rfl | rfl
  · rcases handleRpush_cases args ks with ⟨he, h⟩ | ⟨c, k, v, vs, rfl, h⟩
    · simp [DataCommand.handle, he, h]
    · simp only [DataCommand.handle, h, listAt_pushList]
      by_cases hk : k = key
      · subst hk
        simp [pushList, pushOnto]
      · simp [hk]
  · rcases handleLpush_cases args ks with ⟨he, h⟩ | ⟨c, k, v, vs, rfl, h⟩
    · simp [DataCommand.handle, he, h]
    · simp only [DataCommand.handle, h, listAt_pushList]
      by_cases hk : k = key
      · subst hk
        simp [pushList, pushOnto]
      · simp [hk]

theorem listAt_dispatch_push {command : DataCommand} (hc : command = .rpush ∨ command = .lpush)
    (clock : Readings) (args : List Bytes) (ks : Keyspace F) (key : Bytes) :
    (command.dispatch clock args ks).2.listAt key =
      if args[1]? = some key ∧ isError (command.dispatch clock args ks).1 = false then
        pushOnto command (args.drop 2) (ks.listAt key)
      else ks.listAt key := by
  rcases command.dispatch_cases clock args ks with ⟨-, h⟩ | ⟨_, k, _, -, -, ⟨-, h⟩ | ⟨-, h⟩⟩ <;>
    rw [h]
  · exact listAt_handle_push hc clock args ks key
  · simp
  · simpa using listAt_handle_push hc clock.later args (ks.evict (clock 0) k) key

end Keyspace

namespace Call

open Keyspace

theorem pops_pop (data : Keyspace F) (key : Bytes) :
    Pops data [ascii "LPOP", key] key 1 (Call.pop data key).result :=
  pops_handleLpop data [ascii "LPOP", key] rfl

/-- A call that overwrites nothing pushes to the list, or pops from its head, or leaves it. -/
theorem listAt_result (key : Bytes) {c : Call F} (hc : c.overwrites key = false) :
    (c.pushed key = [] ∧ c.data.listAt key = c.returned key ++ c.result.2.listAt key) ∨
    (c.returned key = [] ∧ (c.result.2.listAt key = c.data.listAt key ++ c.pushed key ∨
      c.result.2.listAt key = (c.pushed key).reverse ++ c.data.listAt key)) := by
  cases c with
  | pop data k =>
    refine .inl ⟨rfl, ?_⟩
    rw [(pops_pop data k).lists key]
    by_cases hk : k = key
    · subst hk
      simp only [returned, popsFrom, decide_true, if_true, Call.data, Call.args, popCount,
        List.take_append_drop]
    · simp [returned, popsFrom, Call.data, hk]
  | run clock data args =>
    cases hd : dataCommand args with
    | none =>
      refine .inl ⟨by simp [pushed, hd], ?_⟩
      simp [returned, popsFrom, hd, Call.data, Call.result, execute]
    | some command =>
      have hx : execute clock args data = command.dispatch clock args data := by
        simp only [execute, hd]
      by_cases hpop : command = .lpop
      · subst hpop
        refine .inl ⟨by simp [pushed, hd], ?_⟩
        simp only [Call.data, Call.result, hx]
        by_cases hkey : args[1]? = some key
        · rw [(pops_dispatch data clock args hkey).lists key, if_pos rfl]
          simp [returned, popsFrom, hd, hkey, Call.data, Call.args]
        · simp [returned, popsFrom, hkey, listAt_dispatch_lpop clock data hkey]
      · have hnone : (Call.run clock data args).returned key = [] := by
          simp [returned, popsFrom, hd, hpop]
        refine .inr ⟨hnone, ?_⟩
        simp only [Call.data, Call.result, hx]
        by_cases hpush : command = .rpush ∨ command = .lpush
        · have hpushed : (Call.run clock data args).pushed key = if args[1]? = some key ∧
              isError (command.dispatch clock args data).1 = false then args.drop 2 else [] := by
            simp only [pushed, hd, hx, Option.some.injEq, hpush, true_and]
          rw [listAt_dispatch_push hpush, hpushed]
          split
          · rcases hpush with rfl | rfl
            · exact .inl rfl
            · exact .inr rfl
          · simp
        · have hpushed : (Call.run clock data args).pushed key = [] := by
            simp only [pushed, hd, Option.some.injEq, hpush, false_and, if_false]
          rw [hpushed, List.append_nil]
          left
          rcases command.spares_dispatch clock args data key with ⟨hdest, herr⟩ | ⟨hlist, -⟩
          · simp [overwrites, hd, hdest, hx, herr] at hc
          · rcases hlist with h | h
            · simp only [listAt, Std.ExtTreeMap.getD_eq_getD_getElem?, h]
            · simp only [List.mem_cons, List.not_mem_nil, or_false] at h
              tauto

theorem listAt_of_returned {key : Bytes} {c : Call F} (h : c.returned key ≠ []) :
    c.popsFrom key = true ∧ c.data.listAt key ≠ [] := by
  unfold returned at h
  split at h
  · rename_i hp
    refine ⟨hp, fun hnil => ?_⟩
    simp [hnil] at h
  · exact absurd rfl h

theorem shows_of_popsFrom {key : Bytes} {c : Call F} (h : c.popsFrom key = true) :
    c.Shows key := by
  cases c with
  | pop data k =>
    obtain rfl : k = key := by simpa [popsFrom] using h
    simp [Shows, answer, returned, popsFrom, Call.data, Call.args, popCount]
  | run clock data args =>
    obtain ⟨hd, hkey⟩ : dataCommand args = some .lpop ∧ args[1]? = some key := by
      simpa [popsFrom] using h
    have hreturned : (Call.run clock data args).returned key =
        (data.listAt key).take (popCount args) := by
      simp [returned, h, Call.data, Call.args]
    have hx : execute clock args data = DataCommand.lpop.dispatch clock args data := by
      simp only [execute, hd]
    simp only [Shows, answer, hx, hreturned]
    exact (pops_dispatch data clock args hkey).reply

theorem upperName_of_lpop {args : List Bytes} (h : dataCommand args = some .lpop) :
    upperName args = ascii "LPOP" := by
  have htable : ∀ p ∈ commandTable, p.2 = .data .lpop → p.1 = ascii "LPOP" := by decide
  unfold dataCommand at h
  split at h
  · rename_i command hn
    obtain rfl : command = .lpop := by simpa using h
    exact htable _ (mem_table_of_commandName hn) rfl
  · cases h

/-- The logged form of a call that hands out elements is an `LPOP` of them. -/
theorem logged_of_returned {key : Bytes} {c : Call F} (h : c.returned key ≠ []) :
    c.logged = true ∧ upperName c.args = ascii "LPOP" ∧ c.args[1]? = some key ∧
      ∀ clock, (execute clock c.args c.data).2.dynamicVector = c.result.2.dynamicVector := by
  obtain ⟨hpops, hlist⟩ := listAt_of_returned h
  have hshows := shows_of_popsFrom hpops
  cases c with
  | pop data k =>
    obtain rfl : k = key := by simpa [popsFrom] using hpops
    change data.listAt k ≠ [] at hlist
    have hd : dataCommand [ascii "LPOP", k] = some .lpop := rfl
    obtain ⟨value, rest, hvalue⟩ := List.exists_cons_of_ne_nil hlist
    refine ⟨?_, upperName_of_lpop hd, rfl, fun clock => ?_⟩
    · simp [Call.logged, Call.args, Call.result_pop hvalue, isWriteCommand_lpop]
    · simp only [Call.data, Call.args, Call.result, execute, hd]
      exact dynamicVector_dispatch_lpop rfl hlist clock
  | run clock data args =>
    obtain ⟨hd, hkey⟩ : dataCommand args = some .lpop ∧ args[1]? = some key := by
      simpa [popsFrom] using hpops
    change data.listAt key ≠ [] at hlist
    have hname := upperName_of_lpop hd
    refine ⟨?_, hname, hkey, fun clock' => ?_⟩
    · have herr : isError (execute clock args data).1 = false := by
        rcases hshows with ⟨hnil, -⟩ | ⟨-, v, -, he⟩ | ⟨-, he⟩
        · exact absurd hnil h
        · simp only [answer] at he
          simp [he]
        · simp only [answer] at he
          simp [he]
      have hw : isWriteCommand (ascii "LPOP") = true := by decide
      simp [Call.logged, Call.args, Call.result, hname, hw, herr]
    · simp only [Call.data, Call.args, Call.result, execute, hd]
      rw [dynamicVector_dispatch_lpop hkey hlist clock',
        dynamicVector_dispatch_lpop hkey hlist clock]

end Call

theorem Chain.conserves {key : Bytes} {ks ks' : Keyspace F} {calls : List (Call F)}
    (h : Chain ks calls ks') (hc : ∀ c ∈ calls, c.overwrites key = false) :
    (ks.listAt key ++ calls.flatMap (Call.pushed key)).Perm
      (calls.flatMap (Call.returned key) ++ ks'.listAt key) := by
  induction h with
  | nil ks => simp
  | evict clock k _ ih =>
    have hih := ih hc
    rwa [Keyspace.listAt_evict] at hih
  | call c hdata _ ih =>
    subst hdata
    have hih := ih fun c' h' => hc c' (List.mem_cons_of_mem _ h')
    rcases Call.listAt_result key (hc c List.mem_cons_self) with ⟨hpushed, hlist⟩ | ⟨hreturned, hlist⟩
    · rw [List.flatMap_cons, List.flatMap_cons, hpushed, hlist, List.nil_append, List.append_assoc,
        List.append_assoc]
      exact hih.append_left _
    · rw [List.flatMap_cons, List.flatMap_cons, hreturned, List.nil_append, ← List.append_assoc]
      refine List.Perm.trans (List.Perm.append_right _ ?_) hih
      rcases hlist with h | h <;> rw [h]
      exact List.perm_append_comm.trans ((List.reverse_perm _).symm.append_right _)

end TrueStore
