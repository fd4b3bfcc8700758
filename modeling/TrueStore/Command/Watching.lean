import TrueStore.Command.Transactions
import TrueStore.Resp.RoundTrip

/-! # Watched keys

`WATCH` remembers the string at a key and `EXEC` compares it with the string it finds. The strings
that the key had in between are not looked at, so the check is worth as much as it is certain
that no string comes back.
-/

namespace TrueStore

open RespType

variable {F : Type} [Platform F]

namespace Keyspace

/-- A key without a deadline keeps its string whatever else expires. -/
theorem evict_of_no_expiry {ks : Keyspace F} {key : Bytes} (h : ks.expirations[key]? = none)
    (clock : Clock) (k : Bytes) :
    (ks.evict clock k).expirations[key]? = none ∧
      (ks.evict clock k).storage[key]? = ks.storage[key]? := by
  unfold evict isExpired
  split
  · exact ⟨h, rfl⟩
  · rename_i deadline hd
    have hne : k ≠ key := by
      rintro rfl
      simp [h] at hd
    split
    · simp [Std.ExtTreeMap.getElem?_erase, hne, h]
    · exact ⟨h, rfl⟩

theorem peek_of_no_expiry {ks : Keyspace F} {key : Bytes} (h : ks.expirations[key]? = none)
    (clock : Clock) : (ks.peek clock key).1 = ks.storage[key]? := by
  simp [peek, isExpired, h]

theorem evicts_of_no_expiry {clock : Readings} {ks ks' : Keyspace F} (he : Evicts clock ks ks')
    {key : Bytes} (h : ks.expirations[key]? = none) :
    ks'.expirations[key]? = none ∧ ks'.storage[key]? = ks.storage[key]? := by
  refine he.preserves (P := fun a => a.expirations[key]? = none ∧
    a.storage[key]? = ks.storage[key]?) (fun a i k ha => ?_) ⟨h, rfl⟩
  obtain ⟨hexp, hval⟩ := evict_of_no_expiry ha.1 (clock i) k
  exact ⟨hexp, hval.trans ha.2⟩

end Keyspace

open Keyspace

theorem mem_watchKeys {clock : Readings} {keys : List Bytes} {ks : Keyspace F} {key : Bytes}
    (hk : key ∈ keys) (h : ks.expirations[key]? = none) :
    (key, ks.storage[key]?) ∈ (watchKeys clock keys ks).1 := by
  induction keys generalizing clock ks with
  | nil => cases hk
  | cons k keys ih =>
    simp only [watchKeys]
    rcases List.mem_cons.mp hk with rfl | hk
    · rw [peek_of_no_expiry h]
      exact List.mem_cons_self
    · obtain ⟨hexp, hval⟩ := evict_of_no_expiry h (clock 0) k
      rw [peek_snd, ← hval]
      exact List.mem_cons_of_mem _ (ih hk hexp)

/-- Only a string that is the watched one lets `EXEC` go on. -/
theorem eq_of_watchedDirty {clock : Readings} {watched : List (Bytes × Option Bytes)}
    {ks : Keyspace F} (hd : (watchedDirty clock watched ks).1 = false) {key : Bytes}
    {snapshot : Option Bytes} (hmem : (key, snapshot) ∈ watched)
    (h : ks.expirations[key]? = none) : ks.storage[key]? = snapshot := by
  induction watched generalizing clock ks with
  | nil => cases hmem
  | cons p watched ih =>
    obtain ⟨k, s⟩ := p
    simp only [watchedDirty] at hd
    split at hd
    · cases hd
    · rename_i hpeek
      rw [not_not] at hpeek
      rcases List.mem_cons.mp hmem with he | hmem
      · cases he
        rw [← hpeek, peek_of_no_expiry h]
      · obtain ⟨hexp, hval⟩ := evict_of_no_expiry h (clock 0) k
        rw [peek_snd] at hd
        rw [← hval]
        exact ih hd hmem hexp

def unwatchCommands : List Bytes := ["UNWATCH", "DISCARD", "EXEC", "QUIT", "RESET"].map ascii

theorem watched_dispatchCommand (clock : Readings) (args : List Bytes) (store : Store F)
    (client : ClientState) :
    (dispatchCommand clock args store client).2.2.watched = client.watched := by
  rcases dispatchCommand_cases clock args store client with
    ⟨command, -, hd⟩ | ⟨-, key, value, rest, -, -, hd⟩ | ⟨-, -, happart⟩
  · rw [hd]
  · rw [hd]
  · rw [happart.aside.client]

theorem mem_watched_handleCommand {args : List Bytes} (hn : upperName args ∉ unwatchCommands)
    (clock : ℕ → Readings) (store : Store F) {client : ClientState} {p : Bytes × Option Bytes}
    (hp : p ∈ client.watched) : p ∈ (handleCommand clock args store client).2.2.watched := by
  have hname : ∀ name ∈ unwatchCommands, upperName args ≠ name := fun name hmem he =>
    hn (he ▸ hmem)
  unfold handleCommand
  split
  · exact hp
  · unfold runCommand
    dsimp only
    rw [if_neg (not_or.mpr ⟨hname _ (by decide), hname _ (by decide)⟩),
      if_neg (hname (ascii "UNWATCH") (by decide)), if_neg (hname (ascii "DISCARD") (by decide)),
      if_neg (hname (ascii "EXEC") (by decide))]
    repeat' split
    · exact hp
    · exact hp
    · exact hp
    · exact hp
    · exact hp
    · exact List.mem_append_left _ hp
    · exact hp
    · rw [watched_dispatchCommand]
      exact hp

theorem handleCommand_watch {args : List Bytes} (hn : upperName args = ascii "WATCH")
    {clock : ℕ → Readings} {store : Store F} {client : ClientState}
    (hok : (handleCommand clock args store client).1 = ok) :
    handleCommand clock args store client =
      (ok, { store with toKeyspace := (watchKeys (clock 0) args.tail store.toKeyspace).2 },
        { client with
          watched := client.watched ++ (watchKeys (clock 0) args.tail store.toKeyspace).1 }) := by
  unfold handleCommand at hok ⊢
  split at hok
  · rename_i reply hr
    have herr := isError_of_refusal hr
    rw [show reply = ok from hok] at herr
    cases herr
  · unfold runCommand at hok ⊢
    dsimp only at hok ⊢
    rw [hn, if_neg (by decide), if_neg (by decide), if_pos rfl] at hok ⊢
    split at hok
    · cases hok
    · rename_i hlen
      rw [if_neg hlen]
      split at hok
      · cases hok
      · rename_i hin
        rw [if_neg hin]

theorem not_watchedDirty_of_exec {args : List Bytes} (hn : upperName args = ascii "EXEC")
    {clock : ℕ → Readings} {store : Store F} {client : ClientState}
    (herr : isError (handleCommand clock args store client).1 = false)
    (hnull : (handleCommand clock args store client).1 ≠ nullArray.toBytes) :
    (watchedDirty (clock 0) client.watched store.toKeyspace).1 = false := by
  unfold handleCommand at herr hnull
  split at herr
  · rename_i reply hr
    rw [isError_of_refusal hr] at herr
    cases herr
  · rename_i hr
    rw [hr] at hnull
    by_cases hin : client.inMulti = true
    · dsimp only at hnull
      rw [runCommand_exec hn _ _ hin, execTransaction] at hnull
      dsimp only at hnull
      split at hnull
      · exact absurd rfl hnull
      · rename_i hd
        simpa using hd
    · unfold runCommand at herr
      dsimp only at herr
      rw [hn, if_neg (by decide), if_neg (by decide), if_neg (by decide), if_neg (by decide),
        if_neg (by decide), if_pos rfl, if_pos (by simpa using hin)] at herr
      cases herr

theorem getLast?_cons_append {α : Type*} {a b : α} {l : List α} (h : (a :: l).getLast? = some b)
    (l' : List α) : (a :: (l ++ l')).getLast? = (b :: l').getLast? := by
  rw [← List.cons_append, List.getLast?_append, h, List.getLast?_cons]
  cases l'.getLast? <;> rfl

theorem Chain.value {key : Bytes} {ks ks' : Keyspace F} {calls : List (Call F)}
    (h : Chain ks calls ks') (hks : ks.expirations[key]? = none)
    (hc : ∀ c ∈ calls, c.result.2.expirations[key]? = none) :
    ks'.expirations[key]? = none ∧ (ks.storage[key]? :: calls.map fun c =>
      c.result.2.storage[key]?).getLast? = some ks'.storage[key]? := by
  induction h with
  | nil ks => exact ⟨hks, rfl⟩
  | evict clock k _ ih =>
    obtain ⟨hexp, hval⟩ := evict_of_no_expiry hks clock k
    obtain ⟨hexp', hlast⟩ := ih hexp hc
    exact ⟨hexp', by rw [← hlast, ← hval]⟩
  | call c hdata _ ih =>
    obtain ⟨hexp', hlast⟩ := ih (hc c List.mem_cons_self)
      fun c' h' => hc c' (List.mem_cons_of_mem _ h')
    exact ⟨hexp', by simpa using hlast⟩

namespace World

def visits (w : World F) : Turn F → List (Keyspace F)
  | .command fd clock args =>
    (commandCalls clock args w.store (w.clients fd)).map fun c => c.result.2
  | .elsewhere change => [(change w.store).toKeyspace]

def visitsAll : List (Turn F) → World F → List (Keyspace F)
  | [], _ => []
  | t :: turns, w => w.visits t ++ visitsAll turns (w.play t)

/-- The strings that a key has, one after the other; a key may have none. -/
def values (key : Bytes) (turns : List (Turn F)) (w : World F) : List (Option Bytes) :=
  w.store.storage[key]? :: (visitsAll turns w).map fun ks => ks.storage[key]?

def NoExpiry (key : Bytes) (turns : List (Turn F)) (w : World F) : Prop :=
  w.store.expirations[key]? = none ∧ ∀ ks ∈ visitsAll turns w, ks.expirations[key]? = none

theorem visitsAll_append (turns turns' : List (Turn F)) (w : World F) :
    visitsAll (turns ++ turns') w = visitsAll turns w ++ visitsAll turns' (playAll turns w) := by
  induction turns generalizing w with
  | nil => rfl
  | cons t turns ih => simp [visitsAll, ih]

theorem value_play {key : Bytes} {w : World F} (hs : w.store.Settled) {t : Turn F}
    (h : NoExpiry key [t] w) :
    (w.play t).store.expirations[key]? = none ∧
      (values key [t] w).getLast? = some (w.play t).store.storage[key]? := by
  obtain ⟨hw, hv⟩ := h
  simp only [visitsAll, List.append_nil] at hv
  cases t with
  | command fd clock args =>
    have hchain := (traced_handleCommand clock args hs.block (w.clients fd)).chain
    obtain ⟨hexp, hlast⟩ := hchain.value hw fun c hc => hv _ (List.mem_map_of_mem hc)
    refine ⟨hexp, ?_⟩
    have hvalues : values key [.command fd clock args] w = w.store.storage[key]? ::
        (commandCalls clock args w.store (w.clients fd)).map fun c => c.result.2.storage[key]? := by
      simp [values, visitsAll, visits, List.map_map, Function.comp_def]
    rw [hvalues, hlast]
    rfl
  | elsewhere change =>
    exact ⟨hv _ (List.mem_singleton.mpr rfl), rfl⟩

theorem value_playAll {key : Bytes} {w : World F} (hs : w.store.Settled) {turns : List (Turn F)}
    (h : NoExpiry key turns w) :
    (playAll turns w).store.expirations[key]? = none ∧
      (values key turns w).getLast? = some (playAll turns w).store.storage[key]? := by
  induction turns generalizing w with
  | nil => exact ⟨h.1, rfl⟩
  | cons t turns ih =>
    obtain ⟨hw, hv⟩ := h
    obtain ⟨hexp, hlast⟩ := value_play (t := t) hs
      ⟨hw, fun ks hks => hv ks (by simpa [visitsAll] using .inl (by simpa [visitsAll] using hks))⟩
    obtain ⟨hexp', hlast'⟩ := ih (w.settled_play t)
      ⟨hexp, fun ks hks => hv ks (List.mem_append_right _ hks)⟩
    refine ⟨hexp', ?_⟩
    simp only [values, visitsAll, List.append_nil, List.map_append] at hlast hlast' ⊢
    rw [getLast?_cons_append hlast]
    exact hlast'

/-- No string comes back after another one, and a key that had one never has none again. -/
def NoReturn (history : List (Option Bytes)) : Prop :=
  ∀ x y, [x, y, x].Sublist history → y = x

theorem NoReturn.mono {history history' : List (Option Bytes)} (h : NoReturn history)
    (hsub : history'.Sublist history) : NoReturn history' :=
  fun x y hxy => h x y (hxy.trans hsub)

/-- A history that ends as it starts is constant. -/
theorem NoReturn.eq_of_mem {x : Option Bytes} {rest : List (Option Bytes)}
    (h : NoReturn (x :: rest)) (hlast : (x :: rest).getLast? = some x) {y : Option Bytes}
    (hy : y ∈ x :: rest) : y = x := by
  rcases List.mem_cons.mp hy with rfl | hy
  · rfl
  · obtain ⟨before, after, rfl⟩ := List.append_of_mem hy
    rcases List.eq_nil_or_concat after with rfl | ⟨after, z, rfl⟩
    · simpa [List.getLast?_cons] using hlast
    · obtain rfl : z = x := by simpa [List.getLast?_cons] using hlast
      refine h z y (List.Sublist.cons_cons z ?_)
      refine List.Sublist.trans ?_ (List.sublist_append_right before _)
      refine List.Sublist.cons_cons y ?_
      simp

theorem mem_watched_playAll {fd : ℤ} {p : Bytes × Option Bytes} {turns : List (Turn F)}
    (hkeep : ∀ clock args, Turn.command fd clock args ∈ turns → upperName args ∉ unwatchCommands)
    {w : World F} (hp : p ∈ (w.clients fd).watched) : p ∈ ((playAll turns w).clients fd).watched := by
  induction turns generalizing w with
  | nil => exact hp
  | cons t turns ih =>
    refine ih (fun clock args h => hkeep clock args (List.mem_cons_of_mem _ h)) ?_
    by_cases hby : t.by? = some fd
    · cases t with
      | command fd' clock args =>
        obtain rfl : fd' = fd := by simpa [Turn.by?] using hby
        simp only [play, Function.update_self]
        exact mem_watched_handleCommand (hkeep clock args List.mem_cons_self) clock _ hp
      | elsewhere change => cases hby
    · rw [play_clients_of_ne hby]
      exact hp

theorem play_watch {w : World F} {fd : ℤ} {clock : ℕ → Readings} {args : List Bytes}
    (hn : upperName args = ascii "WATCH") (hok : w.reply fd clock args = ok) {key : Bytes}
    (hkey : key ∈ args.tail) (hexp : w.store.expirations[key]? = none) :
    (key, w.store.storage[key]?) ∈ ((w.play (.command fd clock args)).clients fd).watched ∧
      (w.play (.command fd clock args)).store.expirations[key]? = none ∧
      (w.play (.command fd clock args)).store.storage[key]? = w.store.storage[key]? := by
  have hw := handleCommand_watch hn hok
  obtain ⟨hexp', hval⟩ := evicts_of_no_expiry
    (evicts_watchKeys args.tail (clock 0) w.store.toKeyspace) hexp
  refine ⟨?_, ?_, ?_⟩
  · simp only [play, Function.update_self, handle, hw]
    exact List.mem_append_right _ (mem_watchKeys hkey hexp)
  · simp only [play, handle, hw]
    exact hexp'
  · simp only [play, handle, hw]
    exact hval

/-- Between a `WATCH` and an `EXEC` that is not aborted the watched string does not change. -/
theorem unchanged_of_exec {w : World F} (hs : w.store.Settled) {before between after : List (Turn F)}
    {fd : ℤ} {clock clock' : ℕ → Readings} {watch exec : List Bytes} {key : Bytes}
    (hexp : NoExpiry key (before ++ .command fd clock watch ::
      (between ++ .command fd clock' exec :: after)) w)
    (hret : NoReturn (values key (before ++ .command fd clock watch ::
      (between ++ .command fd clock' exec :: after)) w))
    (hwatch : upperName watch = ascii "WATCH") (hkey : key ∈ watch.tail)
    (hok : (playAll before w).reply fd clock watch = ok)
    (hkeep : ∀ clock args, Turn.command fd clock args ∈ between →
      upperName args ∉ unwatchCommands)
    (hexec : upperName exec = ascii "EXEC")
    (herr : isError ((playAll (before ++ .command fd clock watch :: between) w).reply fd clock'
      exec) = false)
    (hnull : (playAll (before ++ .command fd clock watch :: between) w).reply fd clock' exec ≠
      nullArray.toBytes) :
    ∀ v ∈ values key between ((playAll before w).play (.command fd clock watch)),
      v = (playAll before w).store.storage[key]? := by
  obtain ⟨hw, hv⟩ := hexp
  rw [visitsAll_append, visitsAll, visitsAll_append] at hv
  obtain ⟨hexp₁, hlast₁⟩ := value_playAll hs
    ⟨hw, fun ks hks => hv ks (List.mem_append_left _ hks)⟩
  obtain ⟨hmem, hexp₂, hval₂⟩ := play_watch hwatch hok hkey hexp₁
  set w₁ := playAll before w with hw₁
  set w₂ := w₁.play (.command fd clock watch) with hw₂
  obtain ⟨hexp₃, hlast₃⟩ := value_playAll (settled_play w₁ _)
    ⟨hexp₂, fun ks hks => hv ks (List.mem_append_right _ (List.mem_append_right _
      (List.mem_append_left _ hks)))⟩
  have hw₃ : playAll (before ++ .command fd clock watch :: between) w = playAll between w₂ := by
    rw [playAll_append, playAll_cons]
  rw [hw₃] at herr hnull
  have hclean := eq_of_watchedDirty (not_watchedDirty_of_exec hexec herr hnull)
    (mem_watched_playAll hkeep hmem) hexp₃
  have hsub : (values key between w₂).Sublist (values key (before ++ .command fd clock watch ::
      (between ++ .command fd clock' exec :: after)) w) := by
    have hfirst : [w₂.store.storage[key]?].Sublist (values key before w) := by
      rw [List.singleton_sublist, hval₂]
      exact List.mem_of_getLast? hlast₁
    have hall : values key (before ++ .command fd clock watch ::
        (between ++ .command fd clock' exec :: after)) w = values key before w ++
        ((w₁.visits (.command fd clock watch)).map (fun ks => ks.storage[key]?) ++
        ((visitsAll between w₂).map (fun ks => ks.storage[key]?) ++
        (visitsAll (.command fd clock' exec :: after) (playAll between w₂)).map
          (fun ks => ks.storage[key]?))) := by
      simp only [values, visitsAll_append, visitsAll, List.map_append, List.cons_append, hw₁, hw₂]
    rw [hall]
    exact hfirst.append ((List.sublist_append_left _ _).trans (List.sublist_append_right _ _))
  have hlast : (values key between w₂).getLast? = some w₂.store.storage[key]? := by
    rw [hlast₃, hclean, hval₂]
  intro v hmemv
  rw [← hval₂]
  exact (hret.mono hsub).eq_of_mem hlast hmemv

end World

end TrueStore
