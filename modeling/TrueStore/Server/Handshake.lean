import TrueStore.Server.Streaming
import TrueStore.Text.Signed

/-! # The handshake of a replica

After its `PSYNC` a replica reads the line with the offset and the database, and not a byte more:
what the primary sends next is left on the connection for the event loop. The identifier that the
line shows has no line ends, since a server never changes it.
-/

namespace TrueStore.Server

open RespType

variable {F : Type} [Platform F]

def fixed (s : Server F) : Bytes × ℤ × Bool := (s.store.masterReplid, s.replicaOffset, s.halted)

section Fixed

variable {s : Server F} {env : Env}

theorem fixed_deliverAll (messages : List (ℤ × Bytes)) (s : Server F) :
    (deliverAll env messages s).fixed = s.fixed := by
  induction messages generalizing s with
  | nil => rfl
  | cons m messages ih =>
    unfold deliverAll
    split
    · dsimp only
      rw [ih]
      split <;> rfl
    · exact ih s

theorem fixed_sendToAll (payload : Bytes) (fds : List ℤ) (s : Server F) :
    (sendToAll env payload fds s).fixed = s.fixed := by
  induction fds generalizing s with
  | nil => rfl
  | cons fd fds ih =>
    unfold sendToAll
    dsimp only
    rw [ih]
    split <;> rfl

theorem fixed_propagate (fd : ℤ) (args : List Bytes) (s : Server F) :
    (s.propagate env fd args).fixed = s.fixed :=
  fixed_sendToAll (encode args) s.replicas.keys _

theorem fixed_propagateAll (fd : ℤ) (queue : List (List Bytes)) (s : Server F) :
    (propagateAll env fd queue s).fixed = s.fixed := by
  induction queue generalizing s with
  | nil => rfl
  | cons args queue ih => exact (ih _).trans (fixed_propagate fd args s)

theorem fixed_logPending (inMulti : Bool) (s : Server F) :
    (s.logPending inMulti).fixed = s.fixed := by
  have hfold : ∀ (pending : List (List Bytes)) (s : Server F),
      (pending.foldl (fun s args => s.append args) s).fixed = s.fixed := by
    intro pending
    induction pending with
    | nil => exact fun s => rfl
    | cons args pending ih => exact fun s => ih (s.append args)
  unfold logPending
  dsimp only
  split
  · rfl
  · exact hfold _ s

theorem fixed_publish (env : Env) (fd : ℤ) (args : List Bytes) (inMulti : Bool) (reply : Bytes)
    (s : Server F) :
    (s.publish env fd args inMulti reply).fixed = s.fixed := by
  have hown : (s.logOwn args inMulti reply).fixed = s.fixed := by
    unfold logOwn
    split <;> rfl
  unfold publish
  dsimp only
  refine (fixed_propagateAll fd _ _).trans ?_
  refine (fixed_logPending inMulti _).trans ?_
  split
  · rw [fixed_propagate, hown]
  · exact hown

theorem fixed_respond (env : Env) (fd : ℤ) (reply : Bytes) (s : Server F) :
    (s.respond env fd reply).2.fixed = s.fixed := by
  unfold respond
  split
  · unfold block
    split
    · dsimp only
      split
      · rfl
      · exact fixed_sendToAll _ _ _
    · rfl
  · split
    · rfl
    · dsimp only
      split <;> rfl

theorem fixed_command (hb : s.store.pendingBlock = none) (fd : ℤ) (args : List Bytes) :
    (s.command env fd args).fixed = s.fixed := by
  unfold command
  split
  · rfl
  rename_i client _
  split
  · unfold acknowledge
    split <;> rfl
  have hhandle : (s.handle env 0 fd args).2.fixed = s.fixed :=
    congrArg (·, s.replicaOffset, s.halted) (kept_handleCommand (env.clock 0) args hb _).1.replid
  have hregister : ((s.handle env 0 fd args).2.register fd args client.inMulti
      (s.handle env 0 fd args).1).fixed = s.fixed := by
    unfold register
    split <;> exact hhandle
  have hresp := (fixed_respond env fd (s.handle env 0 fd args).1 _).trans
    ((fixed_publish env fd args client.inMulti (s.handle env 0 fd args).1 _).trans
      hregister)
  dsimp only
  split
  · refine Eq.trans ?_ hresp
    unfold finish deliverMessages
    dsimp only
    split
    · exact fixed_deliverAll _ _
    · exact fixed_deliverAll _ _
  · exact hresp

theorem fixed_serveWaiter (w : Waiter) (s : Server F) :
    (s.serveWaiter env w).2.fixed = s.fixed := by
  have hfold : ∀ (pending : List (List Bytes)) (s : Server F),
      (pending.foldl (fun s args => (s.append args).propagate env w.fd args) s).fixed = s.fixed := by
    intro pending
    induction pending with
    | nil => exact fun s => rfl
    | cons args pending ih =>
      exact fun s => (ih _).trans (fixed_propagate w.fd args (s.append args))
  unfold serveWaiter
  split
  · split <;> rfl
  · split
    · rfl
    · rename_i key value store hpop
      obtain ⟨-, rest, -, rfl⟩ := Store.tryBlpop_eq_some hpop
      exact hfold _ _
  · split <;> rfl

theorem fixed_serveAll (ws : List Waiter) (s : Server F) :
    (serveAll env ws s).2.fixed = s.fixed := by
  induction ws generalizing s with
  | nil => rfl
  | cons w ws ih => exact (ih _).trans (fixed_serveWaiter w s)

theorem fixed_expireAll (ws : List Waiter) (s : Server F) :
    (expireAll env ws s).fixed = s.fixed := by
  induction ws generalizing s with
  | nil => rfl
  | cons w ws ih =>
    unfold expireAll
    split
    · rw [ih]
      split <;> rfl
    · exact ih s

theorem fixed_step (hb : s.store.pendingBlock = none) (env : Env) {event : Event}
    (hl : event.isLocal = true) :
    (s.step env event).fixed = s.fixed := by
  unfold step
  split
  · rfl
  · cases event with
    | accept fd =>
      dsimp only
      unfold Server.accept
      split <;> rfl
    | request fd r =>
      dsimp only
      split
      · rfl
      · exact fixed_command hb fd r.args
    | hangup fd =>
      dsimp only
      split <;> rfl
    | chunk bytes => cases hl
    | masterClosed => cases hl
    | round => exact (fixed_expireAll _ (s.serveWaiters env)).trans (fixed_serveAll _ s)

end Fixed

/-- `read_line`: a line with its end, and the bytes that follow. -/
def readLine (input : Bytes) : Bytes × Bytes :=
  match findCrlf input with
  | some pos => (input.take (pos + 2), input.drop (pos + 2))
  | none => (input, [])

/-- The offset that the replica starts from: the number after the last blank of the line. -/
def initialOffset (line : Bytes) : ℤ :=
  if 32 ∈ line then (stoll (line.reverse.takeWhile (· ≠ 32)).reverse).getD 0 else 0

/-- `connect_to_master` from the reply to its `PSYNC` on: the offset and the bytes that are left on
the connection, unless the handshake fails. -/
def handshake (input : Bytes) : Option (ℤ × Bytes) :=
  let line := readLine input
  let header := readLine line.2
  if line.1 = [] ∨ header.1.head? ≠ some 36 then none
  else match stoll header.1.tail with
    | none => none
    | some size =>
      if size < 0 ∨ header.2.length < size.toNat then none
      else some (initialOffset line.1, header.2.drop size.toNat)

theorem readLine_append {line : Bytes} (h : 13 ∉ line) (rest : Bytes) :
    readLine (line ++ (crlf ++ rest)) = (line ++ crlf, rest) := by
  have hlen : line.length + 2 = (line ++ crlf).length := by simp [crlf]
  unfold readLine
  rw [findCrlf_of_not_mem h]
  dsimp only
  rw [hlen, ← List.append_assoc, List.take_left, List.drop_left]

theorem handshake_psync {store : Store F} (h : 13 ∉ store.masterReplid) (args : List Bytes)
    (rest : Bytes) :
    handshake ((store.handlePsync args).1 ++ rest) =
      some (initialOffset (43 :: store.fullresync ++ crlf), rest) := by
  have hline : (13 : UInt8) ∉ 43 :: store.fullresync := by
    simp only [Store.fullresync, List.mem_cons, List.mem_append, not_or]
    exact ⟨by decide, ⟨⟨by decide, h⟩, by decide⟩, not_mem_decimalInt (by decide) (by decide)⟩
  have hheader : (13 : UInt8) ∉ 36 :: decimal Store.emptyRdb.length := by
    simp only [List.mem_cons, not_or]
    exact ⟨by decide, not_mem_decimal (by decide)⟩
  have hinput : (store.handlePsync args).1 ++ rest = (43 :: store.fullresync) ++ (crlf ++
      ((36 :: decimal Store.emptyRdb.length) ++ (crlf ++ (Store.emptyRdb ++ rest)))) := by
    simp [Store.handlePsync, RespType.toBytes]
  have hsize : stoll (decimal Store.emptyRdb.length ++ crlf) =
      some (Store.emptyRdb.length : ℤ) :=
    stoll_decimal_append (by decide +kernel) (.inr ⟨13, [10], rfl, by decide⟩)
  unfold handshake
  rw [hinput, readLine_append hline]
  dsimp only
  rw [readLine_append hheader]
  dsimp only
  rw [if_neg (by simp), List.cons_append, List.tail_cons, hsize]
  dsimp only
  rw [if_neg (by simp), Int.toNat_natCast, List.drop_left]

/-- The replica starts from the offset of its primary, as long as a `long long` holds it. -/
theorem initialOffset_fullresync {store : Store F} {n : ℕ} (hn : store.masterReplOffset = n)
    (hlt : n < 2 ^ 63) : initialOffset (43 :: store.fullresync ++ crlf) = n := by
  have hline : 43 :: store.fullresync ++ crlf =
      (43 :: (ascii "FULLRESYNC " ++ store.masterReplid)) ++ 32 :: (decimal n ++ crlf) := by
    have hblank : ascii " " = [32] := by decide
    simp [Store.fullresync, hn, hblank, decimalInt]
  have hrest : ∀ b ∈ (decimal n ++ crlf).reverse, decide (b ≠ 32) = true := by
    intro b hb
    rw [List.mem_reverse, List.mem_append] at hb
    rw [decide_eq_true_iff]
    rintro rfl
    rcases hb with hb | hb
    · exact not_mem_decimal (by decide) hb
    · exact absurd hb (by decide)
  have htail : ((43 :: store.fullresync ++ crlf).reverse.takeWhile (· ≠ 32)).reverse =
      decimal n ++ crlf := by
    rw [hline, List.reverse_append, List.reverse_cons, List.append_assoc,
      List.takeWhile_append_of_pos hrest]
    simp
  have hmem : 32 ∈ 43 :: store.fullresync ++ crlf := by
    rw [hline]
    simp
  have hnumber : stoll (decimal n ++ crlf) = some (n : ℤ) :=
    stoll_decimal_append hlt (.inr ⟨13, [10], rfl, by decide⟩)
  unfold initialOffset
  rw [if_pos hmem, htail, hnumber]
  rfl

end TrueStore.Server
