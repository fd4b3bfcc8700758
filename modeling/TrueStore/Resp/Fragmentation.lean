import TrueStore.Resp.Scan
import TrueStore.Framing.Incremental

/-! # Request framing and fragmentation

Command boundaries never depend on how a stream arrives, because they are fixed by the
declared lengths. The payloads do: a bulk length whose end wraps around `size_t` passes
the bounds check and then swallows whatever happens to be buffered. A stream is framed
independently of its fragmentation exactly when no complete command in it declares such
a length.
-/

namespace TrueStore

open Framing

/-- The receive loop: append a chunk, take commands while there are any, stop at an error. -/
def receive (grants : ℕ → Bool) (chunks : List Bytes) : List (List Bytes) × Except Exn Bytes :=
  feedAll (parseCommand grants) (fun args _ taken => (taken ++ [args], none)) [] [] chunks

inductive Boundary (grants : ℕ → Bool) (stream : Bytes) : Bytes → Prop where
  | start : Boundary grants stream stream
  | next {b : Bytes} {n : ℕ} {hs : List (ℕ × ℕ)} : Boundary grants stream b →
      scanCommand grants b = some (n, hs) → Boundary grants stream (b.drop n)

/-- Framing of the stream does not depend on its fragmentation: every two ways of cutting it
give the same commands and the same outcome, a returned command is returned for every
continuation of its own bytes, and an exception is thrown for every continuation. -/
def FragmentationInvariant (grants : ℕ → Bool) (stream : Bytes) : Prop :=
  (∀ cs cs' : List Bytes, cs.flatten = stream → cs'.flatten = stream →
    receive grants cs = receive grants cs') ∧
  ∀ b, Boundary grants stream b →
    (∀ args n, parseCommand grants b = .ok (some (args, n)) → n ≤ b.length ∧
      ∀ s, parseCommand grants (b.take n ++ s) = .ok (some (args, n))) ∧
    ∀ e, parseCommand grants b = .error e → ∀ s, parseCommand grants (b ++ s) = .error e

/-- No complete command of the stream declares a bulk length whose end overflows. -/
def NoOverflow (grants : ℕ → Bool) (stream : Bytes) : Prop :=
  ∀ b n hs, Boundary grants stream b → scanCommand grants b = some (n, hs) →
    ∀ h ∈ hs, ¬ Overflows h

theorem Boundary.suffix {grants : ℕ → Bool} {stream b : Bytes} (h : Boundary grants stream b) :
    b <:+ stream := by
  induction h with
  | start => exact List.suffix_rfl
  | next _ _ ih => exact (List.drop_suffix _ _).trans ih

theorem Boundary.trans {grants : ℕ → Bool} {stream b c : Bytes} (h : Boundary grants stream b)
    (h' : Boundary grants b c) : Boundary grants stream c := by
  induction h' with
  | start => exact h
  | next _ hscan ih => exact .next ih hscan

theorem settled_of_noOverflow {grants : ℕ → Bool} {stream : Bytes} (hsize : stream.length < 2 ^ 63)
    (h : NoOverflow grants stream) : Settled (parseCommand grants) stream where
  done q item n hq hp := by
    obtain ⟨s, rfl⟩ := hq
    have hlen : q.length < 2 ^ 64 := by simp only [List.length_append] at hsize; omega
    obtain ⟨hs, hscan⟩ := scanCommand_of_parseCommand hlen hp
    have hle := scanCommand_le hscan
    have ho := h _ n hs .start (scanCommand_append hscan s)
    refine ⟨hle.1, hle.2, ?_⟩
    have := parseCommand_take_append hlen hp hscan ho hle.2 s
    rwa [List.take_length] at this
  fail q e hq hp := by
    obtain ⟨s, rfl⟩ := hq
    exact parseCommand_error_append hp s

/-- A stream without overflows is steady, by induction on what is left of it. -/
theorem steady_of_noOverflow {grants : ℕ → Bool} {stream : Bytes} (hsize : stream.length < 2 ^ 63)
    (h : NoOverflow grants stream) : Steady (parseCommand grants) stream := by
  induction hl : stream.length using Nat.strong_induction_on generalizing stream with
  | _ l ih =>
    have hset := settled_of_noOverflow hsize h
    rcases hp : parseCommand grants stream with e | _ | ⟨args, n⟩
    · exact .stop hset fun p => by rw [hp]; simp
    · exact .stop hset fun p => by rw [hp]; simp
    · obtain ⟨hs, hscan⟩ := scanCommand_of_parseCommand (by omega) hp
      have hle := scanCommand_le hscan
      refine .item hset hp (ih (stream.drop n).length ?_ ?_ ?_ rfl)
      · rw [List.length_drop]; omega
      · rw [List.length_drop]; omega
      · intro b m hs' hb
        exact h b m hs' ((Boundary.next .start hscan).trans hb)

/-- Framing is independent of fragmentation exactly when no complete command of the stream
declares a bulk length whose end overflows `size_t`. -/
theorem fragmentationInvariant_iff_noOverflow (grants : ℕ → Bool) (stream : Bytes)
    (hsize : stream.length < 2 ^ 63) :
    FragmentationInvariant grants stream ↔ NoOverflow grants stream := by
  constructor
  · rintro ⟨-, h⟩ b n hs hb hscan
    have hlen : b.length < 2 ^ 63 := lt_of_le_of_lt hb.suffix.length_le hsize
    obtain ⟨hd, hh, he, rfl⟩ := scanCommand_eq_some_iff.mp hscan
    have hle := scanCommand_le hscan
    have hp := parseCommand_of_scan hh he (by omega)
    -- the same command, with one more byte behind it
    have hp' := ((h b hb).1 _ _ hp).2 (b.drop (hd.1 + (hs.map bulkSpan).sum) ++ [0])
    rw [← List.append_assoc, List.take_append_drop] at hp'
    have hdrop : (b ++ [0]).drop hd.1 = b.drop hd.1 ++ [0] :=
      List.drop_append_of_le_length (scanHeader_le hh).2
    rw [parseCommand_of_scan (scanHeader_append hh [0])
      (by rw [hdrop]; exact scanElements_append he [0]) (by omega), hdrop] at hp'
    refine not_overflows_of_payloads_eq he ?_ ?_
    · rw [List.length_drop]; omega
    · simpa using hp'
  · intro h
    refine ⟨fun cs cs' hcs hcs' => ?_, fun b hb => ⟨fun args n hp => ?_, fun e hp s => ?_⟩⟩
    · exact Steady.feedAll_congr rfl (hcs ▸ steady_of_noOverflow hsize h) (hcs.trans hcs'.symm) []
    · have hlen : b.length < 2 ^ 64 := by
        have := hb.suffix.length_le
        omega
      obtain ⟨hs, hscan⟩ := scanCommand_of_parseCommand hlen hp
      exact ⟨(scanCommand_le hscan).2, fun s =>
        parseCommand_take_append hlen hp hscan (h b n hs hb hscan) le_rfl s⟩
    · exact parseCommand_error_append hp s

theorem fragmentationInvariant_iff_noOverflow_ping :
    (encode [ascii "PING"]).length < 2 ^ 63 ∧
      (FragmentationInvariant unlimited (encode [ascii "PING"]) ↔
        NoOverflow unlimited (encode [ascii "PING"])) :=
  ⟨by decide, fragmentationInvariant_iff_noOverflow _ _ (by decide)⟩

/-- The bulk length `-1` wraps around: `*1 $-1 XYZ` is the command `XYZ` when it arrives at
once, and the command `X` when its last two bytes arrive later. -/
theorem receive_depends_on_fragmentation :
    ¬ ∀ (grants : ℕ → Bool) (stream : Bytes), stream.length < 2 ^ 63 →
      FragmentationInvariant grants stream := by
  intro h
  have hsame := (h unlimited (ascii "*1\r\n$-1\r\nXYZ") (by decide)).1
    [ascii "*1\r\n$-1\r\nXYZ"] [ascii "*1\r\n$-1\r\nX", ascii "YZ"] rfl rfl
  have hfst := congrArg Prod.fst hsame
  revert hfst
  decide

end TrueStore
