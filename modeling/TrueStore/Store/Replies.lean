import TrueStore.Store.Services
import TrueStore.Resp.Grammar

/-! # The replies of the handlers

A handler answers with exactly one complete reply, or with none when it asks to be blocked. The
texts of errors are fixed, except for coordinates out of range, which are printed back.
-/

namespace TrueStore

open RespType

variable {F : Type} [Platform F]

namespace Geo

theorem isReply_error {text : Bytes} (h : OneLine text) : IsReply (error text) :=
  isReply_errorReply (.append (by decide) h)

/-- Coordinates are refused with their values in the text. -/
theorem isReply_parseCoordinates (hprint : ∀ x : F, OneLine (Platform.toStringF x))
    {longitude latitude failure : Bytes}
    (h : parseCoordinates (F := F) longitude latitude = .error failure) : IsReply failure := by
  unfold parseCoordinates at h
  split at h
  · rename_i lon lat _ _
    split at h
    · cases h
      have htext : OneLine (ascii "invalid longitude,latitude pair ") := by decide
      have hcomma : OneLine (ascii ",") := by decide
      exact isReply_error (((htext.append (hprint lon)).append hcomma).append (hprint lat))
    · cases h
  · cases h
    exact isReply_error (by decide)

theorem isReply_parsePoints (hprint : ∀ x : F, OneLine (Platform.toStringF x))
    {args : List Bytes} {failure : Bytes} (h : parsePoints (F := F) args = .error failure) :
    IsReply failure := by
  induction args using parsePoints.induct (F := F) with
  | case1 lon lat member rest failure' hc =>
    rw [parsePoints, hc] at h
    cases h
    exact isReply_parseCoordinates hprint hc
  | case2 lon lat member rest point hc failure' hp ih =>
    rw [parsePoints, hc, hp] at h
    cases h
    exact ih hp
  | case3 lon lat member rest point hc entries hp ih =>
    rw [parsePoints, hc, hp] at h
    cases h
  | case4 args hne =>
    rw [parsePoints] at h
    · cases h
    · exact hne

theorem isReply_searchOption (hprint : ∀ x : F, OneLine (Platform.toStringF x))
    {o : SearchOptions F} {option : Bytes} {rest : List Bytes} {failure : Bytes}
    (h : searchOption o option rest = .error failure) : IsReply failure := by
  rcases searchOption_cases o option rest with ⟨o', skip, ho, -⟩ | ⟨f, hf, hp⟩ | ⟨text, htext, hf⟩
  · rw [ho] at h
    cases h
  · rw [hf] at h
    cases h
    exact isReply_parseCoordinates hprint hp
  · have hlines : ∀ text ∈ optionTexts, OneLine text := by decide
    rw [hf] at h
    cases h
    exact isReply_error (hlines text htext)

theorem isReply_searchOptions (hprint : ∀ x : F, OneLine (Platform.toStringF x))
    {o : SearchOptions F} {skip : ℕ} {args : List Bytes} {failure : Bytes}
    (h : searchOptions o skip args = .error failure) : IsReply failure := by
  induction args generalizing o skip with
  | nil =>
    unfold searchOptions at h
    cases h
  | cons arg rest ih =>
    cases skip with
    | succ skip => exact ih h
    | zero =>
      unfold searchOptions at h
      split at h
      · rename_i hs
        cases h
        exact isReply_searchOption hprint hs
      · exact ih h

theorem isReply_matchReply (o : SearchOptions F) (m : Match F) : IsReply (matchReply o m).toBytes := by
  unfold matchReply
  split
  · simp
  · refine isReply_nestedArray fun element helement => ?_
    rcases List.mem_cons.mp helement with rfl | helement
    · simp
    · simp only [List.mem_append] at helement
      rcases helement with (helement | helement) | helement <;> split at helement <;>
        simp only [List.mem_singleton, List.not_mem_nil] at helement <;> subst helement <;>
        simp [coordinatesReply]

theorem isReply_searchReply (o : SearchOptions F) (set : Option (SortedSet F)) :
    IsReply (searchReply o set) := by
  unfold searchReply
  repeat' split
  all_goals first | exact isReply_error (by decide) | skip
  · simp
  · refine isReply_nestedArray fun element helement => ?_
    obtain ⟨m, -, rfl⟩ := List.mem_map.mp helement
    exact isReply_matchReply o m

end Geo

namespace Keyspace

@[simp] theorem isReply_invalidExpire : IsReply invalidExpire := isReply_errorReply (by decide)

@[simp] theorem isReply_notInteger : IsReply notInteger := isReply_errorReply (by decide)

@[simp] theorem isReply_syntaxError : IsReply syntaxError := isReply_errorReply (by decide)

@[simp] theorem isReply_notPositive : IsReply notPositive := isReply_errorReply (by decide)

@[simp] theorem isReply_invalidStreamId : IsReply invalidStreamId :=
  isReply_errorReply (by decide)

@[simp] theorem isReply_streamAddError (e : StreamAddError) : IsReply (streamAddError e) := by
  cases e <;> exact isReply_errorReply (by decide)

@[simp] theorem isReply_notFloat : IsReply notFloat := isReply_errorReply (by decide)

@[simp] theorem isReply_offsetError : IsReply offsetError := isReply_errorReply (by decide)

theorem isReply_checked (wrong : Bool × Keyspace F) {body : Keyspace F → Bytes × Keyspace F}
    (h : ∀ ks, IsReply (body ks).1) : IsReply (checked wrong body).1 := by
  rcases checked_cases wrong body with ⟨-, he⟩ | ⟨-, he⟩ <;> rw [he]
  · exact isReply_wrongType
  · exact h _

theorem isReply_entriesToResp (entries : List (Bytes × StreamEntryData)) :
    IsReply (entriesToResp entries).toBytes := by
  refine isReply_nestedArray fun element helement => ?_
  obtain ⟨e, -, rfl⟩ := List.mem_map.mp helement
  refine isReply_nestedArray fun element helement => ?_
  simp only [List.mem_cons, List.not_mem_nil, or_false] at helement
  rcases helement with rfl | rfl <;> simp

theorem isReply_rangeCount {more : List Bytes} {reply : Bytes}
    (h : rangeCount more = .error reply) : IsReply reply := by
  unfold rangeCount at h
  repeat' split at h
  all_goals cases h
  all_goals simp

theorem isReply_tryXread {ks : Keyspace F} {keys : List Bytes} {ids : List StreamID} {count : ℕ}
    {reply : Bytes} (h : ks.tryXread keys ids count = some reply) : IsReply reply := by
  unfold tryXread at h
  split at h
  · cases h
  · rename_i hreplies
    cases h
    refine isReply_nestedArray fun element helement => ?_
    obtain ⟨p, -, hp⟩ := List.mem_filterMap.mp helement
    unfold readStream at hp
    repeat' split at hp
    all_goals cases hp
    refine isReply_nestedArray fun element helement => ?_
    simp only [List.mem_cons, List.not_mem_nil, or_false] at helement
    rcases helement with rfl | rfl
    · simp
    · exact isReply_entriesToResp _

theorem isReply_handleZadd (clock : Readings) (args : List Bytes) (ks : Keyspace F) :
    IsReply (handleZadd clock args ks).1 := by
  unfold handleZadd
  repeat' split
  · exact isReply_arityError (by decide)
  · simp
  · exact isReply_checked _ fun _ => isReply_integer _
  · exact isReply_arityError (by decide)

theorem isReply_handleZrank (clock : Readings) (args : List Bytes) (ks : Keyspace F) :
    IsReply (handleZrank clock args ks).1 := by
  unfold handleZrank
  split
  · refine isReply_checked _ fun ks => ?_
    simp only [zrankReply]
    repeat' split
    all_goals simp
  · exact isReply_arityError (by decide)

theorem isReply_handleZrange (clock : Readings) (args : List Bytes) (ks : Keyspace F) :
    IsReply (handleZrange clock args ks).1 := by
  have hrange : ∀ (key first last : Bytes) (withScores : Bool),
      IsReply (zrange clock key first last withScores ks).1 := by
    intro key first last withScores
    unfold zrange
    split
    · refine isReply_checked _ fun ks => ?_
      simp only [zrangeReply]
      split <;> simp
    · simp
  unfold handleZrange
  repeat' split
  · exact hrange _ _ _ _
  · simp
  · exact hrange _ _ _ _
  · exact isReply_arityError (by decide)

theorem isReply_handleZcard (clock : Readings) (args : List Bytes) (ks : Keyspace F) :
    IsReply (handleZcard clock args ks).1 := by
  unfold handleZcard
  split
  · exact isReply_checked _ fun _ => isReply_integer _
  · exact isReply_arityError (by decide)

theorem isReply_handleZscore (clock : Readings) (args : List Bytes) (ks : Keyspace F) :
    IsReply (handleZscore clock args ks).1 := by
  unfold handleZscore
  split
  · refine isReply_checked _ fun ks => ?_
    simp only [zscoreReply]
    repeat' split
    all_goals simp
  · exact isReply_arityError (by decide)

theorem isReply_handleZrem (clock : Readings) (args : List Bytes) (ks : Keyspace F) :
    IsReply (handleZrem clock args ks).1 := by
  unfold handleZrem
  split
  · refine isReply_checked _ fun ks => ?_
    split <;> simp
  · exact isReply_arityError (by decide)

theorem isReply_handleGeoadd (hprint : ∀ x : F, OneLine (Platform.toStringF x))
    (clock : Readings) (args : List Bytes) (ks : Keyspace F) :
    IsReply (handleGeoadd clock args ks).1 := by
  unfold handleGeoadd
  split
  · split
    · exact isReply_arityError (by decide)
    · dsimp only
      split
      · exact Geo.isReply_error (by decide)
      · split
        · rename_i hp
          exact Geo.isReply_parsePoints hprint hp
        · refine isReply_checked _ fun ks => ?_
          simp only [addGeo]
          split <;> simp
  · exact isReply_arityError (by decide)

theorem isReply_handleGeopos (clock : Readings) (args : List Bytes) (ks : Keyspace F) :
    IsReply (handleGeopos clock args ks).1 := by
  unfold handleGeopos
  split
  · refine isReply_checked _ fun ks => isReply_nestedArray fun element helement => ?_
    obtain ⟨member, -, rfl⟩ := List.mem_map.mp helement
    split
    · simp
    · simp [Geo.coordinatesReply]
  · exact isReply_arityError (by decide)

theorem isReply_handleGeodist (clock : Readings) (args : List Bytes) (ks : Keyspace F) :
    IsReply (handleGeodist clock args ks).1 := by
  have hdist : ∀ (key first second : Bytes) (unit : F),
      IsReply (geodist clock key first second unit ks).1 := by
    intro key first second unit
    unfold geodist
    split
    · exact Geo.isReply_error (by decide)
    · refine isReply_checked _ fun ks => ?_
      dsimp only
      split <;> simp
  unfold handleGeodist
  split
  · exact hdist _ _ _ _
  · exact hdist _ _ _ _
  · exact isReply_arityError (by decide)

theorem isReply_handleGeosearch (hprint : ∀ x : F, OneLine (Platform.toStringF x))
    (clock : Readings) (args : List Bytes) (ks : Keyspace F) :
    IsReply (handleGeosearch clock args ks).1 := by
  unfold handleGeosearch
  split
  · split
    · exact isReply_arityError (by decide)
    · refine isReply_checked _ fun ks => ?_
      dsimp only
      split
      · rename_i ho
        exact Geo.isReply_searchOptions hprint ho
      · exact Geo.isReply_searchReply _ _
  · exact isReply_arityError (by decide)

theorem isReply_handleSet (clock : Readings) (args : List Bytes) (ks : Keyspace F) :
    IsReply (handleSet clock args ks).1 := by
  unfold handleSet
  repeat' split
  all_goals first | exact isReply_arityError (by decide) | simp

theorem isReply_handleGet (clock : Readings) (args : List Bytes) (ks : Keyspace F) :
    IsReply (handleGet clock args ks).1 := by
  unfold handleGet
  split
  · dsimp only
    split
    · simp
    · split <;> simp
  · exact isReply_arityError (by decide)

theorem isReply_handleStrlen (clock : Readings) (args : List Bytes) (ks : Keyspace F) :
    IsReply (handleStrlen clock args ks).1 := by
  unfold handleStrlen
  split
  · exact isReply_checked _ fun _ => isReply_integer _
  · exact isReply_arityError (by decide)

theorem isReply_handleIncr (args : List Bytes) (ks : Keyspace F) :
    IsReply (handleIncr args ks).1 := by
  unfold handleIncr
  repeat' split
  all_goals first | exact isReply_arityError (by decide) | simp

theorem isReply_handleSetbit (clock : Readings) (args : List Bytes) (ks : Keyspace F) :
    IsReply (handleSetbit clock args ks).1 := by
  unfold handleSetbit
  repeat' split
  · simp
  · exact isReply_errorReply (by decide)
  · exact isReply_checked _ fun _ => isReply_integer _
  · exact isReply_arityError (by decide)

theorem isReply_handleGetbit (clock : Readings) (args : List Bytes) (ks : Keyspace F) :
    IsReply (handleGetbit clock args ks).1 := by
  unfold handleGetbit
  repeat' split
  · simp
  · exact isReply_checked _ fun _ => isReply_integer _
  · exact isReply_arityError (by decide)

theorem isReply_handleBitcount (clock : Readings) (args : List Bytes) (ks : Keyspace F) :
    IsReply (handleBitcount clock args ks).1 := by
  have hrange : ∀ (key : Bytes) (start stop : ℤ) (bitRange : Bool),
      IsReply (bitcountRange clock key start stop bitRange ks).1 := fun key start stop bitRange =>
    isReply_checked _ fun _ => isReply_integer _
  unfold handleBitcount
  repeat' split
  all_goals first | exact hrange _ _ _ _ | exact isReply_arityError (by decide) | simp

theorem isReply_handleBitop (clock : Readings) (args : List Bytes) (ks : Keyspace F) :
    IsReply (handleBitop clock args ks).1 := by
  unfold handleBitop
  split
  · split
    · simp
    · split
      · exact isReply_errorReply (by decide)
      · dsimp only
        split <;> simp
  · exact isReply_arityError (by decide)

theorem isReply_handleRpush (args : List Bytes) (ks : Keyspace F) :
    IsReply (handleRpush args ks).1 := by
  unfold handleRpush
  split
  · exact isReply_integer _
  · exact isReply_arityError (by decide)

theorem isReply_handleLpush (args : List Bytes) (ks : Keyspace F) :
    IsReply (handleLpush args ks).1 := by
  unfold handleLpush
  split
  · exact isReply_integer _
  · exact isReply_arityError (by decide)

theorem isReply_handleLrange (args : List Bytes) (ks : Keyspace F) :
    IsReply (handleLrange args ks).1 := by
  unfold handleLrange
  repeat' split
  all_goals first | exact isReply_arityError (by decide) | simp

theorem isReply_handleLlen (args : List Bytes) (ks : Keyspace F) :
    IsReply (handleLlen args ks).1 := by
  unfold handleLlen
  split
  · exact isReply_integer _
  · exact isReply_arityError (by decide)

theorem isReply_handleLpop (args : List Bytes) (ks : Keyspace F) :
    IsReply (handleLpop args ks).1 := by
  unfold handleLpop
  repeat' split
  all_goals first | exact isReply_arityError (by decide) | simp

theorem isReply_handleType (clock : Readings) (args : List Bytes) (ks : Keyspace F) :
    IsReply (handleType clock args ks).1 := by
  unfold handleType
  split
  · refine isReply_simpleString ?_
    cases (ks.keyType (clock 0) _).1 <;> decide
  · exact isReply_arityError (by decide)

theorem isReply_handleKeys (clock : Readings) (args : List Bytes) (ks : Keyspace F) :
    IsReply (handleKeys clock args ks).1 := by
  unfold handleKeys
  split
  · exact isReply_array _
  · exact isReply_arityError (by decide)

theorem isReply_handleXadd (clock : Readings) (args : List Bytes) (ks : Keyspace F) :
    IsReply (handleXadd clock args ks).1 := by
  rcases args with _ | ⟨c, _ | ⟨key, _ | ⟨id, fields⟩⟩⟩
  · exact isReply_arityError (by decide)
  · exact isReply_arityError (by decide)
  · exact isReply_arityError (by decide)
  · by_cases hf : fields.length < 2 ∨ fields.length % 2 ≠ 0
    · rw [handleXadd, if_pos hf]
      exact isReply_arityError (by decide)
    · rw [handleXadd_eq clock c key id hf]
      split <;> simp

theorem isReply_handleXrange (args : List Bytes) (ks : Keyspace F) :
    IsReply (handleXrange args ks).1 := by
  unfold handleXrange
  repeat' split
  · exact isReply_arityError (by decide)
  · rename_i h
    exact isReply_rangeCount h
  · simp
  · exact isReply_entriesToResp _
  · simp
  · exact isReply_arityError (by decide)

end Keyspace

namespace Store

/-- One reply, or none from a command that blocks. -/
def Answered (r : Bytes × Store F) : Prop :=
  IsReply r.1 ∨ r.1 = [] ∧ r.2.pendingBlock.isSome = true

theorem isReply_aclRule {u : AclUser} {rule failure : Bytes}
    (h : aclRule F u rule = .error failure) : IsReply failure := by
  unfold aclRule at h
  dsimp only at h
  repeat' split at h
  all_goals cases h
  all_goals exact isReply_errorReply (by decide)

theorem isReply_aclRules {u : AclUser} {rules : List Bytes} {failure : Bytes}
    (h : aclRules F u rules = .error failure) : IsReply failure := by
  induction rules generalizing u with
  | nil => cases h
  | cons rule rules ih =>
    unfold aclRules at h
    split at h
    · rename_i hrule
      cases h
      exact isReply_aclRule hrule
    · exact ih h

theorem isReply_aclGetUser (s : Store F) : IsReply s.aclGetUser := by
  refine isReply_nestedArray fun element helement => ?_
  simp only [List.mem_cons, List.not_mem_nil, or_false] at helement
  rcases helement with rfl | rfl | rfl | rfl | rfl | rfl | rfl | rfl | rfl | rfl | rfl | rfl <;> simp

theorem isReply_handleAcl (args : List Bytes) (s : Store F) : IsReply (s.handleAcl args).1 := by
  unfold handleAcl
  split
  · split
    · split
      · exact isReply_arityError (by decide)
      · simp
    · split
      · split
        · split
          · simp
          · exact isReply_aclGetUser s
        · exact isReply_arityError (by decide)
      · split
        · exact isReply_errorReply (by decide)
        · split
          · exact isReply_arityError (by decide)
          · split
            · exact isReply_errorReply (by decide)
            · split
              · rename_i hrules
                exact isReply_aclRules hrules
              · simp
  · exact isReply_arityError (by decide)

theorem isReply_handleAuth (args : List Bytes) (s : Store F) (client : ClientState) :
    IsReply (s.handleAuth args client).1 := by
  have hauth : ∀ user password, IsReply (s.authenticate user password client).1 := by
    intro user password
    unfold authenticate
    split
    · exact isReply_errorReply (by decide)
    · simp
  unfold handleAuth
  repeat' split
  · exact isReply_errorReply (by decide +kernel)
  · exact hauth _ _
  · exact hauth _ _
  · exact isReply_arityError (by decide)

theorem isReply_handlePublish (args : List Bytes) (s : Store F) :
    IsReply (s.handlePublish args).1 := by
  unfold handlePublish
  repeat' split
  all_goals first | exact isReply_arityError (by decide) | simp

theorem isReply_handleConfigGet (args : List Bytes) (s : Store F) :
    IsReply (s.handleConfigGet args).1 := by
  unfold handleConfigGet
  repeat' split
  all_goals first | exact isReply_arityError (by decide) | simp

theorem isReply_parseTimeout {text failure : Bytes}
    (h : parseTimeout (F := F) text = .error failure) : IsReply failure := by
  unfold parseTimeout at h
  repeat' split at h
  all_goals cases h
  all_goals exact isReply_errorReply (by decide)

theorem answered_handleBlpop (args : List Bytes) (s : Store F) : Answered (s.handleBlpop args) := by
  unfold handleBlpop
  dsimp only
  repeat' split
  · rename_i ht
    exact .inl (isReply_parseTimeout ht)
  · exact .inl isReply_wrongType
  · exact .inl (isReply_array _)
  · exact .inr ⟨rfl, rfl⟩
  · exact .inl (isReply_arityError (by decide))

theorem isReply_readOptions {o : ReadOptions F} {args : List Bytes} {failure : Bytes}
    (h : readOptions o args = .error failure) : IsReply failure := by
  fun_induction readOptions o args with
  | case1 | case3 | case4 =>
    cases h
    exact Keyspace.isReply_syntaxError
  | case2 => cases h
  | case5 =>
    cases h
    split
    · exact isReply_errorReply (by decide)
    · exact Keyspace.isReply_notInteger
  | case6 _ _ _ _ _ _ _ _ _ ih => exact ih h
  | case7 =>
    cases h
    exact isReply_errorReply (by decide)
  | case8 _ _ _ _ _ _ _ _ _ _ ih => exact ih h

theorem isReply_readIds {s : Store F} {pairs : List (Bytes × Bytes)} {failure : Bytes}
    (h : s.readIds pairs = .error failure) : IsReply failure := by
  induction pairs with
  | nil => cases h
  | cons p pairs ih =>
    unfold readIds at h
    split at h
    · cases h
      simp
    · split at h
      · cases h
        simp
      · split at h
        · rename_i hrest
          cases h
          exact ih hrest
        · cases h

theorem answered_handleXread (args : List Bytes) (s : Store F) : Answered (s.handleXread args) := by
  unfold handleXread
  dsimp only
  split
  · rename_i ho
    exact .inl (isReply_readOptions ho)
  · split
    · exact .inl (isReply_errorReply (by decide))
    · split
      · rename_i hids
        exact .inl (isReply_readIds hids)
      · split
        · rename_i hreply
          exact .inl (Keyspace.isReply_tryXread hreply)
        · split
          · exact .inr ⟨rfl, rfl⟩
          · exact .inl isReply_nullArray

theorem answered_handleWait (args : List Bytes) (s : Store F) : Answered (s.handleWait args) := by
  unfold handleWait
  split
  · split
    · exact .inr ⟨rfl, rfl⟩
    · exact .inl Keyspace.isReply_notInteger
  · exact .inl (isReply_arityError (by decide))

end Store

end TrueStore
