import TrueStore.Store.Bitmaps

/-! # Geospatial commands

A position is stored as the score of a sorted-set member: the bits of the scaled
longitude and latitude, interleaved.
-/

namespace TrueStore

open RespType

variable {F : Type} [Platform F]

structure Coordinates (F : Type) where
  longitude : F
  latitude : F

namespace Geo

open Platform

def maxLatitude : F := ofRat 85.05112878

def coordinateScale : F := ofRat 67108864

def earthRadius : F := ofRat 6372797.560856

/-- `std::numbers::pi / 180`: the double nearest to pi, divided. -/
def radians : F := div (ofRat 3.141592653589793) (ofRat 180)

def minLatitude : F := ofRat (-85.05112878)

/-- `std::clamp`. -/
def clamp (x low high : F) : F := if x < low then low else if high < x then high else x

def error (text : Bytes) : Bytes := errorReply (ascii "ERR " ++ text)

def parseCoordinates (longitude latitude : Bytes) : Except Bytes (Coordinates F) :=
  match parseScore (F := F) longitude, parseScore (F := F) latitude with
  | some lon, some lat =>
    if lon < ofRat (-180) ∨ ofRat 180 < lon ∨ lat < minLatitude ∨ maxLatitude < lat then
      .error (error (ascii "invalid longitude,latitude pair " ++ toStringF lon ++ ascii "," ++
        toStringF lat))
    else .ok ⟨lon, lat⟩
  | _, _ => .error (error (ascii "value is not a valid float"))

/-- The bits of two numbers, interleaved, `bits` of each. -/
def interleave (bits : ℕ) (longitude latitude : UInt64) : UInt64 :=
  (List.range bits).foldl
    (fun score bit =>
      score ||| (((longitude >>> UInt64.ofNat bit) &&& 1) <<< UInt64.ofNat (2 * bit + 1)) |||
        (((latitude >>> UInt64.ofNat bit) &&& 1) <<< UInt64.ofNat (2 * bit)))
    0

/-- Every second bit of a number, from bit `first` on. -/
def deinterleave (hash : UInt64) (first : ℕ) : UInt64 :=
  (List.range 32).foldl
    (fun value bit =>
      value ||| (((hash >>> UInt64.ofNat (2 * bit + first)) &&& 1) <<< UInt64.ofNat bit))
    0

def encodeCoordinates (point : Coordinates F) : UInt64 :=
  let longitude := toU64 (mul (div (add point.longitude (ofRat 180)) (ofRat 360)) coordinateScale)
  let latitude := toU64 (mul (div (add point.latitude maxLatitude) (mul (ofRat 2) maxLatitude))
    (coordinateScale : F))
  interleave 27 longitude latitude

/-- The middle of the cell `cell` of an axis that starts at `low` and is `width` long. -/
def cellCentre (low width : F) (cell : UInt64) : F :=
  let edge (n : UInt64) : F := add low (mul (div (ofU64 n) coordinateScale) width)
  div (add (edge cell) (edge (cell + 1))) (ofRat 2)

def decodeCoordinates (score : F) : Option (Coordinates F) :=
  if isInf score ∨ score < ofRat 0 ∨ ofRat (2 ^ 63) ≤ score then none
  else
    let hash := toU64 score
    some {
      longitude := clamp (cellCentre (ofRat (-180)) (ofRat 360) (deinterleave hash 1))
        (ofRat (-180)) (ofRat 180)
      latitude := clamp
        (cellCentre minLatitude (mul (ofRat 2) maxLatitude) (deinterleave hash 0))
        minLatitude maxLatitude }

def coordinatesReply (point : Coordinates F) : RespType :=
  array [toChars point.longitude, toChars point.latitude]

def unitInMeters (unit : Bytes) : F :=
  if toUpper unit = ascii "M" then ofRat 1
  else if toUpper unit = ascii "KM" then ofRat 1000
  else if toUpper unit = ascii "MI" then ofRat 1609.34
  else if toUpper unit = ascii "FT" then ofRat 0.3048
  else ofRat 0

def unitError : Bytes := error (ascii "unsupported unit provided. please use M, KM, FT, MI")

def distanceInMeters (first second : Coordinates F) : F :=
  let half (x : F) : F := div (mul x radians) (ofRat 2)
  let sinLat := sin (half (sub second.latitude first.latitude))
  let sinLon := sin (half (sub second.longitude first.longitude))
  let haversine := add (mul sinLat sinLat)
    (mul (mul (mul (cos (mul first.latitude radians)) (cos (mul second.latitude radians))) sinLon)
      sinLon)
  mul (mul (ofRat 2) earthRadius) (asin (sqrt (clamp haversine (ofRat 0) (ofRat 1))))

/-- The leading options of `GEOADD`. -/
structure AddOptions where
  nx : Bool := false
  xx : Bool := false
  ch : Bool := false

def addOptions (o : AddOptions) : List Bytes → AddOptions × List Bytes
  | [] => (o, [])
  | arg :: rest =>
    if toUpper arg = ascii "NX" then addOptions { o with nx := true } rest
    else if toUpper arg = ascii "XX" then addOptions { o with xx := true } rest
    else if toUpper arg = ascii "CH" then addOptions { o with ch := true } rest
    else (o, arg :: rest)

def parsePoints : List Bytes → Except Bytes (List (F × Bytes))
  | longitude :: latitude :: member :: rest =>
    match parseCoordinates (F := F) longitude latitude with
    | .error failure => .error failure
    | .ok point =>
      match parsePoints rest with
      | .error failure => .error failure
      | .ok entries => .ok ((ofU64 (encodeCoordinates point), member) :: entries)
  | _ => .ok []

/-- The loop of `GEOADD`: added and changed members, and the new set. -/
def addPoints (o : AddOptions) : List (F × Bytes) → SortedSet F → ℕ × ℕ × SortedSet F
  | [], set => (0, 0, set)
  | (score, member) :: entries, set =>
    if (o.nx ∧ set.scores.contains member) ∨ (o.xx ∧ !set.scores.contains member) ∨
        set.scores[member]? = some score then
      addPoints o entries set
    else
      let r := set.add score member
      let rest := addPoints o entries r.2
      (r.1.toNat + rest.1, rest.2.1 + 1, rest.2.2)

/-- The parsed options of `GEOSEARCH`. -/
structure SearchOptions (F : Type) where
  center : Option (Coordinates F) := none
  fromMember : Option Bytes := none
  radius : Option F := none
  unit : F
  sort : ℤ := 0
  count : ℤ := 0
  any : Bool := false
  withDist : Bool := false
  withHash : Bool := false
  withCoord : Bool := false

/-- One option of `GEOSEARCH`: the options with it and the number of arguments that it takes. -/
def searchOption (o : SearchOptions F) (option : Bytes) (rest : List Bytes) :
    Except Bytes (SearchOptions F × ℕ) :=
  if option = ascii "FROMLONLAT" ∧ 2 ≤ rest.length ∧ o.fromMember.isNone then
    match parseCoordinates (rest.getD 0 []) (rest.getD 1 []) with
    | .error failure => .error failure
    | .ok point => .ok ({ o with center := some point }, 2)
  else if option = ascii "FROMMEMBER" ∧ 1 ≤ rest.length ∧ o.center.isNone then
    .ok ({ o with fromMember := some (rest.getD 0 []) }, 1)
  else if option = ascii "BYRADIUS" ∧ 2 ≤ rest.length then
    match parseScore (F := F) (rest.getD 0 []) with
    | none => .error (error (ascii "need numeric radius"))
    | some value =>
      if isInf value then .error (error (ascii "need numeric radius"))
      else if value < ofRat 0 then .error (error (ascii "radius cannot be negative"))
      else if unitInMeters (F := F) (rest.getD 1 []) = ofRat 0 then .error unitError
      else .ok ({ o with radius := some value, unit := unitInMeters (rest.getD 1 []) }, 2)
  else if option = ascii "ASC" then .ok ({ o with sort := 1 }, 0)
  else if option = ascii "DESC" then .ok ({ o with sort := -1 }, 0)
  else if option = ascii "COUNT" ∧ 1 ≤ rest.length then
    match fromCharsI64 (rest.getD 0 []) with
    | none => .error (error (ascii "value is not an integer or out of range"))
    | some count =>
      if count ≤ 0 then .error (error (ascii "COUNT must be > 0"))
      else .ok ({ o with count := count }, 1)
  else if option = ascii "ANY" then .ok ({ o with any := true }, 0)
  else if option = ascii "WITHDIST" then .ok ({ o with withDist := true }, 0)
  else if option = ascii "WITHHASH" then .ok ({ o with withHash := true }, 0)
  else if option = ascii "WITHCOORD" then .ok ({ o with withCoord := true }, 0)
  else .error (error (ascii "syntax error"))

/-- The option loop of `GEOSEARCH`; `skip` arguments belong to the last option. -/
def searchOptions (o : SearchOptions F) : ℕ → List Bytes → Except Bytes (SearchOptions F)
  | _, [] => .ok o
  | skip + 1, _ :: rest => searchOptions o skip rest
  | 0, arg :: rest =>
    match searchOption o (toUpper arg) rest with
    | .error failure => .error failure
    | .ok (o', skip) => searchOptions o' skip rest

structure Match (F : Type) where
  member : Bytes
  score : F
  point : Coordinates F
  distance : F

def matchEntry (o : SearchOptions F) (center : Coordinates F) (radius : F) (e : F × Bytes) :
    Option (Match F) :=
  match decodeCoordinates e.1 with
  | none => none
  | some point =>
    let distance := div (distanceInMeters center point) o.unit
    if radius < distance then none else some ⟨e.2, e.1, point, distance⟩

/-- The matches in reply order: with `ANY` the scan stops at the count, otherwise the count
applies after sorting. -/
def searchMatches (o : SearchOptions F) (center : Coordinates F) (radius : F) (set : SortedSet F) :
    List (Match F) :=
  let found := set.ordered.toList.filterMap (matchEntry o center radius)
  let found := if o.any then found.take o.count.toNat else found
  let sort := if o.count ≠ 0 ∧ !o.any ∧ o.sort = 0 then 1 else o.sort
  let sorted :=
    if 0 < sort then found.mergeSort fun a b => a.distance ≤ b.distance
    else if sort < 0 then found.mergeSort fun a b => b.distance ≤ a.distance
    else found
  if o.count ≠ 0 then sorted.take o.count.toNat else sorted

def matchReply (o : SearchOptions F) (m : Match F) : RespType :=
  if !o.withDist ∧ !o.withHash ∧ !o.withCoord then bulkString m.member
  else nestedArray (bulkString m.member ::
    ((if o.withDist then [bulkString (toCharsFixed m.distance)] else []) ++
      (if o.withHash then [integer (toI64 m.score)] else []) ++
      (if o.withCoord then [coordinatesReply m.point] else [])))

def searchCenter (o : SearchOptions F) (set : SortedSet F) : Option (Coordinates F) :=
  match o.fromMember with
  | none => o.center
  | some member =>
    match set.scores[member]? with
    | none => o.center
    | some score => decodeCoordinates score

def searchReply (o : SearchOptions F) (set : Option (SortedSet F)) : Bytes :=
  if o.center.isNone ∧ o.fromMember.isNone then
    error (ascii "exactly one of FROMMEMBER or FROMLONLAT can be specified for GEOSEARCH")
  else match o.radius with
    | none => error (ascii "BYRADIUS is required for GEOSEARCH")
    | some radius =>
      if o.any ∧ o.count = 0 then error (ascii "the ANY argument requires COUNT argument")
      else match set with
        | none => (array []).toBytes
        | some set =>
          match searchCenter o set with
          | none => error (ascii "could not decode requested zset member")
          | some center =>
            (nestedArray ((searchMatches o center radius set).map (matchReply o))).toBytes

/-- The fixed texts in which the options of `GEOSEARCH` are refused. -/
def optionTexts : List Bytes :=
  [ascii "need numeric radius", ascii "radius cannot be negative",
    ascii "unsupported unit provided. please use M, KM, FT, MI",
    ascii "value is not an integer or out of range", ascii "COUNT must be > 0",
    ascii "syntax error"]

/-- An option is taken, and changes the count to a positive one only, or is refused: for its
coordinates or in a fixed text. -/
theorem searchOption_cases (o : SearchOptions F) (option : Bytes) (rest : List Bytes) :
    (∃ o' skip, searchOption o option rest = .ok (o', skip) ∧
        (o'.count = o.count ∨ 0 < o'.count)) ∨
      (∃ failure, searchOption o option rest = .error failure ∧
        parseCoordinates (F := F) (rest.getD 0 []) (rest.getD 1 []) = .error failure) ∨
      ∃ text ∈ optionTexts, searchOption o option rest = .error (error text) := by
  unfold searchOption
  by_cases hcoord : option = ascii "FROMLONLAT" ∧ 2 ≤ rest.length ∧ o.fromMember.isNone
  · rw [if_pos hcoord]
    cases hp : parseCoordinates (F := F) (rest.getD 0 []) (rest.getD 1 []) with
    | error failure => exact .inr (.inl ⟨failure, rfl, rfl⟩)
    | ok point => exact .inl ⟨_, _, rfl, .inl rfl⟩
  rw [if_neg hcoord]
  by_cases hmember : option = ascii "FROMMEMBER" ∧ 1 ≤ rest.length ∧ o.center.isNone
  · rw [if_pos hmember]
    exact .inl ⟨_, _, rfl, .inl rfl⟩
  rw [if_neg hmember]
  by_cases hradius : option = ascii "BYRADIUS" ∧ 2 ≤ rest.length
  · rw [if_pos hradius]
    cases parseScore (F := F) (rest.getD 0 []) with
    | none => exact .inr (.inr ⟨_, by simp [optionTexts], rfl⟩)
    | some value =>
      dsimp only
      split
      · exact .inr (.inr ⟨_, by simp [optionTexts], rfl⟩)
      · split
        · exact .inr (.inr ⟨_, by simp [optionTexts], rfl⟩)
        · split
          · exact .inr (.inr ⟨_, by simp [optionTexts], rfl⟩)
          · exact .inl ⟨_, _, rfl, .inl rfl⟩
  rw [if_neg hradius]
  by_cases hasc : option = ascii "ASC"
  · rw [if_pos hasc]
    exact .inl ⟨_, _, rfl, .inl rfl⟩
  rw [if_neg hasc]
  by_cases hdesc : option = ascii "DESC"
  · rw [if_pos hdesc]
    exact .inl ⟨_, _, rfl, .inl rfl⟩
  rw [if_neg hdesc]
  by_cases hcount : option = ascii "COUNT" ∧ 1 ≤ rest.length
  · rw [if_pos hcount]
    cases fromCharsI64 (rest.getD 0 []) with
    | none => exact .inr (.inr ⟨_, by simp [optionTexts], rfl⟩)
    | some count =>
      dsimp only
      split
      · exact .inr (.inr ⟨_, by simp [optionTexts], rfl⟩)
      · rename_i hpositive
        exact .inl ⟨_, _, rfl, .inr (not_le.mp hpositive)⟩
  rw [if_neg hcount]
  -- the flags leave the count alone
  repeat' split
  all_goals first | exact .inl ⟨_, _, rfl, .inl rfl⟩ | skip
  exact .inr (.inr ⟨_, by simp [optionTexts], rfl⟩)

end Geo

namespace Keyspace

open Geo

/-- `GEOADD` once its arguments are parsed. -/
def addGeo (o : AddOptions) (key : Bytes) (entries : List (F × Bytes)) (ks : Keyspace F) :
    Bytes × Keyspace F :=
  if o.xx ∧ !ks.sortedSets.contains key then ((integer 0).toBytes, ks)
  else
    let r := addPoints o entries (ks.setAt key)
    ((integer (if o.ch then r.2.1 else r.1)).toBytes,
      { ks with sortedSets := ks.sortedSets.insert key r.2.2 })

def handleGeoadd (clock : Readings) (args : List Bytes) (ks : Keyspace F) : Bytes × Keyspace F :=
  match args with
  | _ :: key :: rest =>
    if rest.length < 3 then (arityError "geoadd", ks)
    else
      let o := addOptions {} rest
      if (o.1.nx ∧ o.1.xx) ∨ o.2 = [] ∨ o.2.length % 3 ≠ 0 then (error (ascii "syntax error"), ks)
      else match parsePoints (F := F) o.2 with
        | .error failure => (failure, ks)
        | .ok entries => checked (ks.wrongSortedSetType (clock 0) key) (addGeo o.1 key entries)
  | _ => (arityError "geoadd", ks)

def position (ks : Keyspace F) (key member : Bytes) : Option (Coordinates F) :=
  match ks.sortedSets[key]? with
  | none => none
  | some set =>
    match set.scores[member]? with
    | none => none
    | some score => decodeCoordinates score

def handleGeopos (clock : Readings) (args : List Bytes) (ks : Keyspace F) : Bytes × Keyspace F :=
  match args with
  | _ :: key :: members =>
    checked (ks.wrongSortedSetType (clock 0) key) fun ks =>
      ((nestedArray (members.map fun member =>
        match ks.position key member with
        | none => nullArray
        | some point => coordinatesReply point)).toBytes, ks)
  | _ => (arityError "geopos", ks)

/-- `GEODIST` once its unit is known. -/
def geodist (clock : Readings) (key first second : Bytes) (unit : F) (ks : Keyspace F) :
    Bytes × Keyspace F :=
  if unit = Platform.ofRat 0 then (unitError, ks)
  else
    checked (ks.wrongSortedSetType (clock 0) key) fun ks =>
      (match ks.position key first, ks.position key second with
        | some origin, some target =>
          (bulkString (Platform.toCharsFixed (Platform.div (distanceInMeters origin target) unit))).toBytes
        | _, _ => nullBulkString.toBytes, ks)

def handleGeodist (clock : Readings) (args : List Bytes) (ks : Keyspace F) : Bytes × Keyspace F :=
  match args with
  | [_, key, first, second] => geodist clock key first second (Platform.ofRat 1) ks
  | [_, key, first, second, unit] => geodist clock key first second (unitInMeters unit) ks
  | _ => (arityError "geodist", ks)

def handleGeosearch (clock : Readings) (args : List Bytes) (ks : Keyspace F) :
    Bytes × Keyspace F :=
  match args with
  | _ :: key :: rest =>
    if rest.length < 5 then (arityError "geosearch", ks)
    else
      checked (ks.wrongSortedSetType (clock 0) key) fun ks =>
        (match searchOptions { unit := Platform.ofRat 1 } 0 rest with
          | .error failure => failure
          | .ok o => searchReply o ks.sortedSets[key]?, ks)
  | _ => (arityError "geosearch", ks)

@[simp] theorem isError_geoError (text : Bytes) : isError (Geo.error text) = true := rfl

theorem isError_of_parseCoordinates {longitude latitude failure : Bytes}
    (h : parseCoordinates (F := F) longitude latitude = .error failure) :
    isError failure = true := by
  unfold parseCoordinates at h
  split at h
  · split at h
    · cases h; rfl
    · cases h
  · cases h; rfl

theorem isError_of_parsePoints {args : List Bytes} {failure : Bytes}
    (h : parsePoints (F := F) args = .error failure) : isError failure = true := by
  fun_induction parsePoints (F := F) args with
  | case1 longitude latitude member rest f hf => cases h; exact isError_of_parseCoordinates hf
  | case2 longitude latitude member rest point hp f hf ih => cases h; exact ih hf
  | case3 => cases h
  | case4 => cases h

theorem handleGeoadd_cases (clock : Readings) (args : List Bytes) (ks : Keyspace F) :
    (isError (handleGeoadd clock args ks).1 = true ∧
      Evicts clock ks (handleGeoadd clock args ks).2) ∨
    (∃ c key rest entries, args = c :: key :: rest ∧ ¬rest.length < 3 ∧
      ¬(((addOptions {} rest).1.nx ∧ (addOptions {} rest).1.xx) ∨ (addOptions {} rest).2 = [] ∨
        (addOptions {} rest).2.length % 3 ≠ 0) ∧
      parsePoints (F := F) (addOptions {} rest).2 = .ok entries ∧
      (ks.wrongSortedSetType (clock 0) key).1 = false ∧
      handleGeoadd clock args ks =
        addGeo (addOptions {} rest).1 key entries (ks.evict (clock 0) key)) := by
  unfold handleGeoadd
  split
  · rename_i c key rest
    split
    · exact .inl ⟨rfl, .refl _⟩
    · rename_i hlen
      dsimp only
      split
      · exact .inl ⟨rfl, .refl _⟩
      · rename_i hopt
        split
        · rename_i failure hf
          exact .inl ⟨isError_of_parsePoints hf, .refl _⟩
        · rename_i entries he
          rcases checked_cases (ks.wrongSortedSetType (clock 0) key)
            (addGeo (addOptions {} rest).1 key entries) with ⟨-, h⟩ | ⟨hw, h⟩
          · rw [h]
            exact .inl ⟨rfl, wrongSortedSetType_snd ks _ key ▸ .single clock ks 0 key⟩
          · rw [h, wrongSortedSetType_snd]
            exact .inr ⟨c, key, rest, entries, rfl, hlen, hopt, he, hw, rfl⟩
  · exact .inl ⟨rfl, .refl _⟩

theorem evicts_handleGeopos (clock : Readings) (args : List Bytes) (ks : Keyspace F) :
    Evicts clock ks (handleGeopos clock args ks).2 := by
  unfold handleGeopos
  split
  · exact evicts_checked (wrongSortedSetType_snd ..) _
  · exact .refl _

theorem evicts_geodist (clock : Readings) (key first second : Bytes) (unit : F)
    (ks : Keyspace F) : Evicts clock ks (geodist clock key first second unit ks).2 := by
  unfold geodist
  split
  · exact .refl _
  · exact evicts_checked (wrongSortedSetType_snd ..) _

theorem evicts_handleGeodist (clock : Readings) (args : List Bytes) (ks : Keyspace F) :
    Evicts clock ks (handleGeodist clock args ks).2 := by
  unfold handleGeodist
  split
  · exact evicts_geodist ..
  · exact evicts_geodist ..
  · exact .refl _

theorem evicts_handleGeosearch (clock : Readings) (args : List Bytes) (ks : Keyspace F) :
    Evicts clock ks (handleGeosearch clock args ks).2 := by
  unfold handleGeosearch
  split
  · split
    · exact .refl _
    · exact evicts_checked (wrongSortedSetType_snd ..) _
  · exact .refl _

end Keyspace

end TrueStore
