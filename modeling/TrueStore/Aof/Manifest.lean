import TrueStore.Server.Basic
import TrueStore.Text.Extraction

/-! # The manifest of the log

The log is a directory of files. A manifest lists them with their sequence numbers; `read_manifest`
returns them in the order of replay, and `Aof::open` writes a first manifest into a directory that
has none and appends to the last file of the order.

Two results follow: the order of replay depends on the sequence numbers alone, and a manifest that
the server wrote itself is read back exactly when the configured name has no blanks.
-/

namespace TrueStore

open Extraction

/--
A path as the names between its separators. An empty last name stands for a separator at the end.
-/
structure Path where
  absolute : Bool
  names : List Bytes
deriving DecidableEq

namespace Path

def ofText (text : Bytes) : Path where
  absolute := text.head? == some 47
  names :=
    let parts := text.splitOn 47
    let names := parts.filter (· ≠ [])
    if names ≠ [] ∧ parts.getLast? = some [] then names ++ [[]] else names

/-- `operator/`. -/
def div (path other : Path) : Path :=
  if other.absolute then other
  else
    let stem := path.names.filter (· ≠ [])
    if other.names = [] then
      { path with names := if stem = [] then [] else stem ++ [[]] }
    else { path with names := stem ++ other.names }

def parentPath (path : Path) : Path := { path with names := path.names.dropLast }

def filename (path : Path) : Bytes := path.names.getLast?.getD []

/-- The path of the text with a suffix, which continues the last name. -/
def extend (path : Path) (suffix : Bytes) : Path :=
  { path with names := path.names.dropLast ++ [path.filename ++ suffix] }

def compare : Path → Path → Ordering :=
  compareLex (compareOn absolute) (compareOn names)

instance : Std.TransCmp compare := inferInstanceAs (Std.TransCmp (compareLex _ _))

theorem not_mem_of_mem_splitOn {text part : Bytes} (h : part ∈ text.splitOn 47) : 47 ∉ part := by
  induction text generalizing part with
  | nil =>
    rw [List.splitOn_nil, List.mem_singleton] at h
    rw [h]
    exact List.not_mem_nil
  | cons b text ih =>
    rw [List.splitOn_cons_eq_if_modifyHead] at h
    split at h
    · rcases List.mem_cons.mp h with rfl | h
      · exact List.not_mem_nil
      · exact ih h
    · rename_i hb
      obtain ⟨head, tail, htext⟩ := List.exists_cons_of_ne_nil (List.splitOn_ne_nil 47 text)
      rw [htext] at h ih
      rcases List.mem_cons.mp h with rfl | h
      · have hb' : 47 ≠ b := fun h => hb (by rw [← h]; rfl)
        exact fun hmem => (List.mem_cons.mp hmem).elim hb' (ih List.mem_cons_self)
      · exact ih (List.mem_cons_of_mem _ h)

theorem ofText_name {name : Bytes} (hne : name ≠ []) (h : 47 ∉ name) :
    ofText name = ⟨false, [name]⟩ := by
  have hhead : (name.head? == some 47) = false := by
    rw [beq_eq_false_iff_ne]
    exact fun hh => h (List.mem_of_head? hh)
  unfold ofText
  rw [List.splitOn_eq_singleton h, hhead]
  simp [hne]

theorem ofText_nil : ofText [] = ⟨false, []⟩ := by decide

theorem ofText_separator {text : Bytes} (h : 47 ∈ text) :
    (ofText text).absolute = true ∨ 2 ≤ (ofText text).names.length := by
  obtain ⟨front, rest, rfl, hfront⟩ := List.eq_append_cons_of_mem h
  by_cases hempty : front = []
  · subst hempty
    exact .inl rfl
  · right
    have hparts : (front ++ 47 :: rest).splitOn 47 = front :: rest.splitOn 47 :=
      List.splitOn_append_cons_self_of_not_mem hfront rest
    obtain ⟨last, hlast⟩ : ∃ last, (rest.splitOn 47).getLast? = some last :=
      ⟨_, List.getLast?_eq_some_getLast (List.splitOn_ne_nil 47 rest)⟩
    have hgetLast : (front :: rest.splitOn 47).getLast? = some last := by
      rw [List.getLast?_cons, hlast]
      rfl
    unfold ofText
    rw [hparts]
    dsimp only
    rw [hgetLast, List.filter_cons_of_pos (by simpa using hempty)]
    by_cases hl : last = []
    · simp [hl]
    · -- the last part is a name of its own
      have hmem : last ∈ (rest.splitOn 47).filter (· ≠ []) :=
        List.mem_filter.mpr ⟨List.mem_of_getLast? hlast, by simpa using hl⟩
      have hpos := List.length_pos_of_mem hmem
      rw [if_neg fun hc => hl (Option.some.inj hc.2), List.length_cons]
      omega

theorem filename_mem {text : Bytes} :
    (ofText text).filename = [] ∨ (ofText text).filename ∈ text.splitOn 47 := by
  unfold filename
  rcases hlast : (ofText text).names.getLast? with _ | last
  · exact .inl rfl
  · have hmem := List.mem_of_getLast? hlast
    unfold ofText at hmem
    dsimp only at hmem
    split at hmem
    · rcases List.mem_append.mp hmem with hmem | hmem
      · exact .inr (List.mem_of_mem_filter hmem)
      · exact .inl (List.mem_singleton.mp hmem)
    · exact .inr (List.mem_of_mem_filter hmem)

theorem ofText_filename_eq {text : Bytes} (hne : text ≠ []) :
    ofText (ofText text).filename = ofText text ↔ 47 ∉ text := by
  constructor
  · intro h hmem
    have hshort : ofText (ofText text).filename = ⟨false, []⟩ ∨
        ∃ name, ofText (ofText text).filename = ⟨false, [name]⟩ := by
      rcases filename_mem with hf | hf
      · rw [hf]
        exact .inl ofText_nil
      · by_cases hnil : (ofText text).filename = []
        · rw [hnil]
          exact .inl ofText_nil
        · exact .inr ⟨_, ofText_name hnil (not_mem_of_mem_splitOn hf)⟩
    rw [h] at hshort
    rcases hshort with hshort | ⟨name, hshort⟩ <;>
      rcases ofText_separator hmem with habs | hlen <;> simp_all
  · intro h
    rw [ofText_name hne h]
    exact ofText_name hne h

theorem div_name (path : Path) {name : Bytes} (hne : name ≠ []) (h : 47 ∉ name) :
    path.div (ofText name) = { path with names := path.names.filter (· ≠ []) ++ [name] } := by
  rw [ofText_name hne h]
  rfl

theorem parentPath_div (path : Path) {name other : Bytes} (hname : name ≠ []) (hn : 47 ∉ name)
    (hother : other ≠ []) (ho : 47 ∉ other) :
    (path.div (ofText name)).parentPath.div (ofText other) = path.div (ofText other) := by
  rw [div_name path hname hn, div_name path hother ho, div_name _ hother ho]
  simp [parentPath]

theorem div_inj (path : Path) {name other : Bytes} (hname : name ≠ []) (hn : 47 ∉ name)
    (hother : other ≠ []) (ho : 47 ∉ other) (h : path.div (ofText name) = path.div (ofText other)) :
    name = other := by
  rw [div_name path hname hn, div_name path hother ho] at h
  injection h with _ h
  exact List.singleton_injective (List.append_cancel_left h)

theorem extend_div (path : Path) {name suffix : Bytes} (hname : name ≠ []) (hn : 47 ∉ name)
    (hs : 47 ∉ suffix) :
    (path.div (ofText name)).extend suffix = path.div (ofText (name ++ suffix)) := by
  rw [div_name path hname hn, div_name path (List.append_ne_nil_of_left_ne_nil hname _)
    (List.not_mem_append hn hs)]
  simp [extend, filename]

end Path

namespace Aof

/-- What `read_manifest` and `open` throw. -/
inductive ManifestError where
  | unopened (path : Path)
  | invalid (path : Path)
  | unreadable (path : Path)
  | duplicate
  | appendfsync (option : Bytes)
  | missing (file : Path)
deriving DecidableEq

/-- The lines that `std::getline` returns. -/
def lines (text : Bytes) : List Bytes :=
  let parts := text.splitOn 10
  if parts.getLast? = some [] then parts.dropLast else parts

def entryFields (line : Bytes) : Option (Bytes × Bytes × Bytes × ℤ × Bytes × Bytes × Bytes) := do
  let (fileKey, entry) ← word line
  let (filename, entry) ← word entry
  let (seqKey, entry) ← word entry
  let (seq, entry) ← number entry
  let (typeKey, entry) ← word entry
  let (type, entry) ← word entry
  return (fileKey, filename, seqKey, seq, typeKey, type, entry)

def readEntry (line : Bytes) : Option (ℤ × Bytes) :=
  match entryFields line with
  | none => none
  | some (fileKey, filename, seqKey, seq, typeKey, type, entry) =>
    if fileKey ≠ ascii "file" ∨ seqKey ≠ ascii "seq" ∨ typeKey ≠ ascii "type" ∨
        type ≠ ascii "i" ∨ seq ≤ 0 ∨ (word entry).isSome ∨
        Path.ofText (Path.ofText filename).filename ≠ Path.ofText filename ∨
        filename = ascii "." ∨ filename = ascii ".." then none
    else some (seq, filename)

/-- The loop over the lines. Empty lines and comments are skipped. -/
def readEntries (path : Path) : List Bytes → Except ManifestError (List (ℤ × Path))
  | [] => .ok []
  | line :: rest =>
    if line = [] ∨ line.head? = some 35 then readEntries path rest
    else
      match readEntry line with
      | none => .error (.invalid path)
      | some (seq, filename) =>
        ((seq, path.parentPath.div (Path.ofText filename)) :: ·) <$> readEntries path rest

/-- The order of `std::pair<long long, path>`. -/
def compareEntry : ℤ × Path → ℤ × Path → Ordering :=
  compareLex (compareOn Prod.fst) fun a b => a.2.compare b.2

/-- `std::sort` on the entries. -/
def sorted (entries : List (ℤ × Path)) : List (ℤ × Path) :=
  entries.mergeSort fun a b => (compareEntry a b).isLE

def collect (previous : ℤ) : List (ℤ × Path) → Except ManifestError (List Path)
  | [] => .ok []
  | (seq, file) :: rest =>
    if seq = previous then .error .duplicate else (file :: ·) <$> collect seq rest

/-- `read_manifest` on the text of the manifest. -/
def readManifest (path : Path) (text : Bytes) : Except ManifestError (List Path) :=
  match readEntries path (lines text) with
  | .error e => .error e
  | .ok entries =>
    if entries = [] then .error (.unreadable path)
    else collect 0 (sorted entries)

abbrev Disk := Path → Option Bytes

/-- An opened log: the files of the replay and the file to append to. -/
structure Opened where
  disk : Disk
  files : List Path
  target : Path

def directory (config : Config) : Path :=
  (Path.ofText config.dir).div (Path.ofText config.appenddirname)

def manifestPath (config : Config) : Path :=
  (directory config).div (Path.ofText (config.appendfilename ++ ascii ".manifest"))

def initialName (config : Config) : Bytes := config.appendfilename ++ ascii ".1.incr.aof"

def initialFile (config : Config) : Path :=
  (directory config).div (Path.ofText (initialName config))

/-- The line that `open` writes for the first file. -/
def initialManifest (config : Config) : Bytes :=
  ascii "file " ++ initialName config ++ ascii " seq 1 type i\n"

/--
The first file and the manifest of a directory without one. The temporary file is renamed to the
manifest and is gone afterwards.
-/
def initialise (config : Config) (disk : Disk) : Disk :=
  let temporary := (manifestPath config).extend (ascii ".tmp")
  let disk := Function.update disk (initialFile config)
    (some ((disk (initialFile config)).getD []))
  let disk := Function.update disk temporary none
  Function.update disk (manifestPath config) (some (initialManifest config))

/-- `Aof::open`: nothing happens unless the log is configured. -/
def «open» (config : Config) (disk : Disk) : Except ManifestError (Option Opened) :=
  if config.appendonly ≠ ascii "yes" then .ok none
  else if config.appendfsync ≠ ascii "always" ∧ config.appendfsync ≠ ascii "everysec" ∧
      config.appendfsync ≠ ascii "no" then .error (.appendfsync config.appendfsync)
  else
    let disk := if (disk (manifestPath config)).isSome then disk else initialise config disk
    match disk (manifestPath config) with
    | none => .error (.unopened (manifestPath config))
    | some text =>
      match readManifest (manifestPath config) text with
      | .error e => .error e
      | .ok files =>
        match files.find? fun file => (disk file).isNone with
        | some file => .error (.missing file)
        | none => .ok (files.getLast?.map fun target => ⟨disk, files, target⟩)

structure IsFileName (name : Bytes) : Prop where
  word : Word name
  simple : 47 ∉ name
  not_dot : name ≠ ascii "."
  not_dots : name ≠ ascii ".."

/--
A valid line: the keywords `file`, `seq` and `type` with their values, between blanks. The number
ends with its digits, so that no blank is needed behind it.
-/
structure IsEntry (line : Bytes) (seq : ℤ) (name : Bytes) : Prop where
  shape : ∃ g₀ g₁ g₂ g₃ digits g₄ g₅ g₆, line = g₀ ++ (ascii "file" ++ (g₁ ++ (name ++ (g₂ ++
      (ascii "seq" ++ (g₃ ++ (digits ++ (g₄ ++ (ascii "type" ++ (g₅ ++ (ascii "i" ++ g₆))))))))))) ∧
    IsPositive digits seq ∧ (∀ g ∈ [g₁, g₂, g₃, g₅], Blank g ∧ g ≠ []) ∧
    ∀ g ∈ [g₀, g₄, g₆], Blank g
  name : IsFileName name

theorem word_keyword : Word (ascii "file") ∧ Word (ascii "seq") ∧ Word (ascii "type") ∧
    Word (ascii "i") :=
  ⟨⟨by decide, by decide +kernel⟩, ⟨by decide, by decide +kernel⟩, ⟨by decide, by decide +kernel⟩,
    by decide, by decide +kernel⟩

theorem entryFields_eq_some {line fileKey filename seqKey typeKey type entry : Bytes} {seq : ℤ} :
    entryFields line = some (fileKey, filename, seqKey, seq, typeKey, type, entry) ↔
      ∃ r₁ r₂ r₃ r₄ r₅, word line = some (fileKey, r₁) ∧ word r₁ = some (filename, r₂) ∧
        word r₂ = some (seqKey, r₃) ∧ number r₃ = some (seq, r₄) ∧
        word r₄ = some (typeKey, r₅) ∧ word r₅ = some (type, entry) := by
  simp only [entryFields, Option.bind_eq_bind, Option.bind_eq_some_iff, Option.pure_def,
    Option.some.injEq, Prod.mk.injEq, Prod.exists]
  constructor
  · rintro ⟨_, r₁, h₁, _, r₂, h₂, _, r₃, h₃, _, r₄, h₄, _, r₅, h₅, _, r₆, h₆, rfl, rfl, rfl, rfl,
      rfl, rfl, rfl⟩
    exact ⟨r₁, r₂, r₃, r₄, r₅, h₁, h₂, h₃, h₄, h₅, h₆⟩
  · rintro ⟨r₁, r₂, r₃, r₄, r₅, h₁, h₂, h₃, h₄, h₅, h₆⟩
    exact ⟨_, r₁, h₁, _, r₂, h₂, _, r₃, h₃, _, r₄, h₄, _, r₅, h₅, _, entry, h₆, rfl, rfl, rfl, rfl,
      rfl, rfl, rfl⟩

theorem readEntry_eq_some_iff {line name : Bytes} {seq : ℤ} :
    readEntry line = some (seq, name) ↔ ∃ entry,
      entryFields line = some (ascii "file", name, ascii "seq", seq, ascii "type", ascii "i",
        entry) ∧ 0 < seq ∧ Blank entry ∧
      Path.ofText (Path.ofText name).filename = Path.ofText name ∧ name ≠ ascii "." ∧
      name ≠ ascii ".." := by
  unfold readEntry
  constructor
  · intro h
    split at h
    · cases h
    · rename_i fileKey filename seqKey n typeKey type entry hfields
      split at h
      · cases h
      · rename_i hchecks
        simp only [not_or, ne_eq, not_not, not_le, Option.not_isSome_iff_eq_none] at hchecks
        obtain ⟨rfl, rfl, rfl, rfl, hpos, hend, hpath, hdot, hdots⟩ := hchecks
        cases h
        exact ⟨entry, hfields, hpos, word_eq_none.mp hend, hpath, hdot, hdots⟩
  · rintro ⟨entry, hfields, hpos, hend, hpath, hdot, hdots⟩
    rw [hfields]
    dsimp only
    rw [if_neg]
    simp only [not_or, ne_eq, not_not, not_le, Option.not_isSome_iff_eq_none]
    exact ⟨trivial, trivial, trivial, trivial, hpos, word_eq_none.mpr hend, hpath, hdot, hdots⟩

theorem readEntry_eq_some {line name : Bytes} {seq : ℤ} :
    readEntry line = some (seq, name) ↔ IsEntry line seq name := by
  obtain ⟨hfile, hseq, htype, hi⟩ := word_keyword
  rw [readEntry_eq_some_iff]
  constructor
  · rintro ⟨g₆, hfields, hpos, hblank, hpath, hdot, hdots⟩
    obtain ⟨r₁, r₂, r₃, r₄, r₅, h₁, h₂, h₃, h₄, h₅, h₆⟩ := entryFields_eq_some.mp hfields
    obtain ⟨g₀, rfl, hg₀, -, he₁⟩ := word_eq_some.mp h₁
    obtain ⟨g₁, rfl, hg₁, hname, he₂⟩ := word_eq_some.mp h₂
    obtain ⟨g₂, rfl, hg₂, -, he₃⟩ := word_eq_some.mp h₃
    obtain ⟨g₃, digits, rfl, hg₃, hdigits, he₄⟩ := (number_eq_some hpos).mp h₄
    obtain ⟨g₄, rfl, hg₄, -, he₅⟩ := word_eq_some.mp h₅
    obtain ⟨g₅, rfl, hg₅, -, he₆⟩ := word_eq_some.mp h₆
    refine ⟨⟨g₀, g₁, g₂, g₃, digits, g₄, g₅, g₆, rfl, hdigits, ?_, ?_⟩, hname,
      (Path.ofText_filename_eq hname.nonempty).mp hpath, hdot, hdots⟩
    · simp only [List.forall_mem_cons, List.not_mem_nil, false_imp_iff, implies_true, and_true]
      exact ⟨⟨hg₁, he₁.gap_ne_nil (hname.ends _) (by simp [hname.nonempty])⟩,
        ⟨hg₂, he₂.gap_ne_nil (hseq.ends _) (by simp [hseq.nonempty])⟩,
        ⟨hg₃, he₃.gap_ne_nil (hdigits.ends _) (by simp [hdigits.nonempty])⟩,
        ⟨hg₅, he₅.gap_ne_nil (hi.ends _) (by simp [hi.nonempty])⟩⟩
    · simp only [List.forall_mem_cons, List.not_mem_nil, false_imp_iff, implies_true, and_true]
      exact ⟨hg₀, hg₄, hblank⟩
  · rintro ⟨⟨g₀, g₁, g₂, g₃, digits, g₄, g₅, g₆, rfl, hdigits, hapart, hblank⟩, hname⟩
    simp only [List.forall_mem_cons, List.not_mem_nil, false_imp_iff, implies_true, and_true]
      at hapart hblank
    obtain ⟨⟨hg₁, hn₁⟩, ⟨hg₂, hn₂⟩, ⟨hg₃, hn₃⟩, hg₅, hn₅⟩ := hapart
    obtain ⟨hg₀, hg₄, hg₆⟩ := hblank
    refine ⟨g₆, entryFields_eq_some.mpr ⟨_, _, _, _, _, word_append hg₀ hfile (hg₁.ends hn₁ _),
      word_append hg₁ hname.word (hg₂.ends hn₂ _), word_append hg₂ hseq (hg₃.ends hn₃ _),
      number_append hg₃ hdigits ?_, word_append hg₄ htype (hg₅.ends hn₅ _),
      word_append hg₅ hi hg₆.ends_self⟩, hdigits.pos, hg₆,
      (Path.ofText_filename_eq hname.word.nonempty).mpr hname.simple, hname.not_dot,
      hname.not_dots⟩
    refine hg₄.ends_digits fun b hb => ?_
    cases hb
    decide

/-- The lines that are neither empty nor comments. -/
def listed (lines : List Bytes) : List Bytes :=
  lines.filter fun line => ¬(line = [] ∨ line.head? = some 35)

def Lists (path : Path) (line : Bytes) (entry : ℤ × Path) : Prop :=
  ∃ name, IsEntry line entry.1 name ∧ entry.2 = path.parentPath.div (Path.ofText name)

def entryOf (path : Path) (line : Bytes) : Option (ℤ × Path) :=
  (readEntry line).map fun e => (e.1, path.parentPath.div (Path.ofText e.2))

theorem entryOf_eq_some {path : Path} {line : Bytes} {entry : ℤ × Path} :
    entryOf path line = some entry ↔ Lists path line entry := by
  unfold entryOf Lists
  rw [Option.map_eq_some_iff]
  constructor
  · rintro ⟨⟨seq, name⟩, h, rfl⟩
    exact ⟨name, readEntry_eq_some.mp h, rfl⟩
  · rintro ⟨name, h, hfile⟩
    exact ⟨(entry.1, name), readEntry_eq_some.mpr h, Prod.ext rfl hfile.symm⟩

theorem isSome_entryOf (path : Path) {line : Bytes} :
    (entryOf path line).isSome = true ↔ ∃ seq name, IsEntry line seq name := by
  simp only [entryOf, Option.isSome_map, Option.isSome_iff_exists, Prod.exists, readEntry_eq_some]

/-- The loop reads the listed lines, and fails as soon as one of them is not valid. -/
theorem readEntries_eq (path : Path) (lines : List Bytes) : readEntries path lines =
    if ∀ line ∈ listed lines, (entryOf path line).isSome = true then
      .ok ((listed lines).filterMap (entryOf path))
    else .error (.invalid path) := by
  induction lines with
  | nil => rfl
  | cons line rest ih =>
    unfold readEntries
    split
    · rename_i hskip
      rw [ih, listed, listed,
        List.filter_cons_of_neg (by rw [decide_eq_true_iff, not_not]; exact hskip)]
    · rename_i hlisted
      have hcons : listed (line :: rest) = line :: listed rest :=
        List.filter_cons_of_pos (decide_eq_true hlisted)
      rw [hcons]
      simp only [List.forall_mem_cons]
      rcases hentry : readEntry line with _ | ⟨seq, name⟩
      · have hnone : entryOf path line = none := by rw [entryOf, hentry]; rfl
        rw [if_neg fun h => by simp [hnone] at h]
      · have hsome : entryOf path line =
            some (seq, path.parentPath.div (Path.ofText name)) := by rw [entryOf, hentry]; rfl
        rw [List.filterMap_cons_some hsome, ih]
        simp only [hsome, Option.isSome_some, true_and]
        split <;> rfl

theorem forall₂_filterMap {path : Path} {lines : List Bytes}
    (h : ∀ line ∈ lines, (entryOf path line).isSome = true) :
    List.Forall₂ (Lists path) lines (lines.filterMap (entryOf path)) := by
  induction lines with
  | nil => exact .nil
  | cons line rest ih =>
    obtain ⟨entry, hentry⟩ := Option.isSome_iff_exists.mp (h line List.mem_cons_self)
    rw [List.filterMap_cons_some hentry]
    exact .cons (entryOf_eq_some.mp hentry) (ih fun l hl => h l (List.mem_cons_of_mem _ hl))

instance : Std.TransCmp fun a b : ℤ × Path => a.2.compare b.2 where
  eq_swap := Std.OrientedCmp.eq_swap
  isLE_trans := Std.TransCmp.isLE_trans

instance : Std.TransCmp compareEntry := inferInstanceAs (Std.TransCmp (compareLex _ _))

theorem eq_of_compareEntry {a b : ℤ × Path} (h : compareEntry a b = .eq) : a = b := by
  simp only [compareEntry, Path.compare, compareLex_eq_eq, compareOn,
    Std.LawfulEqCmp.compare_eq_iff_eq] at h
  obtain ⟨hseq, habsolute, hnames⟩ := h
  obtain ⟨seq, absolute, names⟩ := a
  obtain ⟨seq', absolute', names'⟩ := b
  cases hseq
  cases habsolute
  cases hnames
  rfl

theorem le_of_compareEntry {a b : ℤ × Path} (h : (compareEntry a b).isLE = true) : a.1 ≤ b.1 := by
  by_contra hlt
  have hgt : compareOn Prod.fst a b = .gt := compare_gt_iff_gt.mpr (not_le.mp hlt)
  rw [compareEntry, compareLex, hgt] at h
  cases h

theorem sorted_perm (entries : List (ℤ × Path)) : (sorted entries).Perm entries :=
  List.mergeSort_perm _ _

theorem pairwise_sorted (entries : List (ℤ × Path)) :
    (sorted entries).Pairwise fun a b => (compareEntry a b).isLE = true := by
  refine List.pairwise_mergeSort (fun a b c => Std.TransCmp.isLE_trans) (fun a b => ?_) entries
  have hswap : compareEntry b a = (compareEntry a b).swap := Std.OrientedCmp.eq_swap
  rw [hswap]
  cases compareEntry a b <;> rfl

theorem sorted_eq_of_perm {entries entries' : List (ℤ × Path)} (h : entries.Perm entries') :
    sorted entries = sorted entries' := by
  refine List.Perm.eq_of_pairwise (fun a b _ _ hab hba => ?_) (pairwise_sorted entries)
    (pairwise_sorted entries') ((sorted_perm entries).trans (h.trans (sorted_perm entries').symm))
  exact eq_of_compareEntry (Std.OrientedCmp.isLE_antisymm hab hba)

/-- On sorted entries the comparison with the previous number finds every number listed twice. -/
theorem collect_eq (previous : ℤ) (entries : List (ℤ × Path))
    (hfirst : ∀ e ∈ entries, previous ≤ e.1) (hsorted : entries.Pairwise fun a b => a.1 ≤ b.1) :
    collect previous entries =
      if (previous :: entries.map Prod.fst).Nodup then .ok (entries.map Prod.snd)
      else .error .duplicate := by
  induction entries generalizing previous with
  | nil => rfl
  | cons entry rest ih =>
    obtain ⟨seq, file⟩ := entry
    obtain ⟨hle, hrest⟩ := List.pairwise_cons.mp hsorted
    unfold collect
    split
    · rename_i hseq
      rw [if_neg]
      simp [hseq]
    · rename_i hseq
      have hnew : previous ∉ seq :: rest.map Prod.fst := by
        intro hmem
        have hlt : previous < seq := lt_of_le_of_ne (hfirst _ List.mem_cons_self) (Ne.symm hseq)
        rcases List.mem_cons.mp hmem with rfl | hmem
        · exact hseq rfl
        · obtain ⟨e, he, rfl⟩ := List.mem_map.mp hmem
          exact absurd (hle e he) (not_le.mpr hlt)
      have hnodup : (previous :: seq :: rest.map Prod.fst).Nodup ↔
          (seq :: rest.map Prod.fst).Nodup := by
        rw [List.nodup_cons]
        exact and_iff_right hnew
      rw [ih seq hle hrest]
      simp only [List.map_cons, hnodup]
      split <;> rfl

/-- The entries of a manifest, all lines being valid. -/
def entriesOf (path : Path) (lines : List Bytes) : List (ℤ × Path) :=
  (listed lines).filterMap (entryOf path)

theorem pos_of_mem_entriesOf {path : Path} {lines : List Bytes} {e : ℤ × Path}
    (he : e ∈ entriesOf path lines) : 0 < e.1 := by
  obtain ⟨line, -, hentry⟩ := List.mem_filterMap.mp he
  obtain ⟨name, hname, -⟩ := entryOf_eq_some.mp hentry
  obtain ⟨_, _, _, _, _, _, _, _, _, hseq, _⟩ := hname.shape
  exact hseq.pos

/-- What `read_manifest` returns, by the lines of the manifest. -/
theorem readManifest_eq (path : Path) (text : Bytes) : readManifest path text =
    if ∀ line ∈ listed (lines text), (entryOf path line).isSome = true then
      if entriesOf path (lines text) = [] then .error (.unreadable path)
      else if ((entriesOf path (lines text)).map Prod.fst).Nodup then
        .ok ((sorted (entriesOf path (lines text))).map Prod.snd)
      else .error .duplicate
    else .error (.invalid path) := by
  have hperm := sorted_perm (entriesOf path (lines text))
  have hpos : ∀ e ∈ sorted (entriesOf path (lines text)), 0 < e.1 := fun e he =>
    pos_of_mem_entriesOf (hperm.mem_iff.mp he)
  have hcollect := collect_eq 0 (sorted (entriesOf path (lines text)))
    (fun e he => (hpos e he).le) ((pairwise_sorted _).imp le_of_compareEntry)
  -- the sequence numbers are positive, so the first comparison never fails
  have hnodup : (0 :: (sorted (entriesOf path (lines text))).map Prod.fst).Nodup ↔
      ((entriesOf path (lines text)).map Prod.fst).Nodup := by
    rw [List.nodup_cons, (hperm.map Prod.fst).nodup_iff]
    refine and_iff_right fun hmem => ?_
    obtain ⟨e, he, hzero⟩ := List.mem_map.mp hmem
    exact absurd (hpos e he) (by omega)
  unfold readManifest
  rw [readEntries_eq]
  by_cases hvalid : ∀ line ∈ listed (lines text), (entryOf path line).isSome = true
  · rw [if_pos hvalid, if_pos hvalid]
    dsimp only
    rw [← entriesOf, hcollect]
    simp only [hnodup]
  · rw [if_neg hvalid, if_neg hvalid]

theorem readManifest_eq_ok {path : Path} {text : Bytes} {files : List Path} :
    readManifest path text = .ok files ↔
      (∀ line ∈ listed (lines text), (entryOf path line).isSome = true) ∧
        entriesOf path (lines text) ≠ [] ∧ ((entriesOf path (lines text)).map Prod.fst).Nodup ∧
        files = (sorted (entriesOf path (lines text))).map Prod.snd := by
  rw [readManifest_eq]
  split_ifs with hvalid hempty hnodup
  · exact ⟨nofun, fun h => absurd hempty h.2.1⟩
  · constructor
    · intro h
      cases h
      exact ⟨hvalid, hempty, hnodup, rfl⟩
    · rintro ⟨-, -, -, rfl⟩
      rfl
  · exact ⟨nofun, fun h => absurd h.2.2.1 hnodup⟩
  · exact ⟨nofun, fun h => absurd h.1 hvalid⟩

theorem entriesOf_perm (path : Path) {lines lines' : List Bytes} (h : lines.Perm lines') :
    (entriesOf path lines).Perm (entriesOf path lines') :=
  (h.filter _).filterMap _

/-- The order of the lines does not matter, for the files as for the errors. -/
theorem readManifest_perm (path : Path) {text text' : Bytes}
    (h : (lines text).Perm (lines text')) : readManifest path text = readManifest path text' := by
  have hentries := entriesOf_perm path h
  have hlisted : ∀ line, line ∈ listed (lines text) ↔ line ∈ listed (lines text') := fun line =>
    (h.filter _).mem_iff
  have hempty : entriesOf path (lines text) = [] ↔ entriesOf path (lines text') = [] := by
    rw [← List.length_eq_zero_iff, ← List.length_eq_zero_iff, hentries.length_eq]
  have hnodup := (hentries.map Prod.fst).nodup_iff
  rw [readManifest_eq, readManifest_eq, sorted_eq_of_perm hentries]
  simp only [hlisted, hempty, hnodup]

theorem strict_sorted {path : Path} {lines : List Bytes}
    (h : ((entriesOf path lines).map Prod.fst).Nodup) :
    (sorted (entriesOf path lines)).Pairwise fun a b => a.1 < b.1 := by
  have hnodup := ((sorted_perm (entriesOf path lines)).map Prod.fst).nodup_iff.mpr h
  have hne := List.pairwise_map.mp hnodup
  exact ((pairwise_sorted _).imp le_of_compareEntry).imp₂ (fun a b hle hne =>
    lt_of_le_of_ne hle hne) hne

def Distinct (lines : List Bytes) : Prop :=
  lines.Pairwise fun a b => ∀ m f n g, IsEntry a m f → IsEntry b n g → m ≠ n

theorem nodup_entriesOf_iff (path : Path) {lines : List Bytes} :
    ((entriesOf path lines).map Prod.fst).Nodup ↔ Distinct (listed lines) := by
  rw [entriesOf, List.Nodup, List.pairwise_map, List.pairwise_filterMap, Distinct]
  refine List.Pairwise.iff fun a b => ?_
  simp only [entryOf_eq_some]
  constructor
  · intro h m f n g hm hn
    exact h (m, _) ⟨f, hm, rfl⟩ (n, _) ⟨g, hn, rfl⟩
  · rintro h e ⟨f, hm, -⟩ e' ⟨g, hn, -⟩
    exact h _ f _ g hm hn

theorem entriesOf_eq_nil_iff {path : Path} {lines : List Bytes}
    (h : ∀ line ∈ listed lines, (entryOf path line).isSome = true) :
    entriesOf path lines = [] ↔ listed lines = [] := by
  have hlength := (forall₂_filterMap h).length_eq
  rw [← entriesOf] at hlength
  rw [← List.length_eq_zero_iff, ← hlength, List.length_eq_zero_iff]

theorem exists_files_iff (path : Path) (text : Bytes) :
    (∃ files, readManifest path text = .ok files) ↔
      listed (lines text) ≠ [] ∧
        (∀ line ∈ listed (lines text), ∃ seq name, IsEntry line seq name) ∧
        Distinct (listed (lines text)) := by
  simp only [readManifest_eq_ok, ← isSome_entryOf path, ← nodup_entriesOf_iff path]
  constructor
  · rintro ⟨files, hvalid, hne, hnodup, -⟩
    exact ⟨fun hnil => hne ((entriesOf_eq_nil_iff hvalid).mpr hnil), hvalid, hnodup⟩
  · rintro ⟨hne, hvalid, hnodup⟩
    exact ⟨_, hvalid, fun hnil => hne ((entriesOf_eq_nil_iff hvalid).mp hnil), hnodup, rfl⟩

theorem readManifest_order {path : Path} {text : Bytes} {files : List Path}
    (h : readManifest path text = .ok files) :
    ∃ entries, List.Forall₂ (Lists path) (listed (lines text)) entries ∧
      ∃ order : List (ℤ × Path), order.Perm entries ∧ order.Pairwise (fun a b => a.1 < b.1) ∧
        files = order.map Prod.snd := by
  obtain ⟨hvalid, -, hnodup, rfl⟩ := readManifest_eq_ok.mp h
  exact ⟨entriesOf path (lines text), forall₂_filterMap hvalid, sorted _, sorted_perm _,
    strict_sorted hnodup, rfl⟩

theorem mem_files {path : Path} {text : Bytes} {files : List Path}
    (h : readManifest path text = .ok files) {file : Path} (hfile : file ∈ files) :
    ∃ line seq, Lists path line (seq, file) := by
  obtain ⟨-, -, -, rfl⟩ := readManifest_eq_ok.mp h
  obtain ⟨e, he, rfl⟩ := List.mem_map.mp hfile
  obtain ⟨line, -, hentry⟩ := List.mem_filterMap.mp ((sorted_perm _).mem_iff.mp he)
  exact ⟨line, e.1, entryOf_eq_some.mp hentry⟩

theorem open_eq_some {config : Config} {disk : Disk} {log : Opened}
    (h : «open» config disk = .ok (some log)) :
    ∃ text, log.disk (manifestPath config) = some text ∧
      readManifest (manifestPath config) text = .ok log.files ∧
      log.files.getLast? = some log.target := by
  unfold «open» at h
  split at h
  · cases h
  split at h
  · cases h
  dsimp only at h
  split at h
  · cases h
  rename_i text htext
  split at h
  · cases h
  rename_i files hfiles
  split at h
  · cases h
  injection h with h
  obtain ⟨target, htarget, rfl⟩ := Option.map_eq_some_iff.mp h
  exact ⟨text, htext, hfiles, htarget⟩

theorem exists_last {order : List (ℤ × Path)} {target : Path}
    (hsorted : order.Pairwise fun a b => a.1 < b.1)
    (hlast : (order.map Prod.snd).getLast? = some target) :
    ∃ seq, (seq, target) ∈ order ∧ ∀ e ∈ order, e.1 ≤ seq := by
  rw [List.getLast?_map, Option.map_eq_some_iff] at hlast
  obtain ⟨e, he, rfl⟩ := hlast
  obtain ⟨front, rfl⟩ := List.getLast?_eq_some_iff.mp he
  refine ⟨e.1, List.mem_append_right _ List.mem_cons_self, fun e' he' => ?_⟩
  rcases List.mem_append.mp he' with he' | he'
  · exact ((List.pairwise_append.mp hsorted).2.2 e' he' e List.mem_cons_self).le
  · rw [List.mem_singleton.mp he']

/--
The order of replay depends only on the sequence numbers. A manifest is read exactly when it lists
something, all its lines are valid and no number occurs twice. The files then come in the order of
their numbers, however the lines are ordered, and `open` appends to the one with the largest.
-/
theorem replay_order_by_sequence :
    (∀ path text, (∃ files, readManifest path text = .ok files) ↔
      listed (lines text) ≠ [] ∧
        (∀ line ∈ listed (lines text), ∃ seq name, IsEntry line seq name) ∧
        Distinct (listed (lines text))) ∧
      (∀ path text files, readManifest path text = .ok files →
        ∃ entries, List.Forall₂ (Lists path) (listed (lines text)) entries ∧
          ∃ order : List (ℤ × Path), order.Perm entries ∧
            order.Pairwise (fun a b => a.1 < b.1) ∧ files = order.map Prod.snd) ∧
      (∀ path text text', (lines text).Perm (lines text') →
        readManifest path text = readManifest path text') ∧
      ∀ config disk log, «open» config disk = .ok (some log) →
        ∃ text, log.disk (manifestPath config) = some text ∧
          ∃ entries, List.Forall₂ (Lists (manifestPath config)) (listed (lines text)) entries ∧
            ∃ seq, (seq, log.target) ∈ entries ∧ ∀ e ∈ entries, e.1 ≤ seq := by
  refine ⟨exists_files_iff, fun path text files h => readManifest_order h,
    fun path text text' h => readManifest_perm path h, fun config disk log h => ?_⟩
  obtain ⟨text, htext, hfiles, hlast⟩ := open_eq_some h
  obtain ⟨entries, hlists, order, hperm, hsorted, hmap⟩ := readManifest_order hfiles
  rw [hmap] at hlast
  obtain ⟨seq, hmem, hmax⟩ := exists_last hsorted hlast
  exact ⟨text, htext, entries, hlists, seq, hperm.mem_iff.mp hmem,
    fun e he => hmax e (hperm.mem_iff.mpr he)⟩

-- The lines stand out of order, behind a comment.
example : readManifest (.ofText (ascii "dir/aof.manifest"))
      (ascii "# files\nfile c seq 12 type i\nfile a seq 3 type i\nfile b seq 7 type i\n") =
    .ok [.ofText (ascii "dir/a"), .ofText (ascii "dir/b"), .ofText (ascii "dir/c")] := by
  let a : ℤ × Path := (3, .ofText (ascii "dir/a"))
  let b : ℤ × Path := (7, .ofText (ascii "dir/b"))
  let c : ℤ × Path := (12, .ofText (ascii "dir/c"))
  have hread : readEntries (.ofText (ascii "dir/aof.manifest"))
      (lines (ascii "# files\nfile c seq 12 type i\nfile a seq 3 type i\nfile b seq 7 type i\n")) =
      .ok [c, a, b] := by decide +kernel
  have hsorted : sorted [c, a, b] = [a, b, c] := by
    rw [sorted_eq_of_perm (show [c, a, b].Perm [a, b, c] by decide +kernel)]
    exact List.mergeSort_of_pairwise (by decide +kernel)
  simp only [readManifest, hread, hsorted]
  rfl

/--
The server reads the manifest that it writes into a directory without one: the file it has just
created, under the number one.
-/
def ReadsBack (config : Config) : Prop :=
  ∀ disk : Disk, disk (manifestPath config) = none →
    (initialise config disk (initialFile config)).isSome = true ∧
      ∃ text, initialise config disk (manifestPath config) = some text ∧
        readEntries (manifestPath config) (lines text) = .ok [(1, initialFile config)] ∧
        readManifest (manifestPath config) text = .ok [initialFile config]

section Fresh

variable {config : Config}

theorem initialName_ne_nil : initialName config ≠ [] :=
  List.append_ne_nil_of_right_ne_nil _ (by decide)

theorem not_mem_initialName (h : 47 ∉ config.appendfilename) : 47 ∉ initialName config :=
  List.not_mem_append h (by decide)

theorem div_initialName (h : 47 ∉ config.appendfilename) :
    (manifestPath config).parentPath.div (Path.ofText (initialName config)) =
      initialFile config :=
  Path.parentPath_div _ (List.append_ne_nil_of_right_ne_nil _ (by decide))
    (List.not_mem_append h (by decide)) initialName_ne_nil (not_mem_initialName h)

theorem isFileName_initialName (h : 47 ∉ config.appendfilename)
    (hsolid : ∀ b ∈ config.appendfilename, isSpace b = false) :
    IsFileName (initialName config) where
  word := ⟨initialName_ne_nil, List.forall_mem_append.mpr ⟨hsolid, by decide +kernel⟩⟩
  simple := not_mem_initialName h
  not_dot hdot := by
    have hlength := congrArg List.length hdot
    rw [initialName, List.length_append] at hlength
    have : (ascii ".1.incr.aof").length = 11 := by decide
    have : (ascii ".").length = 1 := by decide
    omega
  not_dots hdots := by
    have hlength := congrArg List.length hdots
    rw [initialName, List.length_append] at hlength
    have : (ascii ".1.incr.aof").length = 11 := by decide
    have : (ascii "..").length = 2 := by decide
    omega

def initialLine (config : Config) : Bytes :=
  ascii "file " ++ (initialName config ++ ascii " seq 1 type i")

theorem isEntry_initialLine (h : 47 ∉ config.appendfilename)
    (hsolid : ∀ b ∈ config.appendfilename, isSpace b = false) :
    IsEntry (initialLine config) 1 (initialName config) where
  shape := by
    refine ⟨[], [32], [32], [32], [49], [32], [32], [], ?_, ?_, by decide +kernel,
      by decide +kernel⟩
    · have hfile : ascii "file " = ascii "file" ++ [32] := by decide
      have hrest : ascii " seq 1 type i" = [32] ++ (ascii "seq" ++ ([32] ++ ([49] ++ ([32] ++
          (ascii "type" ++ ([32] ++ (ascii "i" ++ []))))))) := by decide
      rw [initialLine, hfile, hrest, List.append_assoc]
      rfl
    · exact ⟨⟨[49], .inl rfl, by decide, List.forall_mem_singleton.mpr rfl, rfl⟩, by decide,
        by decide⟩
  name := isFileName_initialName h hsolid

theorem lines_initialManifest (hsolid : ∀ b ∈ config.appendfilename, isSpace b = false) :
    lines (initialManifest config) = [initialLine config] := by
  have htext : initialManifest config = initialLine config ++ 10 :: [] := by
    have hend : ascii " seq 1 type i\n" = ascii " seq 1 type i" ++ [10] := by decide
    rw [initialManifest, initialLine, hend]
    simp only [List.append_assoc]
  have hline : 10 ∉ initialLine config := by
    have hname : 10 ∉ config.appendfilename := fun hmem =>
      absurd (hsolid 10 hmem) (by decide)
    exact List.not_mem_append (by decide)
      (List.not_mem_append (List.not_mem_append hname (by decide)) (by decide))
  unfold lines
  rw [htext, List.splitOn_append_cons_self_of_not_mem hline, List.splitOn_nil]
  rfl

theorem initialise_manifestPath (disk : Disk) :
    initialise config disk (manifestPath config) = some (initialManifest config) :=
  Function.update_self ..

theorem initialise_initialFile (h : 47 ∉ config.appendfilename) (disk : Disk) :
    (initialise config disk (initialFile config)).isSome = true := by
  have hname : config.appendfilename ++ ascii ".manifest" ≠ [] :=
    List.append_ne_nil_of_right_ne_nil _ (by decide)
  have hplain : 47 ∉ config.appendfilename ++ ascii ".manifest" :=
    List.not_mem_append h (by decide)
  have hmanifest : initialFile config ≠ manifestPath config := by
    intro heq
    have hnames := Path.div_inj _ initialName_ne_nil (not_mem_initialName h) hname hplain heq
    exact absurd (List.append_cancel_left hnames) (by decide)
  have htemporary : initialFile config ≠ (manifestPath config).extend (ascii ".tmp") := by
    intro heq
    rw [manifestPath, Path.extend_div _ hname hplain (by decide)] at heq
    have hnames := Path.div_inj _ initialName_ne_nil (not_mem_initialName h)
      (List.append_ne_nil_of_left_ne_nil hname _) (List.not_mem_append hplain (by decide)) heq
    rw [initialName, List.append_assoc] at hnames
    exact absurd (List.append_cancel_left hnames) (by decide)
  unfold initialise
  rw [Function.update_of_ne hmanifest, Function.update_of_ne htemporary, Function.update_self]
  rfl

theorem solid_of_readManifest (h : 47 ∉ config.appendfilename) {text : Bytes}
    (hread : readManifest (manifestPath config) text = .ok [initialFile config]) :
    ∀ b ∈ config.appendfilename, isSpace b = false := by
  obtain ⟨line, seq, name, hentry, hfile⟩ := mem_files hread List.mem_cons_self
  rw [← div_initialName h] at hfile
  have hname := Path.div_inj _ initialName_ne_nil (not_mem_initialName h)
    hentry.name.word.nonempty hentry.name.simple hfile
  intro b hb
  exact hentry.name.word.solid b (hname ▸ List.mem_append_left _ hb)

/-- The manifest of a fresh directory is read back exactly when the name has no blanks. -/
theorem reads_back_iff (config : Config) (h : 47 ∉ config.appendfilename) :
    ReadsBack config ↔ ∀ b ∈ config.appendfilename, isSpace b = false := by
  constructor
  · intro hback
    obtain ⟨-, text, -, -, hread⟩ := hback (fun _ => none) rfl
    exact solid_of_readManifest h hread
  · intro hsolid disk _
    have hlisted : listed (lines (initialManifest config)) = [initialLine config] := by
      rw [lines_initialManifest hsolid]
      rfl
    have hentry : entryOf (manifestPath config) (initialLine config) =
        some (1, initialFile config) :=
      entryOf_eq_some.mpr ⟨_, isEntry_initialLine h hsolid, (div_initialName h).symm⟩
    have hvalid : ∀ line ∈ listed (lines (initialManifest config)),
        (entryOf (manifestPath config) line).isSome = true := by
      rw [hlisted, List.forall_mem_singleton, hentry]
      rfl
    have hentries : entriesOf (manifestPath config) (lines (initialManifest config)) =
        [(1, initialFile config)] := by
      rw [entriesOf, hlisted, List.filterMap_cons_some hentry, List.filterMap_nil]
    refine ⟨initialise_initialFile h disk, _, initialise_manifestPath disk, ?_, ?_⟩
    · rw [readEntries_eq, if_pos hvalid, ← entriesOf, hentries]
    · rw [readManifest_eq_ok, hentries]
      refine ⟨hvalid, List.cons_ne_nil _ _, List.nodup_singleton _, ?_⟩
      rw [List.perm_singleton.mp (sorted_perm [(1, initialFile config)])]
      rfl

theorem reads_back_default : 47 ∉ ({} : Config).appendfilename ∧ ReadsBack {} :=
  ⟨by decide, (reads_back_iff {} (by decide)).mpr (by decide +kernel)⟩

/-- A name with a blank: the line that was written for it is not a valid one. -/
def spaced : Config := { appendfilename := ascii "a b" }

theorem not_reads_back_spaced :
    spaced.appendfilename ≠ [] ∧ 47 ∉ spaced.appendfilename ∧ 0 ∉ spaced.appendfilename ∧
      readManifest (manifestPath spaced) (initialManifest spaced) =
        .error (.invalid (manifestPath spaced)) ∧ ¬ReadsBack spaced := by
  have hinvalid : readManifest (manifestPath spaced) (initialManifest spaced) =
      .error (.invalid (manifestPath spaced)) := by decide +kernel
  refine ⟨by decide, by decide, by decide, hinvalid, fun hback => ?_⟩
  obtain ⟨-, text, htext, -, hread⟩ := hback (fun _ => none) rfl
  rw [initialise_manifestPath] at htext
  cases htext
  rw [hinvalid] at hread
  cases hread

end Fresh

end Aof

end TrueStore
