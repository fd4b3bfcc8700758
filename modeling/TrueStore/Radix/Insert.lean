import TrueStore.Order.Sorted
import TrueStore.Radix.Entries

/-! # Insertion into a radix tree

A walk stops at the node of a key or where the key leaves the tree, and an insertion changes the
tree only there. A tree that is built by insertions is well formed, its entries are those of a map, and
its counts of keys and nodes are exact.
-/

namespace TrueStore.Rax

variable {α : Type}

theorem common_cases (chars s : Bytes) :
    (∃ s', s = chars ++ s' ∧ common chars s = chars.length) ∨
      (∃ b l, chars = s ++ b :: l ∧ common chars s = s.length) ∨
        ∃ l b l' c s', b ≠ c ∧ chars = l ++ b :: l' ∧ s = l ++ c :: s' ∧
          common chars s = l.length := by
  induction chars generalizing s with
  | nil => exact .inl ⟨s, rfl, by simp [common]⟩
  | cons a chars ih =>
    cases s with
    | nil => exact .inr (.inl ⟨a, chars, rfl, by simp [common]⟩)
    | cons c s =>
      by_cases hac : a = c
      · subst hac
        rw [common, if_pos rfl]
        rcases ih s with ⟨s', rfl, h⟩ | ⟨b, l, rfl, h⟩ | ⟨l, b, l', c, s', hne, rfl, rfl, h⟩
        · exact .inl ⟨s', rfl, by rw [h, List.length_cons]⟩
        · exact .inr (.inl ⟨b, l, rfl, by rw [h, List.length_cons]⟩)
        · exact .inr (.inr ⟨a :: l, b, l', c, s', hne, rfl, rfl, by rw [h, List.length_cons]⟩)
      · exact .inr (.inr ⟨[], a, chars, c, s, hac, rfl, rfl, by rw [common, if_neg hac]; rfl⟩)

/-- How a walk ends: at the node of the key, at one without an edge for the next byte, or inside a
compressed node, where the key is at its end or goes on with another byte. The arguments are the
node, the bytes of it that the key has, and those that are left of the key. -/
inductive Stops : Node α → Bytes → Bytes → Prop
  | here (n : Node α) : Stops n [] []
  | edge {value : Option (Option α)} {edges : List (UInt8 × Node α)} {c : UInt8} (s : Bytes)
      (missing : ∀ e ∈ edges, e.1 ≠ c) : Stops (.plain value edges) [] (c :: s)
  | inside {value : Option (Option α)} {l : Bytes} (b : UInt8) (l' : Bytes) {next : Node α}
      (begun : l ≠ []) : Stops (.compressed value (l ++ b :: l') next) l []
  | mismatch {value : Option (Option α)} (l : Bytes) {b c : UInt8} (l' s : Bytes) {next : Node α}
      (differ : b ≠ c) : Stops (.compressed value (l ++ b :: l') next) l (c :: s)

structure Walks (head : Node α) (s : Bytes) (w : Walk α) (passed : Bytes) : Prop where
  route : Route head w.stack w.stop
  key : s = keyOf w.stack ++ (passed ++ w.rest)
  splitpos : w.splitpos = passed.length
  stops : Stops w.stop passed w.rest

theorem exists_walks_lowWalk {head h : Node α} {stack : Stack α} (hw : head.WF)
    (route : Route head stack h) (s : Bytes) (matched : ℕ) :
    ∃ passed, Walks head (keyOf stack ++ s) (lowWalk h s matched stack) passed := by
  fun_induction lowWalk h s matched stack with
  | case1 matched stack h => exact ⟨[], route, by simp, rfl, .here h⟩
  | case2 matched stack value edges c s j hj =>
    refine ⟨[], route, by simp, rfl, .edge s ?_⟩
    intro e he hc
    have hlt : j < edges.length :=
      List.findIdx_lt_length_of_exists ⟨e, he, by simpa using hc⟩
    exact absurd (List.getElem?_eq_none_iff.mp hj) (by omega)
  | case3 matched stack value edges c s j e hj ih =>
    have hc : e.1 = c := by
      obtain ⟨hlt, he⟩ := List.getElem?_eq_some_iff.mp hj
      have := List.findIdx_getElem (w := hlt)
      rw [he] at this
      simpa using this
    have link : (Node.plain value edges).childAt j = some ([c], e.2) := by
      rw [Node.childAt, hj, ← hc]
      rfl
    obtain ⟨passed, hwalk⟩ := ih (route.child link)
    refine ⟨passed, ?_⟩
    rwa [keyOf_cons link, List.append_assoc] at hwalk
  | case4 matched stack value chars child c s j hj =>
    have hlong : chars ≠ [] := by
      cases route.wf hw with
      | compressed long _ _ => rintro rfl; simp at long
    rcases common_cases chars (c :: s) with ⟨s', hs, h⟩ | ⟨b, l, rfl, h⟩ |
      ⟨l, b, l', c', s', hne, rfl, hs, h⟩
    · have hpos := List.length_pos_iff.mpr hlong
      exact absurd hj (by simp only [j, h]; omega)
    · refine ⟨c :: s, route, ?_, h, ?_⟩
      · simp [j, h]
      · simp only [j, h, List.drop_length]
        exact .inside b l (by simp)
    · refine ⟨l, route, ?_, h, ?_⟩
      · simp [j, h, hs]
      · simp only [j, h, hs, List.drop_left]
        exact .mismatch l l' s' hne
  | case5 matched stack value chars child c s j hj ih =>
    have hmatch : c :: s = chars ++ (c :: s).drop j := by
      rcases common_cases chars (c :: s) with ⟨s', hs, h⟩ | ⟨b, l, rfl, h⟩ |
        ⟨l, b, l', c', s', hne, rfl, hs, h⟩
      · simp only [j, h]
        conv_lhs => rw [hs]
        rw [hs, List.drop_left]
      · exact absurd hj (by simp [j, h])
      · exact absurd hj (by simp [j, h])
    have link : (Node.compressed value chars child).childAt 0 = some (chars, child) := rfl
    obtain ⟨passed, hwalk⟩ := ih (route.child link)
    refine ⟨passed, ?_⟩
    rwa [keyOf_cons link, List.append_assoc, ← hmatch] at hwalk

/-- A node, with the number of nodes that are new, takes the place of another one that lacks an
entry. -/
structure Grows (n : Node α) (key : Bytes) (data : Option α) (r : Node α × ℕ) : Prop where
  wf : r.1.WF
  full : r.1.Full
  adds : Adds key data n.entries r.1.entries
  count : r.1.count = n.count + r.2

namespace Node

variable {value : Option (Option α)}

theorem entries_chain {chars : Bytes} (h : chars ≠ []) (child : Node α) :
    (chain value chars child).entries = own value ++ under chars child.entries := by
  rcases chars with _ | ⟨c, _ | ⟨c', chars⟩⟩
  · exact absurd rfl h
  · simp [chain]
  · simp [chain]

theorem count_chain (chars : Bytes) (child : Node α) :
    (chain value chars child).count = child.count + 1 := by
  rcases chars with _ | ⟨c, _ | ⟨c', chars⟩⟩
  · simp [chain]
  · simp [chain]
  · simp [chain]

theorem WF.chain (value : Option (Option α)) {chars : Bytes} {child : Node α} (h : chars ≠ [])
    (hc : child.WF) (hf : child.Full) : (chain value chars child).WF ∧ (chain value chars child).Full := by
  rcases chars with _ | ⟨c, _ | ⟨c', chars⟩⟩
  · exact absurd rfl h
  · refine ⟨.plain (List.pairwise_singleton _ _) ?_ ?_, .inr (by simp [Node.chain, children])⟩
    · simpa using hf
    · simpa using hc
  · exact ⟨.compressed (by simp) hf hc, .inr (by simp [Node.chain, children])⟩

@[simp] theorem count_setData (data : Option α) (n : Node α) :
    (n.setData data).count = n.count := by
  cases n with
  | plain value edges => simp [setData]
  | compressed value chars child => simp [setData]

theorem WF.setData {n : Node α} (h : n.WF) (data : Option α) :
    (n.setData data).WF ∧ (n.setData data).Full := by
  cases h with
  | plain sorted full wf => exact ⟨.plain sorted full wf, .inl rfl⟩
  | compressed long full wf => exact ⟨.compressed long full wf, .inl rfl⟩

end Node

theorem exists_addEdge {edges : List (UInt8 × Node α)}
    (sorted : edges.Pairwise fun e f => e.1 < f.1) {c : UInt8}
    (missing : ∀ e ∈ edges, e.1 ≠ c) (child : Node α) :
    ∃ l₁ l₂, edges = l₁ ++ l₂ ∧ Node.addEdge c child edges = l₁ ++ (c, child) :: l₂ ∧
      (l₁ ++ (c, child) :: l₂).Pairwise fun e f => e.1 < f.1 := by
  have hclosed : ∀ a b : UInt8 × Node α, a.1 < b.1 → (!decide (c < b.1)) = true →
      (!decide (c < a.1)) = true := by
    intro a b hab hb
    simp only [Bool.not_eq_true', decide_eq_false_iff_not, UInt8.not_lt] at hb ⊢
    exact UInt8.le_trans (UInt8.le_of_lt hab) hb
  refine ⟨_, _, List.takeWhile_append_dropWhile.symm, rfl, ?_⟩
  rw [Sorted.takeWhile_eq_filter sorted hclosed, Sorted.dropWhile_eq_filter sorted hclosed]
  apply List.pairwise_append.mpr
  refine ⟨sorted.filter _, List.pairwise_cons.mpr ⟨?_, sorted.filter _⟩, ?_⟩
  · intro e he
    simpa using (List.mem_filter.mp he).2
  · intro a ha b hb
    obtain ⟨hmem, hle⟩ := List.mem_filter.mp ha
    have hac : a.1 < c := by
      apply UInt8.lt_of_le_of_ne
      · simpa using hle
      · exact missing a hmem
    rcases List.mem_cons.mp hb with rfl | hb
    · exact hac
    · exact UInt8.lt_trans hac (by simpa using (List.mem_filter.mp hb).2)

theorem Grows.leaf {key : Bytes} {data : Option α} {r : Node α × ℕ}
    (h : Grows .leaf key data r) : r.1.entries = [(key, data)] ∧ r.1.count = r.2 + 1 := by
  constructor
  · obtain ⟨l₁, l₂, hnil, hr⟩ := h.adds
    simp only [Node.leaf, Node.entries_plain, Node.own_none, Node.behind_nil,
      List.nil_append] at hnil
    obtain ⟨rfl, rfl⟩ := List.append_eq_nil_iff.mp hnil.symm
    exact hr
  · rw [h.count]
    simp only [Node.leaf, Node.count_plain, List.map_nil, List.sum_nil]
    omega

/-- What is added below a node that the walk has reached is a chain for the rest of the key. -/
theorem grow_spec {value : Option (Option α)} {edges : List (UInt8 × Node α)} (s : Bytes)
    (data : Option α) (hw : (Node.plain value edges).WF) (hkey : s = [] → value = none)
    (missing : ∀ c ∈ s.head?, ∀ e ∈ edges, e.1 ≠ c) :
    Grows (.plain value edges) s data (grow (.plain value edges) s data) := by
  have hleaf : (Node.leaf : Node α).WF := .leaf
  induction hn : s.length using Nat.strong_induction_on generalizing s value edges with
  | _ n ih =>
    cases s with
    | nil =>
      obtain ⟨hwf, hfull⟩ := hw.setData data
      obtain rfl := hkey rfl
      rw [grow]
      refine ⟨hwf, hfull, ⟨[], _, rfl, ?_⟩, by simp⟩
      rw [Node.entries_eq, Node.entries_eq, Node.value_setData, Node.inner_setData]
      rfl
    | cons c s =>
      rw [grow]
      split
      · rename_i hchain
        obtain ⟨hsize, hlen⟩ := hchain
        obtain rfl : edges = [] := List.length_eq_zero_iff.mp hsize
        have hgrow : Grows .leaf ((c :: s).drop nodeMaxSize) data
            (grow .leaf ((c :: s).drop nodeMaxSize) data) :=
          ih _ (by simp [← hn, nodeMaxSize]) _ hleaf (fun _ => rfl) (by simp) rfl
        obtain ⟨hentries, hcount⟩ := hgrow.leaf
        dsimp only
        refine ⟨.compressed ?_ hgrow.full hgrow.wf, .inr (by simp [Node.children]), ?_, ?_⟩
        · rw [List.length_take, nodeMaxSize, List.length_cons]
          omega
        · refine ⟨Node.own value, [], by simp, ?_⟩
          rw [Node.entries_compressed, hentries]
          simp [under, Node.value]
        · rw [Node.count_compressed, hcount, Node.count_plain, List.map_nil, List.sum_nil]
          omega
      · have hgrow : Grows .leaf s data (grow .leaf s data) :=
          ih s.length (by simp [← hn]) s hleaf (fun _ => rfl) (by simp) rfl
        obtain ⟨hentries, hcount⟩ := hgrow.leaf
        cases hw with
        | plain sorted full wf =>
          obtain ⟨l₁, l₂, rfl, hadd, hsorted⟩ := exists_addEdge sorted (missing c rfl)
            (grow .leaf s data).1
          have hnew : ∀ {P : Node α → Prop}, (∀ e ∈ l₁ ++ l₂, P e.2) →
              P (grow .leaf s data).1 →
                ∀ e ∈ l₁ ++ (c, (grow .leaf s data).1) :: l₂, P e.2 := by
            intro P hall hP e he
            rcases List.mem_append.mp he with he | he
            · exact hall e (List.mem_append_left _ he)
            · rcases List.mem_cons.mp he with rfl | he
              · exact hP
              · exact hall e (List.mem_append_right _ he)
          dsimp only [Node.addChild]
          rw [hadd]
          constructor
          · exact .plain hsorted (hnew full hgrow.full) (hnew wf hgrow.wf)
          · exact .inr (by simp [Node.children])
          · refine ⟨Node.own value ++ Node.behind l₁, Node.behind l₂, by simp, ?_⟩
            simp [hentries]
          · simp only [Node.count_plain, List.map_append, List.map_cons, List.sum_append,
              List.sum_cons, hcount]
            omega

theorem splitEnd_spec {value : Option (Option α)} {l : Bytes} (hl : l ≠ []) (b : UInt8)
    (l' : Bytes) {next : Node α} (hw : (Node.compressed value (l ++ b :: l') next).WF)
    (data : Option α) :
    Grows (.compressed value (l ++ b :: l') next) l data
      (splitEnd value (l ++ b :: l') next l.length data, 1) := by
  cases hw with
  | compressed long full wf =>
    obtain ⟨hwf, hfull⟩ :=
      Node.WF.chain (some data) (List.cons_ne_nil b l') wf full
    obtain ⟨hwf', hfull'⟩ := Node.WF.chain value hl hwf hfull
    rw [splitEnd, List.take_left, List.drop_left]
    refine ⟨hwf', hfull', ⟨Node.own value, under (l ++ b :: l') next.entries, by simp, ?_⟩, ?_⟩
    · rw [Node.entries_chain hl, Node.entries_chain (List.cons_ne_nil b l')]
      simp
    · simp only [Node.count_chain, Node.count_compressed]

theorem splitMismatch_spec {value : Option (Option α)} {l : Bytes} {b c : UInt8} (hne : b ≠ c)
    (l' s : Bytes) {next : Node α} (hw : (Node.compressed value (l ++ b :: l') next).WF)
    (data : Option α) :
    Grows (.compressed value (l ++ b :: l') next) (l ++ c :: s) data
      (splitMismatch value (l ++ b :: l') next l.length (c :: s) data) := by
  cases hw with
  | compressed long full wf =>
    have htail : (l ++ b :: l').drop (l.length + 1) = l' := by simp
    have hget : (l ++ b :: l').getD l.length 0 = b := by simp
    obtain ⟨after, hafter, hentries, hwf, hfull, hcount⟩ : ∃ after,
        (if l' = [] then next else .chain none l' next) = after ∧
          after.entries = under l' next.entries ∧ after.WF ∧ after.Full ∧
            after.count = next.count + if l' = [] then 0 else 1 := by
      refine ⟨_, rfl, ?_⟩
      split
      · rename_i h
        simp [h, wf, full]
      · rename_i h
        obtain ⟨hwf, hfull⟩ := Node.WF.chain none h wf full
        exact ⟨by rw [Node.entries_chain h]; rfl, hwf, hfull, Node.count_chain _ _⟩
    have hsplit : ∀ v : Option (Option α), Grows (.plain v [(b, after)]) (c :: s) data
        (grow (.plain v [(b, after)]) (c :: s) data) := by
      intro v
      apply grow_spec
      · exact .plain (List.pairwise_singleton _ _) (by simpa using hfull) (by simpa using hwf)
      · exact fun h => absurd h (List.cons_ne_nil c s)
      · simpa using hne
    simp only [splitMismatch, htail, hget, hafter, List.take_left]
    cases l with
    | nil =>
      have hgrow := hsplit value
      simp only [List.length_nil, if_pos, List.nil_append, Nat.zero_add]
      refine ⟨hgrow.wf, hgrow.full, ?_, ?_⟩
      · simpa [hentries] using hgrow.adds
      · rw [hgrow.count]
        simp only [Node.count_plain, Node.count_compressed, List.map_cons, List.map_nil,
          List.sum_cons, List.sum_nil, hcount]
        omega
    | cons a l =>
      have hgrow := hsplit none
      have hl := List.cons_ne_nil a l
      simp only [List.length_cons, Nat.add_eq_zero_iff, Nat.one_ne_zero, and_false, if_false]
      obtain ⟨hwf', hfull'⟩ := Node.WF.chain value hl hgrow.wf hgrow.full
      refine ⟨hwf', hfull', ?_, ?_⟩
      · have hadds := (hgrow.adds.under (a :: l)).append (Node.own value) []
        rw [Node.entries_chain hl]
        simpa [hentries] using hadds
      · rw [Node.count_chain, hgrow.count]
        simp only [Node.count_plain, Node.count_compressed, List.map_cons, List.map_nil,
          List.sum_cons, List.sum_nil, hcount]
        omega

theorem Stops.extend {w : Walk α} {passed : Bytes} (h : Stops w.stop passed w.rest)
    (hsplit : w.splitpos = passed.length) (hw : w.stop.WF) (hnot : passed ≠ [] ∨ w.rest ≠ [])
    (data : Option α) : Grows w.stop (passed ++ w.rest) data (extend w data) := by
  obtain ⟨stop, stack, matched, rest, splitpos⟩ := w
  dsimp only at *
  subst hsplit
  cases h with
  | here => simp at hnot
  | edge s missing =>
    apply grow_spec
    · exact hw
    · exact fun h => absurd h (List.cons_ne_nil _ s)
    · simpa using missing
  | inside b l' begun =>
    rw [List.append_nil]
    exact splitEnd_spec begun b l' hw data
  | mismatch l l' s differ => exact splitMismatch_spec differ l' s hw data

theorem Node.WF.nil_mem_entries {n : Node α} (h : n.WF) (data : Option α) :
    ([], data) ∈ n.entries ↔ n.value = some data := by
  have hown : ∀ {value : Option (Option α)}, ([], data) ∈ Node.own value ↔ value = some data := by
    intro value
    cases value with
    | none => simp
    | some d => simp [eq_comm]
  cases h with
  | @plain value edges sorted full wf =>
    rw [Node.entries_plain, List.mem_append, hown]
    refine or_iff_left ?_
    intro hmem
    obtain ⟨f, -, x, -, hx⟩ := Node.mem_behind.mp hmem
    exact absurd hx.symm (List.cons_ne_nil _ _)
  | @compressed value chars child long full wf =>
    rw [Node.entries_compressed, List.mem_append, hown]
    refine or_iff_left ?_
    intro hmem
    obtain ⟨x, -, hx⟩ := mem_under.mp hmem
    obtain ⟨rfl, -⟩ := List.append_eq_nil_iff.mp hx.symm
    simp at long

theorem Stops.not_mem {n : Node α} {passed rest : Bytes} (h : Stops n passed rest)
    (hnot : passed ≠ [] ∨ rest ≠ []) (data : Option α) : (passed ++ rest, data) ∉ n.entries := by
  intro hmem
  have hown : ∀ {value : Option (Option α)}, (passed ++ rest, data) ∉ Node.own value := by
    intro value he
    have hnil := List.append_eq_nil_iff.mp (Node.eq_nil_of_mem_own he)
    tauto
  cases h with
  | here => simp at hnot
  | @edge value edges c s missing =>
    rw [Node.entries_plain] at hmem
    rcases List.mem_append.mp hmem with hmem | hmem
    · exact hown hmem
    · obtain ⟨f, hf, x, -, hx⟩ := Node.mem_behind.mp hmem
      exact missing f hf (List.cons.inj hx).1.symm
  | @inside value l b l' next begun =>
    rw [Node.entries_compressed] at hmem
    rcases List.mem_append.mp hmem with hmem | hmem
    · exact hown hmem
    · obtain ⟨x, -, hx⟩ := mem_under.mp hmem
      have hlen := congrArg List.length hx
      simp at hlen
  | @mismatch value l b c l' s next differ =>
    rw [Node.entries_compressed] at hmem
    rcases List.mem_append.mp hmem with hmem | hmem
    · exact hown hmem
    · obtain ⟨x, -, hx⟩ := mem_under.mp hmem
      simp only [List.append_assoc, List.append_cancel_left_eq, List.cons_append,
        List.cons.injEq] at hx
      exact differ hx.1.symm

namespace Walks

variable {head : Node α} {s passed : Bytes} {w : Walk α}

theorem here_iff (h : Walks head s w passed) :
    (w.rest = [] ∧ w.splitpos = 0) ↔ passed = [] ∧ w.rest = [] := by
  rw [h.splitpos, List.length_eq_zero_iff, and_comm]

theorem mem_entries (h : Walks head s w passed) (hw : head.WF) (data : Option α) :
    (s, data) ∈ head.entries ↔ (passed ++ w.rest, data) ∈ w.stop.entries := by
  rw [h.route.entries, List.mem_append, List.mem_append, h.key]
  constructor
  · rintro ((he | he) | he)
    · exact absurd (h.route.lt_of_mem_before hw he _) (List.lt_irrefl _)
    · obtain ⟨x, hx, hkey⟩ := mem_under.mp he
      rwa [List.append_cancel_left hkey]
    · exact absurd (h.route.lt_of_mem_after hw he _) (List.lt_irrefl _)
  · intro he
    exact .inl (.inr (mem_under.mpr ⟨_, he, rfl⟩))

end Walks

namespace Tree

/-- The counts of a tree are those of its keys and nodes. -/
structure Sound (t : Tree α) : Prop where
  wf : t.head.WF
  numele : t.numele = t.head.entries.length
  numnodes : t.numnodes = t.head.count

theorem sound_empty : ({} : Tree α).Sound := ⟨.leaf, by simp [Node.leaf], by simp [Node.leaf]⟩

theorem find_empty (s : Bytes) : find s ({} : Tree α) = none := by
  cases s with
  | nil => simp [find, lowWalk, Node.leaf, Node.value]
  | cons c s => simp [find, lowWalk, Node.leaf]

variable {t : Tree α}

theorem Sound.find_eq_some (h : t.Sound) (s : Bytes) (data : Option α) :
    find s t = some data ↔ (s, data) ∈ t.head.entries := by
  obtain ⟨passed, hwalk⟩ := exists_walks_lowWalk h.wf .head s 0
  rw [keyOf, List.nil_append] at hwalk
  rw [hwalk.mem_entries h.wf, find]
  split
  · rename_i hhere
    obtain ⟨rfl, hrest⟩ := hwalk.here_iff.mp hhere
    rw [hrest, List.append_nil, (hwalk.route.wf h.wf).nil_mem_entries]
  · rename_i hhere
    have hnot := hwalk.stops.not_mem (by rw [hwalk.here_iff] at hhere; tauto) data
    simp [hnot]

/-- An insertion of a new key adds its entry at its place in the order of keys. -/
theorem Sound.genericInsert_new (h : t.Sound) {s : Bytes} (hs : find s t = none) (overwrite : Bool)
    (data : Option α) : ∃ t', genericInsert overwrite s data t = (true, none, t') ∧ t'.Sound ∧
      Adds s data t.head.entries t'.head.entries := by
  obtain ⟨passed, hwalk⟩ := exists_walks_lowWalk h.wf .head s 0
  rw [keyOf, List.nil_append] at hwalk
  simp only [find] at hs
  simp only [genericInsert]
  generalize lowWalk t.head s 0 [] = w at *
  have hplace : ∀ r : Node α × ℕ, Grows w.stop (passed ++ w.rest) data r →
      Tree.Sound ⟨relink w.stack r.1, t.numele + 1, t.numnodes + r.2⟩ ∧
        Adds s data t.head.entries (relink w.stack r.1).entries := by
    intro r hr
    have hadds := (hr.adds.under (keyOf w.stack)).append (entriesBefore w.stack)
      (entriesAfter w.stack)
    rw [← hwalk.key, ← hwalk.route.entries, ← hwalk.route.entries_relink] at hadds
    refine ⟨⟨(hwalk.route.wf_relink h.wf hr.wf hr.full).1, ?_, ?_⟩, hadds⟩
    · rw [hadds.length, h.numele]
    · have hcount := hwalk.route.count_relink r.1
      rw [hr.count] at hcount
      dsimp only
      rw [h.numnodes]
      omega
  split
  · rename_i hhere
    rw [if_pos hhere] at hs
    obtain ⟨rfl, hrest⟩ := hwalk.here_iff.mp hhere
    obtain ⟨hwf, hfull⟩ := (hwalk.route.wf h.wf).setData data
    have hset : Grows w.stop ([] ++ w.rest) data (w.stop.setData data, 0) := by
      refine ⟨hwf, hfull, ⟨[], w.stop.entries, rfl, ?_⟩, by simp⟩
      rw [hrest, Node.entries_eq, Node.entries_eq, Node.value_setData, Node.inner_setData, hs]
      rfl
    obtain ⟨hsound, hadds⟩ := hplace _ hset
    simp only [hs]
    exact ⟨_, rfl, hsound, hadds⟩
  · rename_i hhere
    rw [hwalk.here_iff] at hhere
    obtain ⟨hsound, hadds⟩ := hplace _ (hwalk.stops.extend hwalk.splitpos (hwalk.route.wf h.wf)
      (by tauto) data)
    exact ⟨_, rfl, hsound, hadds⟩

/-- An insertion of a key that is there keeps or replaces its datum. -/
theorem Sound.genericInsert_old (h : t.Sound) {s : Bytes} {old : Option α}
    (hs : find s t = some old) (overwrite : Bool) (data : Option α) :
    ∃ t' l₁ l₂, genericInsert overwrite s data t = (false, some old, t') ∧ t'.Sound ∧
      t.head.entries = l₁ ++ (s, old) :: l₂ ∧
      t'.head.entries = l₁ ++ (s, if overwrite then data else old) :: l₂ := by
  obtain ⟨passed, hwalk⟩ := exists_walks_lowWalk h.wf .head s 0
  rw [keyOf, List.nil_append] at hwalk
  simp only [find] at hs
  simp only [genericInsert]
  generalize lowWalk t.head s 0 [] = w at *
  obtain ⟨hhere, hs⟩ := Option.ite_none_right_eq_some.mp hs
  obtain ⟨rfl, hrest⟩ := hwalk.here_iff.mp hhere
  obtain ⟨hwf, hfull⟩ := (hwalk.route.wf h.wf).setData data
  have hkey : keyOf w.stack = s := by
    rw [hwalk.key, hrest, List.append_nil, List.append_nil]
  have hold : t.head.entries = entriesBefore w.stack ++
      (s, old) :: (under s w.stop.inner ++ entriesAfter w.stack) := by
    rw [hwalk.route.entries, Node.entries_eq, hs, hkey]
    simp
  have hnew : (relink w.stack (w.stop.setData data)).entries = entriesBefore w.stack ++
      (s, data) :: (under s w.stop.inner ++ entriesAfter w.stack) := by
    rw [hwalk.route.entries_relink, Node.entries_eq, Node.value_setData, Node.inner_setData, hkey]
    simp
  rw [if_pos hhere, hs]
  refine ⟨_, _, _, rfl, ?_, hold, ?_⟩
  · cases overwrite with
    | false => exact h
    | true =>
      refine ⟨(hwalk.route.wf_relink h.wf hwf hfull).1, ?_, ?_⟩
      · rw [if_pos rfl, h.numele, hnew, hold]
        simp
      · have hcount := hwalk.route.count_relink (w.stop.setData data)
        rw [Node.count_setData] at hcount
        rw [if_pos rfl, h.numnodes]
        exact (Nat.add_right_cancel hcount).symm
  · cases overwrite with
    | false => exact hold
    | true => exact hnew

theorem Sound.find_genericInsert (h : t.Sound) (overwrite : Bool) (s : Bytes) (data : Option α) :
    (genericInsert overwrite s data t).2.2.Sound ∧ ∀ x,
      find x (genericInsert overwrite s data t).2.2 =
        if x = s then some (if overwrite then data else (find s t).getD data) else find x t := by
  have heq : ∀ {t' : Tree α} {new : Option α}, t'.Sound →
      (∀ x d, (x, d) ∈ t'.head.entries ↔ x = s ∧ d = new ∨ x ≠ s ∧ (x, d) ∈ t.head.entries) →
        ∀ x, find x t' = if x = s then some new else find x t := by
    intro t' new h' hmem x
    ext d
    rw [h'.find_eq_some, hmem]
    split
    · rename_i hx
      simp [hx, eq_comm]
    · rename_i hx
      rw [h.find_eq_some]
      simp [hx]
  cases hs : find s t with
  | none =>
    obtain ⟨t', hins, hsound, hadds⟩ := h.genericInsert_new hs overwrite data
    rw [hins]
    refine ⟨hsound, ?_⟩
    simp only [Option.getD_none, ite_self]
    apply heq hsound
    intro x d
    have hnot : ∀ d, (s, d) ∉ t.head.entries := by
      intro d hd
      rw [← h.find_eq_some, hs] at hd
      cases hd
    rw [hadds.mem_iff, Prod.mk.injEq]
    by_cases hx : x = s
    · subst hx
      simp [hnot]
    · simp [hx]
  | some old =>
    obtain ⟨t', l₁, l₂, hins, hsound, hold, hnew⟩ := h.genericInsert_old hs overwrite data
    rw [hins]
    refine ⟨hsound, ?_⟩
    apply heq hsound
    intro x d
    rw [Option.getD_some, hnew, hold]
    have hinc := h.wf.increasing
    rw [hold] at hinc
    have hnot : ∀ d, (s, d) ∉ l₁ ∧ (s, d) ∉ l₂ := by
      intro d
      obtain ⟨-, h₂, h₁⟩ := List.pairwise_append.mp hinc
      constructor
      · intro hd
        exact List.lt_irrefl s (h₁ _ hd _ List.mem_cons_self)
      · intro hd
        exact List.lt_irrefl s ((List.pairwise_cons.mp h₂).1 _ hd)
    simp only [List.mem_append, List.mem_cons, Prod.mk.injEq]
    by_cases hx : x = s
    · subst hx
      simp [hnot]
    · simp [hx]

theorem Sound.reply_genericInsert (h : t.Sound) (overwrite : Bool) (s : Bytes) (data : Option α) :
    (genericInsert overwrite s data t).1 = (find s t).isNone ∧
      (genericInsert overwrite s data t).2.1 = find s t := by
  cases hs : find s t with
  | none =>
    obtain ⟨t', hins, -⟩ := h.genericInsert_new hs overwrite data
    simp [hins]
  | some old =>
    obtain ⟨t', l₁, l₂, hins, -⟩ := h.genericInsert_old hs overwrite data
    simp [hins]

end Tree

theorem recursiveFree_plain (value : Option (Option α)) (edges : List (UInt8 × Node α)) :
    recursiveFree (.plain value edges) =
      ((edges.reverse.flatMap fun e => (recursiveFree e.2).1) ++ (value.getD none).toList,
        (edges.map fun e => (recursiveFree e.2).2).sum + 1) := by
  have hbelow : (edges.attach.reverse.map fun e => recursiveFree e.1.2) =
      edges.reverse.map fun e => recursiveFree e.2 := by
    rw [List.map_reverse, List.map_reverse,
      List.map_subtype (g := fun e => recursiveFree e.2) fun _ _ => rfl, List.unattach_attach]
  rw [recursiveFree, hbelow, List.flatMap_map, List.map_map, List.map_reverse, List.sum_reverse]
  rfl

theorem filterMap_under (label : Bytes) (l : Entries α) :
    (under label l).filterMap (·.2) = l.filterMap (·.2) := by
  simp [under, List.filterMap_map]

theorem filterMap_own (value : Option (Option α)) :
    (Node.own value).filterMap (·.2) = (value.getD none).toList := by
  rcases value with _ | _ | data
  · rfl
  · rfl
  · rfl

/-- A tree releases each of its data once and each of its nodes. -/
theorem Node.WF.recursiveFree {n : Node α} (h : n.WF) :
    (Rax.recursiveFree n).1.Perm (n.entries.filterMap (·.2)) ∧
      (Rax.recursiveFree n).2 = n.count := by
  induction h with
  | @plain value edges sorted full wf ih =>
    rw [recursiveFree_plain, Node.entries_plain, Node.count_plain, List.filterMap_append,
      filterMap_own]
    constructor
    · refine List.perm_append_comm.trans (.append_left _ ?_)
      have hbehind : (Node.behind edges).filterMap (·.2) =
          edges.flatMap fun e => e.2.entries.filterMap (·.2) := by
        rw [Node.behind, List.filterMap_flatMap]
        simp only [filterMap_under]
      rw [hbehind]
      refine (List.Perm.flatMap_right _ (List.reverse_perm edges)).trans ?_
      exact List.Perm.flatMap_left _ fun e he => (ih e he).1
    · rw [List.map_congr_left fun e he => (ih e he).2]
  | @compressed value chars child long full wf ih =>
    rw [Rax.recursiveFree, Node.entries_compressed, Node.count_compressed, List.filterMap_append,
      filterMap_own, filterMap_under]
    exact ⟨List.perm_append_comm.trans (.append_left _ ih.1), congrArg (· + 1) ih.2⟩

abbrev Contents (α : Type) := Bytes → Option (Option α)

def Contents.insert (overwrite : Bool) (s : Bytes) (data : Option α) (m : Contents α) :
    Bool × Option (Option α) × Contents α :=
  match m s with
  | some old => (false, some old, if overwrite then Function.update m s (some data) else m)
  | none => (true, none, Function.update m s (some data))

/-- One call to insert a key: whether it overwrites, the key and the datum. -/
abbrev Insertion (α : Type) := Bool × Bytes × Option α

def insertAll {σ : Type} (step : Bool → Bytes → Option α → σ → Bool × Option (Option α) × σ) :
    List (Insertion α) → σ → List (Bool × Option (Option α)) × σ
  | [], state => ([], state)
  | (overwrite, s, data) :: rest, state =>
    let r := step overwrite s data state
    let final := insertAll step rest r.2.2
    ((r.1, r.2.1) :: final.1, final.2)

theorem Contents.exists_insertion {m : Contents α} {ops : List (Insertion α)} {s : Bytes}
    {data : Option α} (h : (insertAll Contents.insert ops m).2 s = some data) :
    m s = some data ∨ ∃ op ∈ ops, op.2.1 = s := by
  induction ops generalizing m with
  | nil => exact .inl h
  | cons op ops ih =>
    obtain ⟨overwrite, key, new⟩ := op
    by_cases hs : key = s
    · exact .inr ⟨_, List.mem_cons_self, hs⟩
    · rcases ih h with h | ⟨op, hop, hkey⟩
      · left
        rw [← h, Contents.insert]
        cases m key with
        | none => exact (Function.update_of_ne (Ne.symm hs) _ m).symm
        | some old =>
          cases overwrite with
          | false => rfl
          | true => exact (Function.update_of_ne (Ne.symm hs) _ m).symm
      · exact .inr ⟨op, List.mem_cons_of_mem _ hop, hkey⟩

/-- Insertions into a tree are those into a map: the answers agree and the same keys are found. -/
theorem Tree.Sound.insertAll {t : Tree α} (h : t.Sound) {m : Contents α} (hm : ∀ s, find s t = m s)
    (ops : List (Insertion α)) :
    (insertAll genericInsert ops t).2.Sound ∧
      (Rax.insertAll genericInsert ops t).1 = (Rax.insertAll Contents.insert ops m).1 ∧
        ∀ s, find s (Rax.insertAll genericInsert ops t).2 =
          (Rax.insertAll Contents.insert ops m).2 s := by
  induction ops generalizing t m with
  | nil => exact ⟨h, rfl, hm⟩
  | cons op ops ih =>
    obtain ⟨overwrite, s, data⟩ := op
    obtain ⟨hsound, hfind⟩ := h.find_genericInsert overwrite s data
    obtain ⟨hnew, hold⟩ := h.reply_genericInsert overwrite s data
    have hstep : ∀ x, find x (genericInsert overwrite s data t).2.2 =
        (Contents.insert overwrite s data m).2.2 x := by
      intro x
      rw [hfind, hm, hm, Contents.insert]
      cases hs : m s with
      | none =>
        by_cases hx : x = s
        · simp [hx]
        · simp [hx]
      | some old =>
        cases overwrite with
        | false =>
          by_cases hx : x = s
          · simp [hx, hs]
          · simp [hx]
        | true =>
          by_cases hx : x = s
          · simp [hx]
          · simp [hx]
    have hreply : ((genericInsert overwrite s data t).1, (genericInsert overwrite s data t).2.1) =
        ((Contents.insert overwrite s data m).1, (Contents.insert overwrite s data m).2.1) := by
      rw [hnew, hold, hm, Contents.insert]
      cases m s with
      | none => rfl
      | some old => rfl
    obtain ⟨hrun, hreplies, hcontents⟩ := ih hsound hstep
    refine ⟨hrun, ?_, hcontents⟩
    rw [Rax.insertAll, Rax.insertAll, hreply, hreplies]

/-- A tree that insertions have built from an empty one is that of an ordered map: the answers and
what is found are those of the map, the entries are its own in the order of their keys, and both
counts are exact. A release frees each node and each datum once, so the number of nodes ends at
zero. -/
theorem insertions_exact (ops : List (Insertion α)) :
    let t := (insertAll genericInsert ops {}).2
    let m := insertAll Contents.insert ops fun _ => none
    (insertAll genericInsert ops {}).1 = m.1 ∧ (∀ s, find s t = m.2 s) ∧
      (t.head.entries.Pairwise fun a b => a.1 < b.1) ∧
      (∀ s data, (s, data) ∈ t.head.entries ↔ m.2 s = some data) ∧
      t.numele = t.head.entries.length ∧ (recursiveFree t.head).2 = t.numnodes ∧
      (recursiveFree t.head).1.Perm (t.head.entries.filterMap (·.2)) := by
  intro t m
  obtain ⟨hsound, hreplies, hfind⟩ := Tree.sound_empty.insertAll Tree.find_empty ops
  obtain ⟨hfreed, hcount⟩ := hsound.wf.recursiveFree
  refine ⟨hreplies, hfind, hsound.wf.increasing, ?_, hsound.numele, ?_, hfreed⟩
  · intro s data
    rw [← hsound.find_eq_some, hfind]
  · rw [hcount, hsound.numnodes]

end TrueStore.Rax
