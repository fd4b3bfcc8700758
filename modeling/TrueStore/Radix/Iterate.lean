import TrueStore.Radix.Insert

/-! # Iteration over a radix tree

A place in a tree has the entries from its node on ahead of it. A step goes to the next of them, by
way of the first child or of the next child of a parent, and a seek goes to the first one whose key
is not less than the one sought. A step takes no more rounds than the longest key has bytes.
-/

namespace TrueStore.Rax

variable {α : Type}

namespace Position

structure At (head : Node α) (pos : Position α) : Prop where
  route : Route head pos.stack pos.node
  key : pos.key = keyOf pos.stack

def ahead (pos : Position α) : Entries α :=
  under pos.key pos.node.entries ++ entriesAfter pos.stack

def rest (pos : Position α) : Entries α :=
  under pos.key pos.node.inner ++ entriesAfter pos.stack

theorem ahead_eq (pos : Position α) :
    pos.ahead = under pos.key (Node.own pos.node.value) ++ pos.rest := by
  rw [ahead, rest, Node.entries_eq, under_append, List.append_assoc]

theorem At.child {head parent n : Node α} {stack : Stack α} {j : ℕ} {label : Bytes}
    (route : Route head stack parent) (link : parent.childAt j = some (label, n)) :
    At head ⟨n, keyOf stack ++ label, (parent, j) :: stack⟩ ∧
      ahead ⟨n, keyOf stack ++ label, (parent, j) :: stack⟩ =
        under (keyOf stack) (under label n.entries ++ parent.after j) ++ entriesAfter stack := by
  refine ⟨⟨route.child link, (keyOf_cons link stack).symm⟩, ?_⟩
  simp [ahead, entriesAfter]

end Position

/-- A place where a list of entries begins, or none if there are no entries. -/
def Leads (head : Node α) (l : Entries α) : Option (Position α) → Prop
  | none => l = []
  | some pos => pos.At head ∧ pos.node.Full ∧ pos.ahead = l

namespace Node

theorem scanNext_plain (value : Option (Option α)) {l₁ l₂ : List (UInt8 × Node α)}
    (first : Bool) {c : UInt8} (h₁ : ∀ e ∈ l₁, ¬c < e.1) (h₂ : ∀ e ∈ l₂, c < e.1)
    (hfirst : first = false → l₁ ≠ []) :
    (plain value (l₁ ++ l₂)).scanNext first c = l₂.head?.map fun e => (l₁.length, e) := by
  have hidx : (l₁ ++ l₂).findIdx (fun e => decide (c < e.1)) = l₁.length := by
    rw [List.findIdx_append, List.findIdx_eq_length.mpr (by simpa using h₁), if_neg (by simp)]
    cases l₂ with
    | nil => simp
    | cons e l₂ => simp [List.findIdx_cons, h₂ e List.mem_cons_self]
  rw [scanNext, hidx, List.getElem?_append_right le_rfl, Nat.sub_self, ← List.head?_eq_getElem?]
  cases l₂ with
  | nil => simp
  | cons e l₂ =>
    apply if_pos
    cases first with
    | true => simp
    | false =>
      have hpos := List.length_pos_iff.mpr (hfirst rfl)
      simp
      omega

end Node

theorem leads_sibling {head : Node α} {stack : Stack α} {value : Option (Option α)}
    (l₁ : List (UInt8 × Node α)) {l₂ : List (UInt8 × Node α)} {e : UInt8 × Node α} (hw : head.WF)
    (route : Route head stack (.plain value (l₁ ++ e :: l₂))) :
    Leads head (under (keyOf stack) (Node.behind (e :: l₂)) ++ entriesAfter stack)
      (some ⟨e.2, keyOf stack ++ [e.1], (.plain value (l₁ ++ e :: l₂), l₁.length) :: stack⟩) := by
  have link : (Node.plain value (l₁ ++ e :: l₂)).childAt l₁.length = some ([e.1], e.2) := by
    simp [Node.childAt]
  obtain ⟨hat, hahead⟩ := Position.At.child route link
  refine ⟨hat, ((route.wf hw).childAt link).2.1, ?_⟩
  rw [hahead]
  simp [Node.after]

/-- The way up leads to what comes after a node. -/
theorem leads_climb {head n : Node α} {stack : Stack α} (hw : head.WF)
    (route : Route head stack n) :
    Leads head (entriesAfter stack) (climb stack (keyOf stack)) := by
  induction route with
  | head => rfl
  | @child stack parent n j label above link ih =>
    have hwf := above.wf hw
    rw [keyOf_cons link]
    rcases Node.childAt_cases link with ⟨value, c, l₁, l₂, rfl, rfl, rfl⟩ | ⟨value, rfl, rfl⟩
    · cases hwf with
      | plain sorted full wf =>
        obtain ⟨hs₁, hs₂, hs⟩ := List.pairwise_append.mp sorted
        have hbefore : ∀ e ∈ l₁ ++ [(c, n)], ¬c < e.1 := by
          intro e he
          rcases List.mem_append.mp he with he | he
          · exact UInt8.not_lt.mpr (UInt8.le_of_lt (hs e he _ List.mem_cons_self))
          · rw [List.mem_singleton.mp he]
            exact UInt8.lt_irrefl c
        have hscan := Node.scanNext_plain value false hbefore
          (List.pairwise_cons.mp hs₂).1 (by simp)
        rw [List.append_assoc, List.singleton_append] at hscan
        simp only [climb, Node.todel, List.length_append, List.length_singleton,
          Nat.add_sub_cancel, List.take_left, List.getLastD_concat, hscan]
        cases l₂ with
        | nil => simpa [entriesAfter, Node.after] using ih
        | cons e l₂ =>
          have above' : Route head stack (.plain value ((l₁ ++ [(c, n)]) ++ e :: l₂)) := by
            rwa [List.append_assoc]
          have hnext := leads_sibling _ hw above'
          rw [List.append_assoc] at hnext
          simpa [entriesAfter, Node.after] using hnext
    · simp only [climb, Node.todel, List.length_append, Nat.add_sub_cancel, List.take_left,
        Node.scanNext]
      simpa [entriesAfter, Node.after] using ih

/-- A search at a node itself leads to its children beyond a byte that it has no edge for. -/
theorem leads_climbFrom_plain {head : Node α} {stack : Stack α} {value : Option (Option α)}
    {edges : List (UInt8 × Node α)} {c : UInt8} (hw : head.WF)
    (route : Route head stack (.plain value edges)) (missing : ∀ e ∈ edges, e.1 ≠ c) :
    Leads head (under (keyOf stack) (Node.behind (edges.filter fun e => decide (c < e.1))) ++
        entriesAfter stack)
      (climbFrom ⟨.plain value edges, keyOf stack ++ [c], stack⟩) := by
  cases route.wf hw with
  | plain sorted full wf =>
    obtain ⟨l₁, l₂, rfl, -, hsorted⟩ := exists_addEdge sorted missing .leaf
    obtain ⟨-, hs₂, hs₁⟩ := List.pairwise_append.mp hsorted
    have h₁ : ∀ e ∈ l₁, ¬c < e.1 := fun e he =>
      UInt8.not_lt.mpr (UInt8.le_of_lt (hs₁ e he _ List.mem_cons_self))
    have h₂ : ∀ e ∈ l₂, c < e.1 := (List.pairwise_cons.mp hs₂).1
    have hfilter : (l₁ ++ l₂).filter (fun e => decide (c < e.1)) = l₂ := by
      rw [List.filter_append, List.filter_eq_nil_iff.mpr (by simpa using h₁), List.nil_append,
        List.filter_eq_self.mpr (by simpa using h₂)]
    have hscan := Node.scanNext_plain value true h₁ h₂ (by simp)
    rw [hfilter]
    simp only [climbFrom, Node.todel, List.length_append, List.length_singleton,
      Nat.add_sub_cancel, List.take_left, List.getLastD_concat, hscan]
    cases l₂ with
    | nil => simpa using leads_climb hw route
    | cons e l₂ => exact leads_sibling l₁ hw route

theorem leads_climbFrom_compressed {head next : Node α} {stack : Stack α}
    {value : Option (Option α)} {chars : Bytes} (hw : head.WF)
    (route : Route head stack (.compressed value chars next)) :
    Leads head (entriesAfter stack)
      (climbFrom ⟨.compressed value chars next, keyOf stack ++ chars, stack⟩) := by
  simp only [climbFrom, Node.todel, List.length_append, Nat.add_sub_cancel, List.take_left,
    Node.scanNext]
  exact leads_climb hw route

/-- A step ends at the first entry of a list, or nowhere if there are no entries. -/
def Arrives (head : Node α) (l : Entries α) : Option (Option α × Position α) → Prop
  | none => l = []
  | some (data, pos) => pos.At head ∧ l = (pos.key, data) :: pos.rest

theorem leads_advance {head : Node α} {pos : Position α} (hw : head.WF) (hat : pos.At head) :
    Leads head pos.rest (advance false pos) := by
  obtain ⟨n, key, stack⟩ := pos
  obtain ⟨route, hkey⟩ := hat
  dsimp only at route hkey
  subst hkey
  cases hc : n.childAt 0 with
  | some p =>
    obtain ⟨label, child⟩ := p
    obtain ⟨hat, hahead⟩ := Position.At.child route hc
    simp only [advance, hc]
    refine ⟨hat, ((route.wf hw).childAt hc).2.1, ?_⟩
    have hown : n.before 0 = Node.own n.value := by
      cases n with
      | plain value edges => simp [Node.before, Node.value]
      | compressed value chars next => rfl
    have hinner : n.inner = under label child.entries ++ n.after 0 := by
      have hentries := Node.entries_childAt hc
      rw [hown, Node.entries_eq, List.append_assoc] at hentries
      exact List.append_cancel_left hentries
    rw [hahead, Position.rest, hinner]
  | none =>
    have hinner : n.inner = [] := by
      cases n with
      | plain value edges =>
        cases edges with
        | nil => rfl
        | cons e edges => simp [Node.childAt] at hc
      | compressed value chars next => simp [Node.childAt] at hc
    simpa [advance, hc, Position.rest, hinner] using leads_climb hw route

variable {head : Node α} {longest fuel : ℕ}

/-- From a node with entries ahead, a key is reached before the fuel runs out. -/
theorem exists_arrives (hw : head.WF) (hlong : ∀ e ∈ head.entries, e.1.length ≤ longest)
    {pos : Position α} (hat : pos.At head) (hf : pos.node.Full)
    (hfuel : longest < fuel + pos.key.length) :
    ∃ r, (match pos.node.value with
        | some data => some (some (data, pos))
        | none => stepLoop fuel false pos) = some r ∧ Arrives head pos.ahead r := by
  induction fuel generalizing pos with
  | zero =>
    obtain ⟨e, he⟩ := List.exists_mem_of_ne_nil _ (Node.entries_ne_nil (hat.route.wf hw) hf)
    have hmem : (pos.key ++ e.1, e.2) ∈ head.entries := by
      rw [hat.route.entries, hat.key]
      exact List.mem_append_left _ (List.mem_append_right _ (mem_under.mpr ⟨_, he, rfl⟩))
    have hle := hlong _ hmem
    rw [List.length_append] at hle
    omega
  | succ fuel ih =>
    have hahead := pos.ahead_eq
    cases hv : pos.node.value with
    | some data =>
      refine ⟨_, rfl, hat, ?_⟩
      rw [hahead, hv]
      simp
    | none =>
      rw [hv, Node.own_none, under_nil, List.nil_append] at hahead
      have hchild : ∃ label child, pos.node.childAt 0 = some (label, child) := by
        have hchildren : pos.node.children ≠ 0 := by
          rcases hf with hkey | hchildren
          · rw [Node.isKey, hv] at hkey
            cases hkey
          · exact hchildren
        cases hn : pos.node with
        | plain value edges =>
          rw [hn] at hchildren
          cases edges with
          | nil => exact absurd rfl hchildren
          | cons e edges => exact ⟨[e.1], e.2, rfl⟩
        | compressed value chars child => exact ⟨chars, child, rfl⟩
      obtain ⟨label, child, hc⟩ := hchild
      have hlead := leads_advance hw hat
      simp only [advance, hc] at hlead
      obtain ⟨hat', hfull', hahead'⟩ := hlead
      have hlabel := List.length_pos_iff.mpr ((hat.route.wf hw).childAt hc).2.2
      obtain ⟨r, hr, harr⟩ := ih hat' hfull' (by rw [List.length_append]; omega)
      refine ⟨r, ?_, ?_⟩
      · simp only [stepLoop, advance, hc]
        exact hr
      · rw [hahead, ← hahead']
        exact harr

theorem exists_arrives_of_leads (hw : head.WF)
    (hlong : ∀ e ∈ head.entries, e.1.length ≤ longest) (hfuel : longest + 1 < fuel)
    {noup : Bool} {pos : Position α} {l : Entries α} (hlead : Leads head l (advance noup pos)) :
    ∃ r, stepLoop fuel noup pos = some r ∧ Arrives head l r := by
  cases fuel with
  | zero => omega
  | succ fuel =>
    rw [stepLoop]
    cases hnext : advance noup pos with
    | none =>
      rw [hnext] at hlead
      exact ⟨none, rfl, hlead⟩
    | some pos' =>
      rw [hnext] at hlead
      obtain ⟨hat, hfull, rfl⟩ := hlead
      exact exists_arrives hw hlong hat hfull (by omega)

namespace Iterator

def pending (it : Iterator α) : Entries α :=
  if it.eof then [] else if it.justSeeked then (it.key, it.data) :: it.rest else it.rest

def Valid (head : Node α) (it : Iterator α) : Prop := it.eof = false → it.At head

/-- A search from a node that is not a key leaves the iterator before the first entry. -/
theorem exists_nextStep (hw : head.WF) (hlong : ∀ e ∈ head.entries, e.1.length ≤ longest)
    (hfuel : longest + 1 < fuel) {noup : Bool} (it : Iterator α) (hrun : it.eof = false)
    (hseek : it.justSeeked = false) {l : Entries α}
    (hlead : Leads head l (advance noup it.toPosition)) :
    ∃ it', nextStep fuel noup it = some it' ∧ it'.Valid head ∧ it'.justSeeked = false ∧
      ((l = [] ∧ it'.eof = true) ∨ (it'.eof = false ∧ l = (it'.key, it'.data) :: it'.rest)) := by
  obtain ⟨r, hr, harr⟩ := exists_arrives_of_leads hw hlong hfuel hlead
  rw [nextStep, if_neg (by simp [hrun]), if_neg (by simp [hseek]), hr]
  cases r with
  | none => exact ⟨_, rfl, nofun, hseek, .inl ⟨harr, rfl⟩⟩
  | some p =>
    obtain ⟨data, pos⟩ := p
    exact ⟨_, rfl, fun _ => harr.1, hseek, .inr ⟨hrun, harr.2⟩⟩

/-- A call to `raxNext` returns the first of the pending entries, and fails if there is none. -/
theorem exists_next (hw : head.WF) (hlong : ∀ e ∈ head.entries, e.1.length ≤ longest)
    (hfuel : longest + 1 < fuel) {it : Iterator α} (hv : it.Valid head) :
    ∃ it', it'.Valid head ∧ it'.pending = it.pending.tail ∧
      ((it.pending = [] ∧ next fuel it = some (false, it')) ∨
        next fuel it = some (true, it') ∧ it.pending.head? = some (it'.key, it'.data)) := by
  cases heof : it.eof with
  | true =>
    refine ⟨it, hv, by simp [pending, heof], .inl ⟨by simp [pending, heof], ?_⟩⟩
    simp [next, nextStep, heof]
  | false =>
    cases hseek : it.justSeeked with
    | true =>
      refine ⟨{ it with justSeeked := false }, hv, by simp [pending, heof, hseek], .inr ?_⟩
      simp [next, nextStep, pending, heof, hseek]
    | false =>
      obtain ⟨it', hstep, hvalid, hjust, hend⟩ :=
        exists_nextStep hw hlong hfuel it heof hseek (leads_advance hw (hv heof))
      have hpending : it.pending = it.rest := by simp [pending, heof, hseek]
      rw [hpending]
      refine ⟨it', hvalid, ?_⟩
      rw [next, hstep]
      rcases hend with ⟨hnil, heof'⟩ | ⟨heof', hcons⟩
      · exact ⟨by simp [pending, heof', hnil], .inl ⟨hnil, by simp [heof']⟩⟩
      · exact ⟨by simp [pending, heof', hjust, hcons], .inr ⟨by simp [heof'], by simp [hcons]⟩⟩

/-- The calls to `raxNext` return the pending entries in order, and then fail. -/
theorem nexts_eq (hw : head.WF) (hlong : ∀ e ∈ head.entries, e.1.length ≤ longest)
    (hfuel : longest + 1 < fuel) (n : ℕ) {it : Iterator α} (hv : it.Valid head) :
    nexts fuel n it = some ((List.range n).map fun i => it.pending[i]?) := by
  induction n generalizing it with
  | zero => rfl
  | succ n ih =>
    obtain ⟨it', hv', htail, hnext⟩ := exists_next hw hlong hfuel hv
    have hrest : (List.range n).map (fun i => it'.pending[i]?) =
        (List.range n).map fun i => it.pending[i + 1]? := by
      rw [htail]
      simp
    rw [List.range_succ_eq_map, List.map_cons, List.map_map]
    rcases hnext with ⟨hnil, hnext⟩ | ⟨hnext, hhead⟩
    · simp only [nexts, hnext, Option.bind_some, ih hv', hrest, hnil]
      simp [Function.comp_def]
    · simp only [nexts, hnext, Option.bind_some, ih hv', hrest, ← List.head?_eq_getElem?, hhead]
      simp [Function.comp_def]

end Iterator

/-- A list of entries without those whose keys are less than a bound. -/
def fromKey (s : Bytes) (l : Entries α) : Entries α := l.filter fun e => !decide (e.1 < s)

theorem fromKey_nil (l : Entries α) : fromKey [] l = l := by
  apply List.filter_eq_self.mpr
  intro e _
  simp

theorem fromKey_append (s : Bytes) (l l' : Entries α) :
    fromKey s (l ++ l') = fromKey s l ++ fromKey s l' := List.filter_append _ _

theorem fromKey_eq_nil {s : Bytes} {l : Entries α} (h : ∀ e ∈ l, e.1 < s) : fromKey s l = [] := by
  apply List.filter_eq_nil_iff.mpr
  intro e he
  simp [h e he]

theorem fromKey_eq_self {s : Bytes} {l : Entries α} (h : ∀ e ∈ l, s < e.1) :
    fromKey s l = l := by
  apply List.filter_eq_self.mpr
  intro e he
  have := List.lt_asymm (h e he)
  simpa using this

theorem fromKey_under (label s : Bytes) (l : Entries α) :
    fromKey (label ++ s) (under label l) = under label (fromKey s l) := by
  simp only [fromKey, under, List.filter_map, Function.comp_def, append_lt_append_iff]

theorem Walks.fromKey_entries {s passed : Bytes} {w : Walk α} (h : Walks head s w passed)
    (hw : head.WF) : fromKey s head.entries =
      under (keyOf w.stack) (fromKey (passed ++ w.rest) w.stop.entries) ++
        entriesAfter w.stack := by
  have hbefore : ∀ e ∈ entriesBefore w.stack, e.1 < s := by
    intro e he
    rw [h.key]
    exact h.route.lt_of_mem_before hw he _
  have hafter : ∀ e ∈ entriesAfter w.stack, s < e.1 := by
    intro e he
    rw [h.key]
    exact h.route.lt_of_mem_after hw he _
  rw [h.route.entries, fromKey_append, fromKey_append, fromKey_eq_nil hbefore,
    fromKey_eq_self hafter, List.nil_append, ← fromKey_under, ← h.key]

/-- The entry of a node itself is less than the longer keys. -/
theorem fromKey_entries_node (n : Node α) {s : Bytes} (hs : s ≠ []) :
    fromKey s n.entries = fromKey s n.inner := by
  have hown : ∀ e ∈ Node.own n.value, e.1 < s := by
    intro e he
    rw [Node.eq_nil_of_mem_own he]
    simpa using nil_lt_append hs []
  rw [Node.entries_eq, fromKey_append, fromKey_eq_nil hown, List.nil_append]

theorem fromKey_behind {edges : List (UInt8 × Node α)} {c : UInt8} (s : Bytes)
    (missing : ∀ e ∈ edges, e.1 ≠ c) : fromKey (c :: s) (Node.behind edges) =
      Node.behind (edges.filter fun e => decide (c < e.1)) := by
  induction edges with
  | nil => rfl
  | cons e edges ih =>
    rw [Node.behind_cons, fromKey_append, ih fun f hf => missing f (List.mem_cons_of_mem _ hf)]
    by_cases hlt : c < e.1
    · have hkeep : ∀ f ∈ under [e.1] e.2.entries, c :: s < f.1 := by
        intro f hf
        obtain ⟨x, -, hx⟩ := mem_under.mp hf
        rw [hx]
        exact cons_lt_cons_of_lt hlt s x
      rw [fromKey_eq_self hkeep, List.filter_cons_of_pos (by simpa using hlt), Node.behind_cons]
    · have hdrop : ∀ f ∈ under [e.1] e.2.entries, f.1 < c :: s := by
        intro f hf
        obtain ⟨x, -, hx⟩ := mem_under.mp hf
        rw [hx]
        exact cons_lt_cons_of_lt
          (UInt8.lt_of_le_of_ne (UInt8.not_lt.mp hlt) (missing e List.mem_cons_self)) x s
      rw [fromKey_eq_nil hdrop, List.filter_cons_of_neg (by simpa using hlt), List.nil_append]

theorem exists_seek {t : Tree α} (ht : t.Sound)
    (hlong : ∀ e ∈ t.head.entries, e.1.length ≤ longest) (hfuel : longest + 1 < fuel) (s : Bytes) :
    ∃ it, seek fuel s t = some it ∧ it.Valid t.head ∧ it.pending = fromKey s t.head.entries := by
  rw [seek]
  split
  · rename_i hzero
    rw [ht.numele, List.length_eq_zero_iff] at hzero
    exact ⟨_, rfl, nofun, by rw [hzero]; rfl⟩
  · obtain ⟨passed, hwalk⟩ := exists_walks_lowWalk ht.wf .head s 0
    rw [keyOf, List.nil_append] at hwalk
    generalize lowWalk t.head s 0 [] = w at *
    have hfrom := hwalk.fromKey_entries ht.wf
    obtain ⟨stop, stack, matched, rest, splitpos⟩ := w
    obtain ⟨route, hkey, rfl, hstops⟩ := hwalk
    dsimp only at *
    -- a step from a node that is not the key sought
    have hstep : ∀ {noup : Bool} {key : Bytes},
        Leads t.head (fromKey s t.head.entries) (advance noup ⟨stop, key, stack⟩) →
          ∃ it, ((nextStep fuel noup { node := stop, key, stack, eof := false }).map fun it =>
              { it with justSeeked := true }) = some it ∧
            it.Valid t.head ∧ it.pending = fromKey s t.head.entries := by
      intro noup key hlead
      obtain ⟨it, hit, hv, -, hend⟩ := Iterator.exists_nextStep ht.wf hlong hfuel
        { node := stop, key, stack, eof := false } rfl rfl hlead
      rw [hit]
      refine ⟨_, rfl, hv, ?_⟩
      rcases hend with ⟨hnil, heof⟩ | ⟨heof, hcons⟩
      · rw [hnil, Iterator.pending, if_pos heof]
      · rw [hcons, Iterator.pending, if_neg (by simp [heof]), if_pos rfl]
    have hat : Position.At t.head ⟨stop, keyOf stack, stack⟩ := ⟨route, rfl⟩
    cases hstops with
    | here =>
      rw [List.append_nil, fromKey_nil] at hfrom
      cases hv : stop.value with
      | some data =>
        rw [if_pos ⟨rfl, rfl, by rw [Node.isKey, hv]; rfl⟩]
        refine ⟨_, rfl, fun _ => ⟨route, by simpa using hkey⟩, ?_⟩
        rw [hfrom, Node.entries_eq, hv, hkey]
        simp [Iterator.pending, Position.rest]
      | none =>
        rw [if_neg (by simp [Node.isKey, hv])]
        apply hstep
        rw [hfrom, Node.entries_eq, hv]
        exact leads_advance ht.wf hat
    | @edge value edges c s' missing =>
      rw [if_neg (by simp)]
      apply hstep
      rw [hfrom, List.nil_append, fromKey_entries_node _ (List.cons_ne_nil c s'), Node.inner,
        fromKey_behind s' missing]
      exact leads_climbFrom_plain ht.wf route missing
    | @inside value _ b l' next begun =>
      rw [if_neg (by simp [begun])]
      apply hstep
      have hkeep : ∀ e ∈ under (passed ++ b :: l') next.entries, passed < e.1 := by
        intro e he
        obtain ⟨x, -, hx⟩ := mem_under.mp he
        rw [hx, List.append_assoc]
        conv_lhs => rw [← List.append_nil passed]
        rw [append_lt_append_iff]
        exact List.nil_lt_cons _ _
      rw [hfrom, List.append_nil, fromKey_entries_node _ begun, Node.inner, fromKey_eq_self hkeep]
      exact leads_advance ht.wf hat
    | @mismatch value _ b c l' s' next differ =>
      rw [if_neg (by simp)]
      have hget : (passed ++ b :: l').getD passed.length 0 = b := by simp
      have hinner : ∀ {P : Bytes → Prop}, (∀ x, P (passed ++ b :: x)) →
          ∀ e ∈ under (passed ++ b :: l') next.entries, P e.1 := by
        intro P hP e he
        obtain ⟨x, -, hx⟩ := mem_under.mp he
        rw [hx, List.append_assoc]
        exact hP (l' ++ x)
      rw [fromKey_entries_node _ (List.append_ne_nil_of_right_ne_nil _ (List.cons_ne_nil c s')),
        Node.inner] at hfrom
      dsimp only
      rw [hget]
      by_cases hlt : c < b
      · rw [if_pos hlt]
        apply hstep
        have hkeep := hinner (P := (passed ++ c :: s' < ·)) fun x =>
          (append_lt_append_iff _ _ _).mpr (cons_lt_cons_of_lt hlt s' x)
        rw [hfrom, fromKey_eq_self hkeep]
        exact leads_advance ht.wf hat
      · rw [if_neg hlt]
        apply hstep
        have hdrop := hinner (P := (· < passed ++ c :: s')) fun x =>
          (append_lt_append_iff _ _ _).mpr (cons_lt_cons_of_lt
            (UInt8.lt_of_le_of_ne (UInt8.not_lt.mp hlt) differ) x s')
        rw [hfrom, fromKey_eq_nil hdrop, under_nil, List.nil_append]
        exact leads_climbFrom_compressed ht.wf route

/-- After a seek with `>=` the calls to `raxNext` return the entries from the key sought on, in
order, and fail once there are no more, in a tree that any insertions have built. -/
theorem seek_exact (ops : List (Insertion α)) (s : Bytes) (n : ℕ)
    (hlong : ∀ op ∈ ops, op.2.1.length ≤ longest) (hfuel : longest + 1 < fuel) :
    let t := (insertAll genericInsert ops ({} : Tree α)).2
    (seek fuel s t).bind (nexts fuel n) = some ((List.range n).map fun i =>
      (t.head.entries.filter fun e => !decide (e.1 < s))[i]?) := by
  intro t
  obtain ⟨ht, -, hfind⟩ := Tree.sound_empty.insertAll Tree.find_empty ops
  have hkeys : ∀ e ∈ t.head.entries, e.1.length ≤ longest := by
    intro e he
    have hfound := (ht.find_eq_some e.1 e.2).mpr he
    rw [hfind] at hfound
    rcases Contents.exists_insertion hfound with hnone | ⟨op, hop, hkey⟩
    · cases hnone
    · rw [← hkey]
      exact hlong op hop
  obtain ⟨it, hseek, hv, hpending⟩ := exists_seek ht hkeys hfuel s
  rw [hseek, Option.bind_some, Iterator.nexts_eq ht.wf hkeys hfuel n hv, hpending]
  rfl

theorem seek_exact_split :
    (seek 5 [1, 2] (insertAll genericInsert
        [(false, [1, 2, 3], some 7), (false, [1, 4], none), (true, [1, 2], some 8)] {}).2).bind
      (nexts 5 4) =
    some ((List.range 4).map fun i =>
      ((insertAll genericInsert
        [(false, [1, 2, 3], some 7), (false, [1, 4], none), (true, [1, 2], some 8)]
        ({} : Tree ℕ)).2.head.entries.filter fun e => !decide (e.1 < [1, 2]))[i]?) :=
  @seek_exact ℕ 3 5 _ [1, 2] 4 (by decide) (by decide)

end TrueStore.Rax
