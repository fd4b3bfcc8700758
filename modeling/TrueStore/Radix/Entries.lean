import TrueStore.Radix.Basic

/-! # The entries of a radix tree

A node stands for the list of the entries below it. In a well-formed tree the list is sorted. A
route from the head to a node splits the entries of the tree into those before the node, those
below it and those after it.
-/

namespace TrueStore.Rax

variable {α : Type}

theorem append_lt_append_iff (k x y : Bytes) : k ++ x < k ++ y ↔ x < y := by
  induction k with
  | nil => rfl
  | cons a k ih => simp [ih]

theorem nil_lt_append {label : Bytes} (h : label ≠ []) (x : Bytes) : [] < label ++ x := by
  cases label with
  | nil => exact absurd rfl h
  | cons a label => exact List.nil_lt_cons a (label ++ x)

theorem cons_lt_cons_of_lt {a b : UInt8} (h : a < b) (x y : Bytes) : a :: x < b :: y :=
  List.cons_lt_cons_iff.mpr (.inl h)

abbrev Entries (α : Type) := List (Bytes × Option α)

def under (label : Bytes) (l : Entries α) : Entries α := l.map fun e => (label ++ e.1, e.2)

@[simp] theorem under_nil (label : Bytes) : under label ([] : Entries α) = [] := rfl

@[simp] theorem under_cons (label : Bytes) (e : Bytes × Option α) (l : Entries α) :
    under label (e :: l) = (label ++ e.1, e.2) :: under label l := rfl

@[simp] theorem under_append (label : Bytes) (l l' : Entries α) :
    under label (l ++ l') = under label l ++ under label l' := List.map_append

@[simp] theorem under_empty (l : Entries α) : under [] l = l := by simp [under]

@[simp] theorem under_under (label label' : Bytes) (l : Entries α) :
    under label (under label' l) = under (label ++ label') l := by simp [under]

@[simp] theorem length_under (label : Bytes) (l : Entries α) :
    (under label l).length = l.length := List.length_map _

theorem mem_under {label : Bytes} {l : Entries α} {e : Bytes × Option α} :
    e ∈ under label l ↔ ∃ x, (x, e.2) ∈ l ∧ e.1 = label ++ x := by
  constructor
  · intro h
    obtain ⟨⟨x, d⟩, hx, rfl⟩ := List.mem_map.mp h
    exact ⟨x, hx, rfl⟩
  · rintro ⟨x, hx, he⟩
    exact List.mem_map.mpr ⟨(x, e.2), hx, Prod.ext he.symm rfl⟩

def Increasing (l : Entries α) : Prop := l.Pairwise fun a b => a.1 < b.1

theorem Increasing.under {l : Entries α} (h : Increasing l) (label : Bytes) :
    Increasing (under label l) :=
  h.map _ fun a b hab => (append_lt_append_iff label a.1 b.1).mpr hab

/-- A new entry at some place in a list. -/
def Adds (key : Bytes) (data : Option α) (l l' : Entries α) : Prop :=
  ∃ l₁ l₂, l = l₁ ++ l₂ ∧ l' = l₁ ++ (key, data) :: l₂

namespace Adds

variable {key : Bytes} {data : Option α} {l l' : Entries α}

theorem under (h : Adds key data l l') (label : Bytes) :
    Adds (label ++ key) data (under label l) (under label l') := by
  obtain ⟨l₁, l₂, rfl, rfl⟩ := h
  exact ⟨Rax.under label l₁, Rax.under label l₂, under_append _ _ _, by simp⟩

theorem append (h : Adds key data l l') (before after : Entries α) :
    Adds key data (before ++ l ++ after) (before ++ l' ++ after) := by
  obtain ⟨l₁, l₂, rfl, rfl⟩ := h
  exact ⟨before ++ l₁, l₂ ++ after, by simp, by simp⟩

theorem length (h : Adds key data l l') : l'.length = l.length + 1 := by
  obtain ⟨l₁, l₂, rfl, rfl⟩ := h
  simp only [List.length_append, List.length_cons]
  omega

theorem mem_iff (h : Adds key data l l') (e : Bytes × Option α) :
    e ∈ l' ↔ e = (key, data) ∨ e ∈ l := by
  obtain ⟨l₁, l₂, rfl, rfl⟩ := h
  simp only [List.mem_append, List.mem_cons]
  tauto

end Adds

namespace Node

def own (value : Option (Option α)) : Entries α := value.toList.map fun data => ([], data)

@[simp] theorem own_none : own (none : Option (Option α)) = [] := rfl

@[simp] theorem own_some (data : Option α) : own (some data) = [([], data)] := rfl

theorem eq_nil_of_mem_own {value : Option (Option α)} {e : Bytes × Option α} (h : e ∈ own value) :
    e.1 = [] := by
  obtain ⟨_, _, rfl⟩ := List.mem_map.mp h
  rfl

def entries : Node α → Entries α
  | .plain value edges =>
    own value ++ edges.attach.flatMap fun e => under [e.1.1] (entries e.1.2)
  | .compressed value chars child => own value ++ under chars (entries child)
decreasing_by
  · have := sizeOf_edge e.2
    simp only [Node.plain.sizeOf_spec]
    omega
  · simp

def behind (edges : List (UInt8 × Node α)) : Entries α :=
  edges.flatMap fun e => under [e.1] e.2.entries

@[simp] theorem behind_nil : behind ([] : List (UInt8 × Node α)) = [] := rfl

@[simp] theorem behind_cons (e : UInt8 × Node α) (edges : List (UInt8 × Node α)) :
    behind (e :: edges) = under [e.1] e.2.entries ++ behind edges := rfl

@[simp] theorem behind_append (edges edges' : List (UInt8 × Node α)) :
    behind (edges ++ edges') = behind edges ++ behind edges' := List.flatMap_append

@[simp] theorem entries_plain (value : Option (Option α)) (edges : List (UInt8 × Node α)) :
    (plain value edges).entries = own value ++ behind edges := by
  rw [entries, behind, List.flatMap_subtype (g := fun e => under [e.1] e.2.entries) fun _ _ => rfl,
    List.unattach_attach]

@[simp] theorem entries_compressed (value : Option (Option α)) (chars : Bytes) (child : Node α) :
    (compressed value chars child).entries = own value ++ under chars child.entries := by
  rw [entries]

def inner : Node α → Entries α
  | .plain _ edges => behind edges
  | .compressed _ chars child => under chars child.entries

theorem entries_eq (n : Node α) : n.entries = own n.value ++ n.inner := by
  cases n with
  | plain value edges => rw [entries_plain]; rfl
  | compressed value chars child => rw [entries_compressed]; rfl

@[simp] theorem value_setData (data : Option α) (n : Node α) :
    (n.setData data).value = some data := by cases n <;> rfl

@[simp] theorem inner_setData (data : Option α) (n : Node α) :
    (n.setData data).inner = n.inner := by cases n <;> rfl

def count : Node α → ℕ
  | .plain _ edges => (edges.attach.map fun e => count e.1.2).sum + 1
  | .compressed _ _ child => count child + 1
decreasing_by
  · have := sizeOf_edge e.2
    simp only [Node.plain.sizeOf_spec]
    omega
  · simp

@[simp] theorem count_plain (value : Option (Option α)) (edges : List (UInt8 × Node α)) :
    (plain value edges).count = (edges.map fun e => e.2.count).sum + 1 := by
  rw [count, List.map_subtype (g := fun e => e.2.count) fun _ _ => rfl, List.unattach_attach]

@[simp] theorem count_compressed (value : Option (Option α)) (chars : Bytes) (child : Node α) :
    (compressed value chars child).count = child.count + 1 := by rw [count]

/-- Only the head of a tree may be neither a key nor a parent. -/
def Full (n : Node α) : Prop := n.isKey = true ∨ n.children ≠ 0

/-- The edges of a node are sorted, a compressed node has several bytes, and no branch ends without
a key. -/
inductive WF : Node α → Prop
  | plain {value : Option (Option α)} {edges : List (UInt8 × Node α)}
      (sorted : edges.Pairwise fun e f => e.1 < f.1) (full : ∀ e ∈ edges, e.2.Full)
      (wf : ∀ e ∈ edges, WF e.2) : WF (.plain value edges)
  | compressed {value : Option (Option α)} {chars : Bytes} {child : Node α}
      (long : 1 < chars.length) (full : child.Full) (wf : WF child) :
      WF (.compressed value chars child)

theorem WF.leaf : WF (leaf : Node α) := .plain .nil (by simp) (by simp)

theorem mem_behind {edges : List (UInt8 × Node α)} {e : Bytes × Option α} :
    e ∈ behind edges ↔ ∃ f ∈ edges, ∃ x, (x, e.2) ∈ f.2.entries ∧ e.1 = f.1 :: x := by
  rw [behind, List.mem_flatMap]
  constructor
  · rintro ⟨f, hf, he⟩
    obtain ⟨x, hx, h⟩ := mem_under.mp he
    exact ⟨f, hf, x, hx, h⟩
  · rintro ⟨f, hf, x, hx, h⟩
    exact ⟨f, hf, mem_under.mpr ⟨x, hx, h⟩⟩

theorem increasing_own (value : Option (Option α)) : Increasing (own value) := by
  cases value with
  | none => exact .nil
  | some data => exact List.pairwise_singleton _ _

theorem WF.increasing {n : Node α} (h : WF n) : Increasing n.entries := by
  induction h with
  | @plain value edges sorted full wf ih =>
    rw [entries_plain]
    apply List.pairwise_append.mpr
    refine ⟨increasing_own value, ?_, ?_⟩
    · apply List.pairwise_flatMap.mpr
      constructor
      · intro e he
        exact (ih e he).under [e.1]
      · refine sorted.imp ?_
        intro e f hef a ha b hb
        obtain ⟨x, -, hx⟩ := mem_under.mp ha
        obtain ⟨y, -, hy⟩ := mem_under.mp hb
        rw [hx, hy]
        exact cons_lt_cons_of_lt hef x y
    · intro a ha b hb
      obtain ⟨f, -, x, -, hx⟩ := mem_behind.mp hb
      rw [eq_nil_of_mem_own ha, hx]
      exact List.nil_lt_cons _ _
  | @compressed value chars child long full wf ih =>
    rw [entries_compressed]
    apply List.pairwise_append.mpr
    refine ⟨increasing_own value, ih.under chars, ?_⟩
    intro a ha b hb
    obtain ⟨x, -, hx⟩ := mem_under.mp hb
    rw [eq_nil_of_mem_own ha, hx]
    exact nil_lt_append (by rintro rfl; simp at long) x

theorem entries_ne_nil {n : Node α} (h : WF n) (hf : n.Full) : n.entries ≠ [] := by
  induction h with
  | @plain value edges sorted full wf ih =>
    rw [entries_plain]
    cases value with
    | some data => simp
    | none =>
      cases edges with
      | nil => simp [Full, isKey, Node.value, children] at hf
      | cons e edges =>
        have hne := ih e List.mem_cons_self (full e List.mem_cons_self)
        simpa [under] using fun h => absurd h hne
  | @compressed value chars child long full wf ih =>
    rw [entries_compressed]
    simpa [under] using fun _ => ih full

def before (j : ℕ) : Node α → Entries α
  | .plain value edges => own value ++ behind (edges.take j)
  | .compressed value _ _ => own value

def after (j : ℕ) : Node α → Entries α
  | .plain _ edges => behind (edges.drop (j + 1))
  | .compressed _ _ _ => []

section

variable {n child : Node α} {j : ℕ} {label : Bytes}

theorem modify_append_length (l₁ : List (UInt8 × Node α)) (e : UInt8 × Node α)
    (l₂ : List (UInt8 × Node α)) (f : UInt8 × Node α → UInt8 × Node α) :
    (l₁ ++ e :: l₂).modify l₁.length f = l₁ ++ f e :: l₂ := by
  induction l₁ with
  | nil => rfl
  | cons a l₁ ih => simp [ih]

theorem childAt_cases (h : n.childAt j = some (label, child)) :
    (∃ value c l₁ l₂, n = .plain value (l₁ ++ (c, child) :: l₂) ∧ j = l₁.length ∧ label = [c]) ∨
      ∃ value, n = .compressed value label child ∧ j = 0 := by
  cases n with
  | plain value edges =>
    obtain ⟨⟨c, child'⟩, he, hlabel⟩ := Option.map_eq_some_iff.mp h
    obtain ⟨rfl, rfl⟩ := Prod.mk.inj hlabel
    obtain ⟨hj, hget⟩ := List.getElem?_eq_some_iff.mp he
    left
    refine ⟨value, c, edges.take j, edges.drop (j + 1), ?_, ?_, rfl⟩
    · rw [← hget, ← List.drop_eq_getElem_cons hj, List.take_append_drop]
    · rw [List.length_take, Nat.min_eq_left hj.le]
  | compressed value chars child' =>
    simp only [childAt, Option.ite_none_right_eq_some, Option.some.injEq, Prod.mk.injEq] at h
    obtain ⟨rfl, rfl, rfl⟩ := h
    exact .inr ⟨value, rfl, rfl⟩

theorem entries_childAt (h : n.childAt j = some (label, child)) :
    n.entries = n.before j ++ under label child.entries ++ n.after j := by
  rcases childAt_cases h with ⟨value, c, l₁, l₂, rfl, rfl, rfl⟩ | ⟨value, rfl, rfl⟩
  · simp [before, after]
  · simp [before, after]

theorem childAt_setChild (h : n.childAt j = some (label, child)) (child' : Node α) :
    (n.setChild j child').childAt j = some (label, child') := by
  rcases childAt_cases h with ⟨value, c, l₁, l₂, rfl, rfl, rfl⟩ | ⟨value, rfl, rfl⟩
  · simp [setChild, childAt]
  · rfl

theorem before_setChild (h : n.childAt j = some (label, child)) (child' : Node α) :
    (n.setChild j child').before j = n.before j := by
  rcases childAt_cases h with ⟨value, c, l₁, l₂, rfl, rfl, rfl⟩ | ⟨value, rfl, rfl⟩
  · rw [setChild, modify_append_length]
    simp [before]
  · rfl

theorem after_setChild (h : n.childAt j = some (label, child)) (child' : Node α) :
    (n.setChild j child').after j = n.after j := by
  rcases childAt_cases h with ⟨value, c, l₁, l₂, rfl, rfl, rfl⟩ | ⟨value, rfl, rfl⟩
  · rw [setChild, modify_append_length]
    simp [after]
  · rfl

theorem WF.childAt (hn : WF n) (h : n.childAt j = some (label, child)) :
    WF child ∧ child.Full ∧ label ≠ [] := by
  rcases childAt_cases h with ⟨value, c, l₁, l₂, rfl, rfl, rfl⟩ | ⟨value, rfl, rfl⟩
  · cases hn with
    | plain sorted full wf => exact ⟨wf (c, child) (by simp), full (c, child) (by simp), by simp⟩
  · cases hn with
    | compressed long full wf => exact ⟨wf, full, by rintro rfl; simp at long⟩

/-- The keys before a child are less than all those that its label begins. -/
theorem WF.lt_of_mem_before (hn : WF n) (h : n.childAt j = some (label, child))
    {e : Bytes × Option α} (he : e ∈ n.before j) (x : Bytes) : e.1 < label ++ x := by
  have hown : ∀ {value : Option (Option α)}, e ∈ own value → e.1 < label ++ x := by
    intro value he
    rw [eq_nil_of_mem_own he]
    exact nil_lt_append (hn.childAt h).2.2 x
  rcases childAt_cases h with ⟨value, c, l₁, l₂, rfl, rfl, rfl⟩ | ⟨value, rfl, rfl⟩
  · rw [before, List.take_left] at he
    rcases List.mem_append.mp he with he | he
    · exact hown he
    · obtain ⟨f, hf, y, -, hy⟩ := mem_behind.mp he
      cases hn with
      | plain sorted full wf =>
        rw [hy]
        apply cons_lt_cons_of_lt
        exact (List.pairwise_append.mp sorted).2.2 f hf (c, child) List.mem_cons_self
  · exact hown he

theorem WF.lt_of_mem_after (hn : WF n) (h : n.childAt j = some (label, child))
    {e : Bytes × Option α} (he : e ∈ n.after j) (x : Bytes) : label ++ x < e.1 := by
  rcases childAt_cases h with ⟨value, c, l₁, l₂, rfl, rfl, rfl⟩ | ⟨value, rfl, rfl⟩
  · simp only [after, List.drop_append, List.drop_eq_nil_of_le (Nat.le_succ _), List.nil_append,
      Nat.add_sub_cancel_left, List.drop_succ_cons, List.drop_zero] at he
    obtain ⟨f, hf, y, -, hy⟩ := mem_behind.mp he
    cases hn with
    | plain sorted full wf =>
      rw [hy]
      apply cons_lt_cons_of_lt
      exact (List.pairwise_cons.mp (List.pairwise_append.mp sorted).2.1).1 f hf
  · cases he

theorem WF.setChild {child' : Node α} (hn : WF n) (h : n.childAt j = some (label, child))
    (hc : WF child') (hf : child'.Full) :
    WF (n.setChild j child') ∧ (n.setChild j child').Full := by
  rcases childAt_cases h with ⟨value, c, l₁, l₂, rfl, rfl, rfl⟩ | ⟨value, rfl, rfl⟩
  · rw [Node.setChild, modify_append_length]
    constructor
    · cases hn with
      | plain sorted full wf =>
        have hother : ∀ {P : Node α → Prop}, (∀ e ∈ l₁ ++ (c, child) :: l₂, P e.2) → P child' →
            ∀ e ∈ l₁ ++ (c, child') :: l₂, P e.2 := by
          intro P hall hP e he
          rcases List.mem_append.mp he with he | he
          · exact hall e (List.mem_append_left _ he)
          · rcases List.mem_cons.mp he with rfl | he
            · exact hP
            · exact hall e (List.mem_append_right _ (List.mem_cons_of_mem _ he))
        constructor
        · simpa [List.pairwise_append] using sorted
        · exact hother full hf
        · exact hother wf hc
    · right
      simp [children]
  · cases hn with
    | compressed long full wf =>
      exact ⟨.compressed long hf hc, .inr (by simp [Node.setChild, children])⟩

theorem count_setChild (h : n.childAt j = some (label, child)) (child' : Node α) :
    (n.setChild j child').count + child.count = n.count + child'.count := by
  rcases childAt_cases h with ⟨value, c, l₁, l₂, rfl, rfl, rfl⟩ | ⟨value, rfl, rfl⟩
  · rw [Node.setChild, modify_append_length]
    simp
    omega
  · simp [Node.setChild]
    omega

end

end Node

/-- The links that lead from the head of a tree to a node, the last one first. -/
inductive Route (head : Node α) : Stack α → Node α → Prop
  | head : Route head [] head
  | child {stack : Stack α} {parent n : Node α} {j : ℕ} {label : Bytes}
      (above : Route head stack parent) (link : parent.childAt j = some (label, n)) :
      Route head ((parent, j) :: stack) n

def entriesBefore : Stack α → Entries α
  | [] => []
  | (parent, j) :: stack => entriesBefore stack ++ under (keyOf stack) (parent.before j)

def entriesAfter : Stack α → Entries α
  | [] => []
  | (parent, j) :: stack => under (keyOf stack) (parent.after j) ++ entriesAfter stack

theorem keyOf_cons {parent n : Node α} {j : ℕ} {label : Bytes}
    (link : parent.childAt j = some (label, n)) (stack : Stack α) :
    keyOf ((parent, j) :: stack) = keyOf stack ++ label := by
  rw [keyOf, link]

namespace Route

variable {head n : Node α} {stack : Stack α}

theorem wf (h : Route head stack n) (hw : head.WF) : n.WF := by
  induction h with
  | head => exact hw
  | child above link ih => exact (ih.childAt link).1

theorem entries (h : Route head stack n) :
    head.entries = entriesBefore stack ++ under (keyOf stack) n.entries ++ entriesAfter stack := by
  induction h with
  | head => simp [entriesBefore, entriesAfter, keyOf]
  | @child stack parent n j label above link ih =>
    rw [ih, Node.entries_childAt link, keyOf_cons link, entriesBefore, entriesAfter]
    simp

theorem entries_relink (h : Route head stack n) (n' : Node α) :
    (relink stack n').entries =
      entriesBefore stack ++ under (keyOf stack) n'.entries ++ entriesAfter stack := by
  induction h generalizing n' with
  | head => simp [relink, entriesBefore, entriesAfter, keyOf]
  | @child stack parent n j label above link ih =>
    rw [relink, ih, Node.entries_childAt (Node.childAt_setChild link n'), keyOf_cons link,
      Node.before_setChild link, Node.after_setChild link, entriesBefore, entriesAfter]
    simp

theorem wf_relink {n' : Node α} (h : Route head stack n) (hw : head.WF) (hn : n'.WF)
    (hf : n'.Full) : (relink stack n').WF ∧ (relink stack n').Full := by
  induction h generalizing n' with
  | head => exact ⟨hn, hf⟩
  | child above link ih =>
    obtain ⟨hwf, hfull⟩ := (above.wf hw).setChild link hn hf
    exact ih hwf hfull

theorem count_relink (h : Route head stack n) (n' : Node α) :
    (relink stack n').count + n.count = head.count + n'.count := by
  induction h generalizing n' with
  | head => exact Nat.add_comm _ _
  | @child stack parent n j label above link ih =>
    have hparent := ih (parent.setChild j n')
    have hlink := Node.count_setChild link n'
    rw [relink]
    omega

theorem lt_of_mem_before (h : Route head stack n) (hw : head.WF) {e : Bytes × Option α}
    (he : e ∈ entriesBefore stack) (x : Bytes) : e.1 < keyOf stack ++ x := by
  induction h generalizing x with
  | head => cases he
  | @child stack parent n j label above link ih =>
    rw [keyOf_cons link, List.append_assoc]
    rcases List.mem_append.mp he with he | he
    · exact ih he (label ++ x)
    · obtain ⟨y, hy, hkey⟩ := mem_under.mp he
      rw [hkey, append_lt_append_iff]
      exact (above.wf hw).lt_of_mem_before link hy x

theorem lt_of_mem_after (h : Route head stack n) (hw : head.WF) {e : Bytes × Option α}
    (he : e ∈ entriesAfter stack) (x : Bytes) : keyOf stack ++ x < e.1 := by
  induction h generalizing x with
  | head => cases he
  | @child stack parent n j label above link ih =>
    rw [keyOf_cons link, List.append_assoc]
    rcases List.mem_append.mp he with he | he
    · obtain ⟨y, hy, hkey⟩ := mem_under.mp he
      rw [hkey, append_lt_append_iff]
      exact (above.wf hw).lt_of_mem_after link hy x
    · exact ih he (label ++ x)

end Route

end TrueStore.Rax
