import Mathlib
import TrueStore.Text.Numeral

/-! # Radix trees

The tree that holds the entries of a stream. A node has one child for each of its bytes, or stands
for a chain of nodes with a single child each and then has all their bytes. A key is a path from
the head, with a datum that may be null. The outcome of a failed allocation is left out.
-/

namespace TrueStore.Rax

/-- `RAX_NODE_MAX_SIZE`. -/
def nodeMaxSize : ℕ := 2 ^ 29 - 1

/-- A node, and its datum if it is a key. A compressed node has several bytes and one child. -/
inductive Node (α : Type) where
  | plain (value : Option (Option α)) (edges : List (UInt8 × Node α))
  | compressed (value : Option (Option α)) (chars : Bytes) (child : Node α)

namespace Node

variable {α : Type}

def value : Node α → Option (Option α)
  | .plain value _ => value
  | .compressed value _ _ => value

def isKey (n : Node α) : Bool := n.value.isSome

def size : Node α → ℕ
  | .plain _ edges => edges.length
  | .compressed _ chars _ => chars.length

def children : Node α → ℕ
  | .plain _ edges => edges.length
  | .compressed _ _ _ => 1

def setData (data : Option α) : Node α → Node α
  | .plain _ edges => .plain (some data) edges
  | .compressed _ chars child => .compressed (some data) chars child

def childAt : Node α → ℕ → Option (Bytes × Node α)
  | .plain _ edges, j => edges[j]?.map fun e => ([e.1], e.2)
  | .compressed _ chars child, j => if j = 0 then some (chars, child) else none

def setChild : Node α → ℕ → Node α → Node α
  | .plain value edges, j, child => .plain value (edges.modify j fun e => (e.1, child))
  | .compressed value chars _, _, child => .compressed value chars child

def leaf : Node α := .plain none []

/-- A node with a single child: `iscompr` is only set for more than one byte. -/
def chain (value : Option (Option α)) (chars : Bytes) (child : Node α) : Node α :=
  match chars with
  | [c] => .plain value [(c, child)]
  | _ => .compressed value chars child

/-- The bytes before the position at which `raxAddChild` puts a new one. -/
def addEdge (c : UInt8) (child : Node α) (edges : List (UInt8 × Node α)) :
    List (UInt8 × Node α) :=
  edges.takeWhile (fun e => !decide (c < e.1)) ++ (c, child) ::
    edges.dropWhile (fun e => !decide (c < e.1))

/-- `raxAddChild`, and `raxCompressNode` for a compressed node: the child that the source fills in
later is the one given here. -/
def addChild : Node α → UInt8 → Node α → Node α
  | .plain value edges, c, child => .plain value (addEdge c child edges)
  | n, _, _ => n

end Node

variable {α : Type}

/-- The parents of a node, the nearest first, with the index of the link that was followed. -/
abbrev Stack (α : Type) := List (Node α × ℕ)

/-- Where `raxLowWalk` stops: the node, its parents, the bytes of the key that it has matched and
those that are left, and the position in a compressed node. -/
structure Walk (α : Type) where
  stop : Node α
  stack : Stack α
  matched : ℕ
  rest : Bytes
  splitpos : ℕ

def common : Bytes → Bytes → ℕ
  | a :: as, b :: bs => if a = b then common as bs + 1 else 0
  | _, _ => 0

/-- `raxLowWalk`. -/
def lowWalk (h : Node α) (s : Bytes) (matched : ℕ) (stack : Stack α) : Walk α :=
  match h, s with
  | h, [] => ⟨h, stack, matched, [], 0⟩
  | .plain value edges, c :: s =>
    let j := edges.findIdx (·.1 == c)
    match edges[j]? with
    | none => ⟨.plain value edges, stack, matched, c :: s, 0⟩
    | some e => lowWalk e.2 s (matched + 1) ((.plain value edges, j) :: stack)
  | .compressed value chars child, c :: s =>
    let j := common chars (c :: s)
    if j = 0 ∨ j ≠ chars.length then
      ⟨.compressed value chars child, stack, matched + j, (c :: s).drop j, j⟩
    else lowWalk child ((c :: s).drop j) (matched + j) ((.compressed value chars child, 0) :: stack)
termination_by s.length
decreasing_by
  · simp
  · simp only [List.length_drop, List.length_cons]
    omega

/-- The head of the tree after a node has been replaced through the link of its parent. -/
def relink : Stack α → Node α → Node α
  | [], n => n
  | (parent, j) :: stack, n => relink stack (parent.setChild j n)

structure Tree (α : Type) where
  head : Node α := .leaf
  numele : ℕ := 0
  numnodes : ℕ := 1

/-- The nodes that `raxGenericInsert` adds below the one where the walk stopped, and their
number. -/
def grow (h : Node α) (s : Bytes) (data : Option α) : Node α × ℕ :=
  match s with
  | [] => (h.setData data, 0)
  | c :: s =>
    if h.size = 0 ∧ 0 < s.length then
      let chars := (c :: s).take nodeMaxSize
      let r := grow .leaf ((c :: s).drop nodeMaxSize) data
      (.compressed h.value chars r.1, r.2 + 1)
    else
      let r := grow .leaf s data
      (h.addChild c r.1, r.2 + 1)
termination_by s.length
decreasing_by
  · simp [nodeMaxSize]
  · simp

/-- Algorithm 1, for a mismatch inside a compressed node: the new nodes and their number. -/
def splitMismatch (value : Option (Option α)) (chars : Bytes) (next : Node α) (j : ℕ) (s : Bytes)
    (data : Option α) : Node α × ℕ :=
  let tail := chars.drop (j + 1)
  let after := if tail = [] then next else .chain none tail next
  let r := grow (.plain (if j = 0 then value else none) [(chars.getD j 0, after)]) s data
  (if j = 0 then r.1 else .chain value (chars.take j) r.1,
    (if j = 0 then 0 else 1) + (if tail = [] then 0 else 1) + r.2)

/-- Algorithm 2, for a key that ends inside a compressed node. -/
def splitEnd (value : Option (Option α)) (chars : Bytes) (next : Node α) (j : ℕ)
    (data : Option α) : Node α :=
  .chain value (chars.take j) (.chain (some data) (chars.drop j) next)

/-- What `raxGenericInsert` puts in the place of the node where the walk stopped, if this is not the
node of the key, and the number of new nodes. -/
def extend (w : Walk α) (data : Option α) : Node α × ℕ :=
  match w.stop with
  | .plain value edges => grow (.plain value edges) w.rest data
  | .compressed value chars next =>
    if w.rest = [] then (splitEnd value chars next w.splitpos data, 1)
    else splitMismatch value chars next w.splitpos w.rest data

/-- `raxGenericInsert`: whether the key was inserted, the datum of a key that was there, and the
tree. -/
def genericInsert (overwrite : Bool) (s : Bytes) (data : Option α) (t : Tree α) :
    Bool × Option (Option α) × Tree α :=
  let w := lowWalk t.head s 0 []
  if w.rest = [] ∧ w.splitpos = 0 then
    let head := relink w.stack (w.stop.setData data)
    match w.stop.value with
    | some old => (false, some old, if overwrite then { t with head } else t)
    | none => (true, none, { t with head, numele := t.numele + 1 })
  else
    let r := extend w data
    (true, none,
      { head := relink w.stack r.1
        numele := t.numele + 1
        numnodes := t.numnodes + r.2 })

/-- `raxInsert`. -/
def insert (s : Bytes) (data : Option α) (t : Tree α) : Bool × Option (Option α) × Tree α :=
  genericInsert true s data t

/-- `raxTryInsert`. -/
def tryInsert (s : Bytes) (data : Option α) (t : Tree α) : Bool × Option (Option α) × Tree α :=
  genericInsert false s data t

/-- `raxFind`: the datum of a key. -/
def find (s : Bytes) (t : Tree α) : Option (Option α) :=
  let w := lowWalk t.head s 0 []
  if w.rest = [] ∧ w.splitpos = 0 then w.stop.value else none

/-- A place in the tree: a node with its key and its parents. The source recognises the head by its
address, here it is the node without parents. -/
structure Position (α : Type) where
  node : Node α := .leaf
  key : Bytes := []
  stack : Stack α := []

structure Iterator (α : Type) extends Position α where
  justSeeked : Bool := false
  eof : Bool := true
  data : Option α := none

namespace Node

def todel : Node α → ℕ
  | .plain _ _ => 1
  | .compressed _ chars _ => chars.length

/-- The child after a byte. Unless the search starts at this node, the byte is that of a child, so
there has to be another one. -/
def scanNext (first : Bool) (previous : UInt8) : Node α → Option (ℕ × UInt8 × Node α)
  | .plain _ edges =>
    let i := edges.findIdx fun e => decide (previous < e.1)
    if (if first then 0 else 1) < edges.length then edges[i]?.map fun e => (i, e) else none
  | .compressed _ _ _ => none

end Node

/-- The way up of `raxIteratorNextStep`, until a parent has a next child. -/
def climb : Stack α → Bytes → Option (Position α)
  | [], _ => none
  | (parent, _) :: stack, key =>
    let previous := key.getLastD 0
    let key := key.take (key.length - parent.todel)
    match parent.scanNext false previous with
    | some (i, c, child) => some ⟨child, key ++ [c], (parent, i) :: stack⟩
    | none => climb stack key

/-- With `noup` the search goes on at the node itself, whose key is followed by the byte to go
beyond or by the bytes of a compressed node. -/
def climbFrom (pos : Position α) : Option (Position α) :=
  let previous := pos.key.getLastD 0
  let key := pos.key.take (pos.key.length - pos.node.todel)
  match pos.node.scanNext true previous with
  | some (i, c, child) => some ⟨child, key ++ [c], (pos.node, i) :: pos.stack⟩
  | none => climb pos.stack key

/-- A round of the loop of `raxIteratorNextStep`: to the first child, or else up. -/
def advance (noup : Bool) (pos : Position α) : Option (Position α) :=
  match noup, pos.node.childAt 0 with
  | false, some (chars, child) => some ⟨child, pos.key ++ chars, (pos.node, 0) :: pos.stack⟩
  | false, none => climb pos.stack pos.key
  | true, _ => climbFrom pos

/-- The loop of `raxIteratorNextStep`: nothing if the fuel does not suffice, otherwise the next key
with its datum, if there is one. -/
def stepLoop : ℕ → Bool → Position α → Option (Option (Option α × Position α))
  | 0, _, _ => none
  | fuel + 1, noup, pos =>
    match advance noup pos with
    | none => some none
    | some pos =>
      match pos.node.value with
      | some data => some (some (data, pos))
      | none => stepLoop fuel false pos

/-- `raxIteratorNextStep`. At the end the iterator stays where it is. -/
def nextStep (fuel : ℕ) (noup : Bool) (it : Iterator α) : Option (Iterator α) :=
  if it.eof then some it
  else if it.justSeeked then some { it with justSeeked := false }
  else (stepLoop fuel noup it.toPosition).map fun
    | none => { it with eof := true }
    | some (data, pos) => { it with toPosition := pos, data }

def keyOf : Stack α → Bytes
  | [] => []
  | (parent, j) :: stack =>
    keyOf stack ++ match parent.childAt j with
      | some (chars, _) => chars
      | none => []

/-- `raxSeek` with `>=`. -/
def seek (fuel : ℕ) (s : Bytes) (t : Tree α) : Option (Iterator α) :=
  if t.numele = 0 then some { justSeeked := true }
  else
    let w := lowWalk t.head s 0 []
    let it : Iterator α := { node := w.stop, key := keyOf w.stack, stack := w.stack, eof := false }
    let sought :=
      if w.rest = [] ∧ w.splitpos = 0 ∧ w.stop.isKey then
        some { it with key := s, data := w.stop.value.getD none }
      else
        match w.rest, w.stop with
        | c :: _, .plain _ _ => nextStep fuel true { it with key := it.key ++ [c] }
        | c :: _, .compressed _ chars _ =>
          if c < chars.getD w.splitpos 0 then nextStep fuel false it
          else nextStep fuel true { it with key := it.key ++ chars }
        | [], _ => nextStep fuel false it
    sought.map fun it => { it with justSeeked := true }

/-- `raxNext`, and whether there was another key. -/
def next (fuel : ℕ) (it : Iterator α) : Option (Bool × Iterator α) :=
  (nextStep fuel false it).map fun it => (!it.eof, it)

/-- Some calls to `raxNext`: the key and the datum after each one that returns 1. -/
def nexts (fuel : ℕ) : ℕ → Iterator α → Option (List (Option (Bytes × Option α)))
  | 0, _ => some []
  | n + 1, it =>
    (next fuel it).bind fun (more, it) =>
      (nexts fuel n it).map ((if more then some (it.key, it.data) else none) :: ·)

theorem sizeOf_edge {edges : List (UInt8 × Node α)} {e : UInt8 × Node α} (h : e ∈ edges) :
    sizeOf e.2 < sizeOf edges := by
  have hlt := List.sizeOf_lt_of_mem h
  have hpair : sizeOf e = 1 + sizeOf e.1 + sizeOf e.2 := rfl
  omega

/-- `raxRecursiveFree`: the data that the callback gets, in order, and the number of nodes that are
freed. The children go from the last to the first, before their parent. -/
def recursiveFree : Node α → List α × ℕ
  | .plain value edges =>
    let below := edges.attach.reverse.map fun e => recursiveFree e.1.2
    (below.flatMap (·.1) ++ (value.getD none).toList, (below.map (·.2)).sum + 1)
  | .compressed value _ child =>
    let below := recursiveFree child
    (below.1 ++ (value.getD none).toList, below.2 + 1)
decreasing_by
  · have := sizeOf_edge e.2
    simp only [Node.plain.sizeOf_spec]
    omega
  · simp

end TrueStore.Rax
