import IncrementalParsing.Node.Basic
import IncrementalParsing.Subtree.Unwrap

/-!
Walks below a node. A walk keeps the nodes on the way down to its place, so that every move is a short
one. It never leaves the subtree of the node it starts from.
-/
namespace IncrementalParsing

/-- A place below a node. -/
structure Walk where
  node : Node
  /-- Which child the node is of the one above. The node a walk starts from counts as the first. -/
  index : Nat
  /-- The nodes above, nearest first, each with its index in the one above it. -/
  above : List (Node × Nat)

namespace Walk

/-- Starts a walk. -/
def start (n : Node) : Walk := ⟨n, 0, []⟩

/-- The number of nodes above, up to the one the walk started from. -/
def depth (w : Walk) : Nat := w.above.length

/-- The part the node plays in its parent. The node the walk started from plays none. -/
def fieldName? (w : Walk) : Option String :=
  if w.above.isEmpty then none else w.node.fieldName?

def firstChild? (w : Walk) : Option Walk :=
  (w.node.child? 0).map fun child => ⟨child, 0, (w.node, w.index) :: w.above⟩

def nextSibling? (w : Walk) : Option Walk :=
  match w.above with
  | [] => none
  | (parent, _) :: _ =>
      (parent.child? (w.index + 1)).map fun sibling => ⟨sibling, w.index + 1, w.above⟩

def parent? (w : Walk) : Option Walk :=
  match w.above with
  | [] => none
  | (parent, index) :: above => some ⟨parent, index, above⟩

/-- A move of a walk, which may also start again somewhere else. -/
inductive Move where
  | firstChild
  | nextSibling
  | parent
  | reset (n : Node)

/-- Makes a move. The answer is whether there is a place to go to. If there is none the walk stays
where it is. -/
def go (w : Walk) : Move → Bool × Walk
  | .firstChild => stayUnless w.firstChild?
  | .nextSibling => stayUnless w.nextSibling?
  | .parent => stayUnless w.parent?
  | .reset n => (true, start n)
where
  stayUnless : Option Walk → Bool × Walk
    | some next => (true, next)
    | none => (false, w)

/-- Goes up as long as there is no next sibling, but not above the node the walk started from. -/
def backtrack? (w : Walk) : Option Walk :=
  match w.nextSibling? with
  | some sibling => some sibling
  | none =>
      match _hAbove : w.above with
      | [] => none
      | (parent, index) :: above => backtrack? ⟨parent, index, above⟩
termination_by w.above.length
decreasing_by simp [_hAbove]

/-- The next node in pre-order. -/
def next? (w : Walk) : Option Walk :=
  match w.firstChild? with
  | some child => some child
  | none => w.backtrack?

/-- The number of nodes behind a place that are not below it: those at and below the siblings behind it,
and behind each of the nodes above. -/
def countBehind : (index : Nat) → (above : List (Node × Nat)) → Nat
  | _, [] => 0
  | index, (parent, next) :: above =>
      Subtree.countAll (parent.subtree.children.drop (index + 1)) + countBehind next above

/-- The number of nodes that are still to come. -/
def countAhead (w : Walk) : Nat :=
  Subtree.countAll w.node.subtree.children + countBehind w.index w.above

theorem countAll_drop {n c : Node} {i : Nat} (hAt : n.child? i = some c) :
    Subtree.countAll (n.subtree.children.drop i) =
      Subtree.countAll c.subtree.children + 1 + Subtree.countAll (n.subtree.children.drop (i + 1)) := by
  obtain ⟨hLess, hSubtree⟩ := List.getElem?_eq_some_iff.mp (Node.child?_spec hAt).2.1
  rw [List.drop_eq_getElem_cons hLess, hSubtree, Subtree.countAll, Subtree.count_eq]

/-- Fewer nodes are ahead at the first child. -/
theorem countAhead_firstChild {w next : Walk} (hNext : w.firstChild? = some next) :
    next.countAhead < w.countAhead := by
  obtain ⟨child, hChild, rfl⟩ := Option.map_eq_some_iff.mp hNext
  have hCount := countAll_drop hChild
  simp only [countAhead, countBehind, List.drop_zero] at hCount ⊢
  omega

/-- Fewer nodes are ahead at the next sibling, with everything below this node behind. -/
theorem countAhead_nextSibling {w next : Walk} (hNext : w.nextSibling? = some next) :
    next.countAhead < countBehind w.index w.above := by
  obtain ⟨node, index, above⟩ := w
  cases above with
  | nil => simp [nextSibling?] at hNext
  | cons entry above =>
      obtain ⟨sibling, hSibling, rfl⟩ := Option.map_eq_some_iff.mp hNext
      have hCount := countAll_drop hSibling
      simp only [countAhead, countBehind] at hCount ⊢
      omega

/-- Fewer nodes are ahead where going back leads, so every walk ends. -/
theorem countAhead_backtrack {w next : Walk} (hNext : w.backtrack? = some next) :
    next.countAhead < countBehind w.index w.above := by
  fun_induction backtrack? w with
  | case1 w sibling hSibling =>
      obtain rfl := Option.some.inj hNext
      exact countAhead_nextSibling hSibling
  | case2 w hNone hAbove => simp at hNext
  | case3 w hNone parent index above hAbove ih =>
      rw [hAbove, countBehind]
      exact Nat.lt_of_lt_of_le (ih hNext) (Nat.le_add_left _ _)

/-- Every node leaves fewer to come. -/
theorem countAhead_next {w next : Walk} (hNext : w.next? = some next) :
    next.countAhead < w.countAhead := by
  unfold next? at hNext
  split at hNext
  · rename_i child hChild
    obtain rfl := Option.some.inj hNext
    exact countAhead_firstChild hChild
  · exact Nat.lt_of_lt_of_le (countAhead_backtrack hNext) (Nat.le_add_left _ _)

/-- The nodes from a place on in pre-order, behind `seen`. -/
def visit (w : Walk) (seen : Array Node) : Array Node :=
  match _hNext : w.next? with
  | some next => visit next (seen.push w.node)
  | none => seen.push w.node
termination_by w.countAhead
decreasing_by exact countAhead_next _hNext

/-- A node and all nodes below it in pre-order. -/
def preorder (n : Node) : List Node := ((start n).visit #[]).toList

end Walk
end IncrementalParsing
