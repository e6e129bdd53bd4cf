import IncrementalParsing.Node.Basic
import IncrementalParsing.Proofs.Subtree.Leaves

/-! The nodes of a tree in order, against the subtrees they come from: what holds of every subtree
holds of every node, and the nodes without children are the tokens at their places. -/
namespace IncrementalParsing
open Subtree

/-- The nodes that are made from subtrees are those of these subtrees, in their order. -/
theorem map_subtree_nodesFrom (tree : Tree) (start : Nat) (offsets : List Nat) (ts : List Subtree) :
    (nodesFrom tree start offsets ts).map Node.subtree = ts := by
  induction ts generalizing offsets with
  | nil => rfl
  | cons t ts ih => rw [nodesFrom, List.map_cons, ih]

section
variable {P : Subtree → Prop} (tree : Tree)

mutual
/-- What holds of a subtree and everything below it holds of each node that is visited from there. -/
theorem of_mem_preorderFrom (depth start : Nat) (tail : List (Nat × Node)) :
    ∀ t : Subtree, All P t → ∀ entry ∈ preorderFrom tree depth start tail t,
      entry ∈ tail ∨ entry.2.tree = tree ∧ P entry.2.subtree
  | mk info field children, hAll, entry, hMem => by
      rw [preorderFrom] at hMem
      rcases List.mem_cons.mp hMem with rfl | hMem
      · exact .inr ⟨rfl, hAll.self⟩
      · exact of_mem_preorderAll (depth + 1) start info.offsets tail children hAll.2 entry hMem

theorem of_mem_preorderAll (depth start : Nat) (offsets : List Nat) (tail : List (Nat × Node)) :
    ∀ ts : List Subtree, AllIn P ts → ∀ entry ∈ preorderAll tree depth start offsets tail ts,
      entry ∈ tail ∨ entry.2.tree = tree ∧ P entry.2.subtree
  | [], _, entry, hMem => .inl hMem
  | t :: ts, hAll, entry, hMem => by
      rw [preorderAll] at hMem
      rcases of_mem_preorderFrom depth _ _ t hAll.1 entry hMem with hMem | hHolds
      · exact of_mem_preorderAll depth start offsets.tail tail ts hAll.2 entry hMem
      · exact .inr hHolds
end

/-- The nodes below the root. -/
def Tree.inner (t : Tree) : List Node := (t.rootNode.preorder.map (·.2)).tail

/-- The nodes below the root are those that a visit of its children finds. -/
theorem inner_eq :
    tree.inner = (preorderAll tree 1 0 tree.root.info.offsets [] tree.root.children).map (·.2) := by
  unfold Tree.inner Tree.rootNode Node.preorder Node.root
  obtain ⟨info, field, children⟩ := tree.root
  rw [preorderFrom]
  rfl

/-- A node below the root is of the tree, and its subtree is below the root's. -/
theorem of_mem_inner (hAll : ∀ t ∈ tree.root.children, All P t) :
    ∀ n ∈ tree.inner, n.tree = tree ∧ P n.subtree := by
  intro n hMem
  rw [inner_eq] at hMem
  obtain ⟨entry, hEntry, rfl⟩ := List.mem_map.mp hMem
  rcases of_mem_preorderAll tree 1 0 _ [] _ (allIn_iff.mpr hAll) entry hEntry with hNone | hHolds
  · simp at hNone
  · exact hHolds

/-- A node is a token with a width. -/
def Node.isToken (n : Node) : Bool := n.subtree.isLeaf && 0 < n.subtree.total

/-- A token and where its padding starts. -/
def Node.placed (n : Node) : Nat × Token := (n.start, token n.subtree.info)

/-- Every node of a tree says where its children start. -/
def Tree.Laid (t : Tree) : Prop := All Subtree.Laid t.root

mutual
/-- The tokens that a visit finds are those below the subtree, where they are. -/
theorem tokens_preorderFrom (depth start : Nat) (tail : List (Nat × Node)) :
    ∀ t : Subtree, All Subtree.Laid t → ((preorderFrom tree depth start tail t).filter fun entry =>
        entry.2.isToken).map (fun entry => entry.2.placed) =
      placedLeaves start t ++ (tail.filter fun entry => entry.2.isToken).map fun entry =>
        entry.2.placed
  | mk info field [], _ => by
      rw [preorderFrom, placedLeaves, preorderAll]
      by_cases hWide : 0 < info.padding + info.size
      · have hToken : Node.isToken ⟨tree, mk info field [], start⟩ = true := by
          simp only [Node.isToken, isLeaf, Subtree.children, List.isEmpty_nil, Bool.true_and,
            decide_eq_true_eq]
          exact hWide
        rw [List.filter_cons, if_pos hToken, if_pos hWide]
        rfl
      · have hToken : ¬ Node.isToken ⟨tree, mk info field [], start⟩ = true := by
          simp only [Node.isToken, isLeaf, Subtree.children, List.isEmpty_nil, Bool.true_and,
            decide_eq_true_eq]
          exact hWide
        rw [List.filter_cons, if_neg hToken, if_neg hWide]
        rfl
  | mk info field (c :: cs), hLaid => by
      have hOffsets : info.offsets = offsetsFrom 0 (c :: cs) := hLaid.self (List.cons_ne_nil c cs)
      rw [preorderFrom, placedLeaves,
        List.filter_cons_of_neg (by simp [Node.isToken, isLeaf, Subtree.children]),
        hOffsets]
      exact tokens_preorderAll (depth + 1) start 0 tail (c :: cs) hLaid.2

theorem tokens_preorderAll (depth start offset : Nat) (tail : List (Nat × Node)) :
    ∀ ts : List Subtree, AllIn Subtree.Laid ts →
      ((preorderAll tree depth start (offsetsFrom offset ts) tail ts).filter fun entry =>
        entry.2.isToken).map (fun entry => entry.2.placed) =
      placedLeavesAll (start + offset) ts ++ (tail.filter fun entry => entry.2.isToken).map fun entry =>
        entry.2.placed
  | [], _ => by simp [preorderAll, placedLeavesAll]
  | t :: ts, hLaid => by
      rw [preorderAll, offsetsFrom_cons, List.headD_cons, List.tail_cons, placedLeavesAll,
        tokens_preorderFrom depth _ _ t hLaid.1,
        tokens_preorderAll depth start (offset + t.total) tail ts hLaid.2, List.append_assoc, Nat.add_assoc]
end

/-- The tokens of a tree from left to right, each with where its padding starts. -/
def Tree.tokens (t : Tree) : List (Nat × Token) := (t.inner.filter Node.isToken).map Node.placed

/-- In a tree that says where children start, they start where those in front of them end. -/
theorem Tree.Laid.preorderAll_eq {tree : Tree} (h : tree.Laid) : preorderAll tree 1 0 tree.root.info.offsets []
    tree.root.children = preorderAll tree 1 0 (offsetsFrom 0 tree.root.children) [] tree.root.children := by
  by_cases hNone : tree.root.children = []
  · rw [hNone, preorderAll, preorderAll]
  · rw [h.self hNone]

/-- The tokens of a tree are those below the children of its root. -/
theorem tokens_eq (hLaid : tree.Laid) : tree.tokens = placedLeavesAll 0 tree.root.children := by
  have hTokens := tokens_preorderAll tree 1 0 0 [] tree.root.children
    (allIn_iff.mpr fun _ hMem => hLaid.child hMem)
  simp only [List.filter_nil, List.map_nil, List.append_nil, Nat.add_zero] at hTokens
  rw [Tree.tokens, inner_eq, hLaid.preorderAll_eq, ← hTokens, List.filter_map, List.map_map]
  rfl

end
end IncrementalParsing
