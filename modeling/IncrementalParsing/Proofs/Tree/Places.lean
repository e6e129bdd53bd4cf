import IncrementalParsing.Proofs.Tree.Navigation

/-! Places below a node. A place is written as the indices of the children on the way down to it. Read
from left to right, the places of a subtree are those of its nodes in pre-order. -/
namespace IncrementalParsing
open Subtree

namespace Subtree

mutual
/-- The places of all nodes of a subtree, from left to right. -/
def places : Subtree → List (List Nat)
  | .mk _ _ children => [] :: placesAll 0 children

/-- The same for children side by side, where the first one has the index `first`. -/
def placesAll (first : Nat) : List Subtree → List (List Nat)
  | [] => []
  | t :: ts => (places t).map (first :: ·) ++ placesAll (first + 1) ts
end

theorem places_eq (t : Subtree) : t.places = [] :: placesAll 0 t.children := by
  cases t
  rfl

/-- Places of children begin with the index of the child. -/
theorem exists_of_mem_placesAll {first : Nat} {ts : List Subtree} {place : List Nat}
    (hMem : place ∈ placesAll first ts) : ∃ i rest, first ≤ i ∧ place = i :: rest := by
  induction ts generalizing first with
  | nil => simp [placesAll] at hMem
  | cons t ts ih =>
      rw [placesAll] at hMem
      rcases List.mem_append.mp hMem with hMem | hMem
      · obtain ⟨rest, -, rfl⟩ := List.mem_map.mp hMem
        exact ⟨first, rest, Nat.le_refl _, rfl⟩
      · obtain ⟨i, rest, hLess, rfl⟩ := ih hMem
        exact ⟨i, rest, Nat.le_of_succ_le hLess, rfl⟩

theorem mem_placesAll {first i : Nat} {ts : List Subtree} {c : Subtree} {rest : List Nat}
    (hAt : ts[i]? = some c) (hMem : rest ∈ c.places) : (first + i) :: rest ∈ placesAll first ts := by
  induction ts generalizing first i with
  | nil => simp at hAt
  | cons t ts ih =>
      rw [placesAll, List.mem_append]
      cases i with
      | zero =>
          obtain rfl : t = c := by simpa using hAt
          exact .inl (List.mem_map_of_mem hMem)
      | succ i =>
          right
          rw [show first + (i + 1) = first + 1 + i by omega]
          exact ih (by simpa using hAt)

/-- A node is in front of the nodes below it, and these are in the order of its children. -/
theorem pairwise_places (t : Subtree) : t.places.Pairwise (List.Lex (· < ·)) := by
  induction t using children_induction with
  | node t ih =>
      have hAll : ∀ (ts : List Subtree) (first : Nat), (∀ c ∈ ts, c ∈ t.children) →
          (placesAll first ts).Pairwise (List.Lex (· < ·)) := by
        intro ts
        induction ts with
        | nil => exact fun _ _ => List.Pairwise.nil
        | cons c cs ihs =>
            intro first hSub
            rw [placesAll, List.pairwise_append]
            refine ⟨?_, ihs (first + 1) fun d hMem => hSub d (by simp [hMem]), ?_⟩
            · exact List.pairwise_map.mpr ((ih c (hSub c (by simp))).imp fun hLess => .cons hLess)
            · intro place hFront other hBehind
              obtain ⟨rest, -, rfl⟩ := List.mem_map.mp hFront
              obtain ⟨i, tail, hLess, rfl⟩ := exists_of_mem_placesAll hBehind
              exact .rel hLess
      rw [places_eq, List.pairwise_cons]
      refine ⟨fun place hMem => ?_, hAll _ _ fun _ hMem => hMem⟩
      obtain ⟨i, rest, -, rfl⟩ := exists_of_mem_placesAll hMem
      exact .nil

end Subtree

namespace Node

/-- The node at a place below a node. -/
def follow? (n : Node) : List Nat → Option Node
  | [] => some n
  | i :: place => (n.child? i).bind fun child => child.follow? place

/-- A node and all nodes below it in pre-order. -/
def nodes (n : Node) : List Node := n.preorder.map (·.2)

variable {n m c : Node} {place : List Nat} {i : Nat}

/-- Induction over a node with its children as nodes. -/
theorem tree_induction {motive : Node → Prop}
    (node : ∀ n : Node, (∀ c ∈ n.children, motive c) → motive n) (n : Node) : motive n := by
  suffices h : ∀ (t : Subtree) (n : Node), n.subtree = t → motive n from h n.subtree n rfl
  intro t
  induction t using children_induction with
  | node t ih =>
      intro n hSubtree
      refine node n fun c hMem => ?_
      obtain ⟨i, hChild⟩ := List.mem_iff_getElem?.mp hMem
      exact ih c.subtree (hSubtree ▸ List.mem_of_getElem? (child?_spec hChild).2.1) c rfl

/-- To follow a place is to follow its parts one after the other. -/
theorem follow?_append (n : Node) (place rest : List Nat) :
    n.follow? (place ++ rest) = (n.follow? place).bind fun m => m.follow? rest := by
  induction place generalizing n with
  | nil => rfl
  | cons i place ih => simp only [List.cons_append, follow?, Option.bind_assoc, ih]

theorem follow?_concat (n : Node) (place : List Nat) (i : Nat) :
    n.follow? (place ++ [i]) = (n.follow? place).bind fun m => m.child? i := by
  rw [follow?_append]
  congr 1
  funext m
  simp [follow?]

section
variable (tree : Tree)

mutual
/-- The nodes do not depend on the depths. -/
theorem map_preorderFrom (depth start : Nat) (tail : List (Nat × Node)) : ∀ t : Subtree,
    (preorderFrom tree depth start tail t).map (·.2) =
      (preorderFrom tree 0 start [] t).map (·.2) ++ tail.map (·.2)
  | .mk info field children => by
      rw [preorderFrom, preorderFrom, List.map_cons, List.map_cons,
        map_preorderAll (depth + 1) 1 start info.offsets tail children]
      rfl

theorem map_preorderAll (depth other start : Nat) (offsets : List Nat) (tail : List (Nat × Node)) :
    ∀ ts : List Subtree, (preorderAll tree depth start offsets tail ts).map (·.2) =
      (preorderAll tree other start offsets [] ts).map (·.2) ++ tail.map (·.2)
  | [] => rfl
  | t :: ts => by
      rw [preorderAll, preorderAll, map_preorderFrom depth _ _ t, map_preorderFrom other _ _ t,
        map_preorderAll depth other start offsets.tail tail ts, List.append_assoc]
end

/-- A visit of children lists the nodes below each of them. -/
theorem map_preorderAll_eq (depth start : Nat) (offsets : List Nat) (ts : List Subtree) :
    (preorderAll tree depth start offsets [] ts).map (·.2)
      = (nodesFrom tree start offsets ts).flatMap nodes := by
  induction ts generalizing offsets with
  | nil => rfl
  | cons t ts ih =>
      rw [preorderAll, map_preorderFrom tree depth _ _ t, ih, nodesFrom, List.flatMap_cons]
      rfl

end

/-- The nodes of a subtree are its root and the nodes of the children. -/
theorem nodes_eq (n : Node) : n.nodes = n :: n.children.flatMap nodes := by
  obtain ⟨tree, ⟨info, field, children⟩, start⟩ := n
  rw [nodes, preorder, preorderFrom, List.map_cons, map_preorderAll_eq]
  rfl

/-- The nodes below a node are those at its places, in the same order. -/
theorem map_follow?_places (n : Node) : n.subtree.places.map n.follow? = n.nodes.map some := by
  suffices h : ∀ (t : Subtree) (n : Node), n.subtree = t → t.places.map n.follow? = n.nodes.map some from
    h n.subtree n rfl
  intro t
  induction t using children_induction with
  | node t ih =>
      intro n hSubtree
      have hAll : ∀ (ts : List Subtree) (first : Nat) (offsets : List Nat), (∀ c ∈ ts, c ∈ t.children) →
          (∀ j, n.child? (first + j) = (nodesFrom n.tree n.start offsets ts)[j]?) →
          (placesAll first ts).map n.follow?
            = ((nodesFrom n.tree n.start offsets ts).flatMap nodes).map some := by
        intro ts
        induction ts with
        | nil => exact fun _ _ _ _ => rfl
        | cons c cs ihs =>
            intro first offsets hSub hChildren
            have hFirst : n.child? first = some ⟨n.tree, c, n.start + offsets.headD 0⟩ := hChildren 0
            have hHead : ((c.places).map (first :: ·)).map n.follow? =
                (nodes ⟨n.tree, c, n.start + offsets.headD 0⟩).map some := by
              rw [List.map_map, ← ih c (hSub c (by simp)) ⟨n.tree, c, n.start + offsets.headD 0⟩ rfl]
              refine List.map_congr_left fun place _ => ?_
              simp [follow?, hFirst]
            have hTail := ihs (first + 1) offsets.tail (fun d hMem => hSub d (by simp [hMem]))
              fun j => by
                rw [Nat.add_right_comm, Nat.add_assoc, hChildren (j + 1)]
                rfl
            rw [placesAll, List.map_append, hHead, hTail, nodesFrom, List.flatMap_cons, List.map_append]
      rw [places_eq, nodes_eq, List.map_cons, List.map_cons,
        hAll t.children 0 n.subtree.info.offsets (fun _ hMem => hMem) fun j => by
          rw [Nat.zero_add, child?, children, hSubtree],
        children, hSubtree]
      rfl

/-- The places of a subtree are those that can be followed. -/
theorem mem_places : place ∈ n.subtree.places ↔ (n.follow? place).isSome = true := by
  constructor
  · intro hMem
    have hFound : n.follow? place ∈ n.nodes.map some := by
      rw [← map_follow?_places]
      exact List.mem_map_of_mem hMem
    obtain ⟨m, -, hIs⟩ := List.mem_map.mp hFound
    rw [← hIs]
    rfl
  · intro hSome
    induction place generalizing n with
    | nil =>
        rw [places_eq]
        exact List.mem_cons_self
    | cons i place ih =>
        obtain ⟨m, hFound⟩ := Option.isSome_iff_exists.mp hSome
        obtain ⟨c, hChild, hRest⟩ := Option.bind_eq_some_iff.mp hFound
        have hPlace := ih (n := c) (by rw [hRest]; rfl)
        rw [places_eq, ← Nat.zero_add i]
        exact List.mem_cons_of_mem _ (mem_placesAll (child?_spec hChild).2.1 hPlace)

end Node

end IncrementalParsing
