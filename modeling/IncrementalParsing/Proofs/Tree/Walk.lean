import IncrementalParsing.Node.Walk
import IncrementalParsing.Proofs.Tree.Places

/-! Walks against the places of nodes. Every move leads along one link between a node and a child, so a
walk always knows the place it is at, and going on to the next node in pre-order comes to every place
once. -/
namespace IncrementalParsing
open Subtree

namespace Walk

/-- A walk has come along the links from a node to the one at a place below it. -/
inductive Reaches (origin : Node) : List Nat → Walk → Prop
  | start : Reaches origin [] (start origin)
  | child {place : List Nat} {w : Walk} {i : Nat} {c : Node} (h : Reaches origin place w)
      (hChild : w.node.child? i = some c) :
      Reaches origin (place ++ [i]) ⟨c, i, (w.node, w.index) :: w.above⟩

/-- Where a move leads from a place, if there is such a place. -/
def Move.target? : Move → List Nat → Option (List Nat)
  | .firstChild, place => some (place ++ [0])
  | .nextSibling, place => place.getLast?.map fun i => place.dropLast ++ [i + 1]
  | .parent, place => if place = [] then none else some place.dropLast
  | .reset _, _ => some []

/-- The node that places are counted from after a move. -/
def Move.origin (origin : Node) : Move → Node
  | .reset n => n
  | _ => origin

/-- The walk after some moves. -/
def run (w : Walk) (moves : List Move) : Walk := moves.foldl (fun w move => (w.go move).2) w

variable {origin : Node} {place : List Nat} {w : Walk}

theorem Reaches.depth_eq (h : w.Reaches origin place) : w.depth = place.length := by
  induction h with
  | start => rfl
  | child h hChild ih => rw [List.length_append, ← ih]; rfl

theorem Reaches.follow?_eq (h : w.Reaches origin place) : origin.follow? place = some w.node := by
  induction h with
  | start => rfl
  | child h hChild ih => rw [Node.follow?_concat, ih, Option.bind_some, hChild]

/-- A move goes to its target if that is there. If not the walk stays. -/
theorem Reaches.go (h : w.Reaches origin place) (move : Move) :
    ((w.go move).1 = true ∧ ∃ next, move.target? place = some next
        ∧ (w.go move).2.Reaches (move.origin origin) next)
      ∨ (w.go move).1 = false ∧ (w.go move).2 = w ∧ move.origin origin = origin
        ∧ ∀ next, move.target? place = some next → origin.follow? next = none := by
  cases move with
  | firstChild =>
      cases hChild : w.node.child? 0 with
      | some c =>
          left
          simp only [Walk.go, firstChild?, hChild]
          exact ⟨rfl, _, rfl, .child h hChild⟩
      | none =>
          right
          simp only [Walk.go, firstChild?, hChild]
          refine ⟨rfl, rfl, rfl, fun next hNext => ?_⟩
          obtain rfl := Option.some.inj hNext
          rw [Node.follow?_concat, h.follow?_eq, Option.bind_some, hChild]
  | nextSibling =>
      cases h with
      | start => exact .inr ⟨rfl, rfl, rfl, fun next hNext => by simp [Move.target?] at hNext⟩
      | @child place w i c h hChild =>
          cases hSibling : w.node.child? (i + 1) with
          | some d =>
              left
              simp only [Walk.go, nextSibling?, hSibling]
              exact ⟨rfl, _, by simp [Move.target?], .child h hSibling⟩
          | none =>
              right
              simp only [Walk.go, nextSibling?, hSibling]
              refine ⟨rfl, rfl, rfl, fun next hNext => ?_⟩
              obtain rfl : place ++ [i + 1] = next := by simpa [Move.target?] using hNext
              rw [Node.follow?_concat, h.follow?_eq, Option.bind_some, hSibling]
  | parent =>
      cases h with
      | start => exact .inr ⟨rfl, rfl, rfl, fun next hNext => by simp [Move.target?] at hNext⟩
      | @child place w i c h hChild =>
          exact .inl ⟨rfl, place, by simp [Move.target?], h⟩
  | reset n => exact .inl ⟨rfl, [], rfl, .start⟩

/-- Where a walk stands after some moves, counted from the node that it has started from last. -/
structure StandsAt (origin : Node) (place : List Nat) (w : Walk) : Prop where
  /-- What the walk keeps are the links on the way down, each with its index. -/
  links : w.Reaches origin place
  depth : w.depth = place.length
  inside : origin.follow? place = some w.node

theorem Reaches.standsAt (h : w.Reaches origin place) : w.StandsAt origin place :=
  ⟨h, h.depth_eq, h.follow?_eq⟩

/-- Any moves lead along links. -/
theorem Reaches.run (h : w.Reaches origin place) (moves : List Move) :
    ∃ next, (w.run moves).Reaches (moves.foldl (fun origin move => move.origin origin) origin) next := by
  induction moves generalizing w origin place with
  | nil => exact ⟨place, h⟩
  | cons move moves ih =>
      rcases h.go move with ⟨-, next, -, hNext⟩ | ⟨-, hSame, hOrigin, -⟩
      · exact ih hNext
      · have hStays : (w.go move).2.Reaches (move.origin origin) place := by rwa [hSame, hOrigin]
        exact ih hStays

/-- The nodes from a place on, none if there is no such place. -/
def ahead : Option Walk → List Node
  | some w => (w.visit #[]).toList
  | none => []

theorem toList_visit (w : Walk) (seen : Array Node) :
    (w.visit seen).toList = seen.toList ++ w.node :: ahead w.next? := by
  induction hCount : w.countAhead using Nat.strongRecOn generalizing w seen with
  | ind count ih =>
      rw [visit]
      split
      · rename_i next hNext
        have hLess := hCount ▸ countAhead_next hNext
        rw [ih _ hLess next _ rfl, hNext, ahead, ih _ hLess next #[] rfl]
        simp
      · rename_i hNone
        simp [hNone, ahead]

theorem backtrack?_start (n : Node) : (start n).backtrack? = none := by
  rw [backtrack?]
  rfl

/-- Behind a child comes the next one, or what is behind the parent. -/
theorem backtrack?_child (w : Walk) (c : Node) (i : Nat) :
    backtrack? ⟨c, i, (w.node, w.index) :: w.above⟩ =
      match w.node.child? (i + 1) with
      | some sibling => some ⟨sibling, i + 1, (w.node, w.index) :: w.above⟩
      | none => w.backtrack? := by
  rw [backtrack?, nextSibling?]
  cases hNext : w.node.child? (i + 1) <;> simp only [hNext, Option.map_some, Option.map_none]

theorem ahead_some (w : Walk) : ahead (some w) = w.node :: ahead w.next? := by
  rw [ahead, toList_visit]
  rfl

/-- From a place on come the nodes at and below it, and then those from where there is a next sibling. -/
theorem ahead_eq (w : Walk) : ahead (some w) = w.node.nodes ++ ahead w.backtrack? := by
  suffices h : ∀ (t : Subtree) (w : Walk), w.node.subtree = t →
      ahead (some w) = w.node.nodes ++ ahead w.backtrack? from h w.node.subtree w rfl
  intro t
  induction t using children_induction with
  | node t ih =>
      intro w hSubtree
      have hHere : ∀ (i : Nat) (c : Node) (cs : List Node), w.node.children.drop i = c :: cs →
          ahead (some ⟨c, i, (w.node, w.index) :: w.above⟩) =
            c.nodes ++ ahead (backtrack? ⟨c, i, (w.node, w.index) :: w.above⟩) := by
        intro i c cs hDrop
        have hChild : w.node.child? i = some c := by
          rw [Node.child?, ← List.head?_drop, hDrop, List.head?_cons]
        exact ih c.subtree (hSubtree ▸ List.mem_of_getElem? (Node.child?_spec hChild).2.1) _ rfl
      have hNext : ∀ (i : Nat) (c : Node) (cs : List Node), w.node.children.drop i = c :: cs →
          w.node.child? (i + 1) = cs.head? := by
        intro i c cs hDrop
        rw [Node.child?, ← List.head?_drop, ← List.tail_drop, hDrop, List.tail_cons]
      -- The children from one on, with all below them, come before what is behind their parent.
      have hFrom : ∀ (cs : List Node) (i : Nat) (c : Node), w.node.children.drop i = c :: cs →
          ahead (some ⟨c, i, (w.node, w.index) :: w.above⟩) =
            (c :: cs).flatMap Node.nodes ++ ahead w.backtrack? := by
        intro cs
        induction cs with
        | nil =>
            intro i c hDrop
            rw [hHere i c [] hDrop, backtrack?_child, hNext i c [] hDrop]
            simp
        | cons d ds ihs =>
            intro i c hDrop
            have hRest : w.node.children.drop (i + 1) = d :: ds := by
              rw [← List.tail_drop, hDrop, List.tail_cons]
            rw [hHere i c (d :: ds) hDrop, backtrack?_child, hNext i c (d :: ds) hDrop]
            dsimp only [List.head?_cons]
            rw [ihs (i + 1) d hRest, List.flatMap_cons (x := c), List.append_assoc]
      rw [ahead_some, Node.nodes_eq, next?, firstChild?]
      cases hChildren : w.node.children with
      | nil => simp [Node.child?, hChildren]
      | cons c cs =>
          have hFirst : w.node.child? 0 = some c := by rw [Node.child?, hChildren]; rfl
          rw [hFirst]
          simp only [Option.map_some, List.cons_append]
          rw [hFrom cs 0 c (by simpa using hChildren)]

/-- A walk in pre-order goes through all nodes below the one it starts from. -/
theorem preorder_eq (n : Node) : preorder n = n.nodes := by
  have hAll := ahead_eq (start n)
  rwa [backtrack?_start, ahead, ahead, List.append_nil] at hAll

/-- Going through a subtree in pre-order comes to each of its places once, a node in front of what is
below it and children from left to right, and then ends. Whatever moves a walk makes, it stands at a
place below the node that it has started from last and knows the way down. A move answers that there
is nowhere to go just where its target does not exist, and then the walk stays. -/
theorem walks_through_subtree (n : Node) :
    (∃ places : List (List Nat), places.Pairwise (List.Lex (· < ·))
        ∧ (∀ place, place ∈ places ↔ (n.follow? place).isSome = true)
        ∧ (preorder n).map some = places.map n.follow?)
      ∧ ∀ moves : List Move, ∃ place,
        ((start n).run moves).StandsAt (moves.foldl (fun origin move => move.origin origin) n) place
        ∧ ∀ move,
          ((((start n).run moves).go move).1 = true → ∃ next, move.target? place = some next
            ∧ (((start n).run moves).go move).2.StandsAt
              ((moves ++ [move]).foldl (fun origin move => move.origin origin) n) next)
          ∧ ((((start n).run moves).go move).1 = false →
            (((start n).run moves).go move).2 = (start n).run moves
              ∧ ∀ next, move.target? place = some next →
                (moves.foldl (fun origin move => move.origin origin) n).follow? next = none) := by
  refine ⟨⟨n.subtree.places, pairwise_places _, fun _ => Node.mem_places, ?_⟩, fun moves => ?_⟩
  · rw [preorder_eq, Node.map_follow?_places]
  · have hStart : (start n).Reaches n [] := .start
    obtain ⟨place, hReaches⟩ := hStart.run moves
    refine ⟨place, hReaches.standsAt, fun move => ?_⟩
    rw [List.foldl_append, List.foldl_cons, List.foldl_nil]
    rcases hReaches.go move with ⟨hMoved, next, hTarget, hNext⟩ | ⟨hStayed, hSame, -, hNone⟩
    · exact ⟨fun _ => ⟨next, hTarget, hNext.standsAt⟩, fun hStayed => by simp [hMoved] at hStayed⟩
    · exact ⟨fun hMoved => by simp [hStayed] at hMoved, fun _ => ⟨hSame, hNone⟩⟩

end Walk
end IncrementalParsing
