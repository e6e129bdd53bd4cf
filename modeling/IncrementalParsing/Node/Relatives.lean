import IncrementalParsing.Node.Basic

/-!
Parents and siblings. Nodes do not know their parents, so a parent is searched from the root, in
the subtrees whose extent covers that of the node.
-/
namespace IncrementalParsing

/-- What is searched: the identity and the extent of a node. -/
structure Extent where
  serial : Nat
  start : Nat
  stop : Nat
deriving DecidableEq, Repr

namespace Extent

/-- One of the subtrees below a node that starts at `start` is the one that is searched. -/
def isAmong (x : Extent) (start : Nat) : (offsets : List Nat) → List Subtree → Bool
  | _, [] => false
  | offsets, t :: ts =>
      (t.serial == x.serial && start + offsets.headD 0 == x.start) || x.isAmong start offsets.tail ts

mutual
/-- The parent of the extent at or below a subtree that starts at `start`. -/
def parentIn (x : Extent) (tree : Tree) (start : Nat) : Subtree → Option Node
  | .mk info field children =>
      if x.isAmong start info.offsets children then some ⟨tree, .mk info field children, start⟩
      else x.parentAmong tree start info.offsets children

/-- The parent of the extent in the first subtree that has it. Only subtrees that cover the extent
are entered. Several of them can, when the extent has no width and lies on a boundary. -/
def parentAmong (x : Extent) (tree : Tree) (start : Nat) (offsets : List Nat) :
    List Subtree → Option Node
  | [] => none
  | t :: ts =>
      let place := start + offsets.headD 0
      let found :=
        if place ≤ x.start && x.stop ≤ place + t.total then x.parentIn tree place t else none
      match found with
      | some parent => some parent
      | none => x.parentAmong tree start offsets.tail ts
end

end Extent

namespace Node

/-- The node that has this one as a child. The root has none. -/
def parent? (n : Node) : Option Node :=
  if (root n.tree).same n then none
  else (⟨n.serial, n.start, n.stop⟩ : Extent).parentIn n.tree 0 n.tree.root

/-- The siblings in front of the node, nearest first, and those behind it. -/
def siblings? (n : Node) : Option (List Node × List Node) := do
  let parent ← n.parent?
  split [] parent.children
where
  split (before : List Node) : List Node → Option (List Node × List Node)
    | [] => none
    | m :: ms => if m.same n then some (before, ms) else split (m :: before) ms

def nextSibling? (n : Node) : Option Node := n.siblings?.bind fun s => s.2.head?

def prevSibling? (n : Node) : Option Node := n.siblings?.bind fun s => s.1.head?

def nextNamedSibling? (n : Node) : Option Node := n.siblings?.bind fun s => s.2.find? isNamed

def prevNamedSibling? (n : Node) : Option Node := n.siblings?.bind fun s => s.1.find? isNamed

end Node
end IncrementalParsing
