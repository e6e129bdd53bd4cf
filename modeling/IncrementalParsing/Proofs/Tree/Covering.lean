import IncrementalParsing.Node.Covering
import IncrementalParsing.Proofs.Labels.Language
import IncrementalParsing.Proofs.Tree.Extents
import IncrementalParsing.Proofs.Tree.Places

/-! The smallest node that covers a range. The search goes down one child after the other and never comes
back. It misses nothing, as the ranges of children do not overlap and hold those of all nodes below them,
but for empty ones. -/
namespace IncrementalParsing
open Subtree

namespace Node
variable {kinds : Kinds} {n m c d : Node} {place : List Nat} {i : Nat}

end Node

namespace Span
variable {s : Span} {n c : Node} {i : Nat}

/-- The smallest node at or below a node that covers the range, if the node itself does. -/
def smallest (s : Span) (n : Node) : Node := s.narrow n.tree n.start n.subtree

/-- The child in which the range is searched: one in which it begins, or else one at whose end it
lies. -/
def entered? (s : Span) (n : Node) : Option Node :=
  (n.children.find? fun c => s.coveredBy c && s.first < c.endOffset).or
    (n.children.find? s.coveredBy)

theorem narrowInside_eq (s : Span) (tree : Tree) (start : Nat) (offsets : List Nat) (ts : List Subtree) :
    s.narrowInside tree start offsets ts = ((nodesFrom tree start offsets ts).find? fun c =>
      s.coveredBy c && s.first < c.endOffset).map s.smallest := by
  induction ts generalizing offsets with
  | nil => rfl
  | cons t ts ih =>
      rw [narrowInside, nodesFrom, List.find?_cons]
      split <;> rename_i hHere <;> simp only [hHere]
      · rfl
      · exact ih _

theorem narrowAtEnd_eq (s : Span) (tree : Tree) (start : Nat) (offsets : List Nat) (ts : List Subtree) :
    s.narrowAtEnd tree start offsets ts
      = ((nodesFrom tree start offsets ts).find? s.coveredBy).map s.smallest := by
  induction ts generalizing offsets with
  | nil => rfl
  | cons t ts ih =>
      rw [narrowAtEnd, nodesFrom, List.find?_cons]
      split <;> rename_i hHere <;> simp only [hHere]
      · rfl
      · exact ih _

/-- The search goes down to a child, or it is at its end. -/
theorem smallest_eq (s : Span) (n : Node) :
    s.smallest n = (s.entered? n).elim n s.smallest := by
  obtain ⟨tree, ⟨info, field, children⟩, start⟩ := n
  rw [smallest, narrow, narrowInside_eq, narrowAtEnd_eq, entered?]
  simp only [Node.children, Subtree.children, Subtree.info]
  generalize (nodesFrom tree start info.offsets children).find? (fun c =>
    s.coveredBy c && s.first < c.endOffset) = inside
  generalize (nodesFrom tree start info.offsets children).find? s.coveredBy = atEnd
  cases inside <;> cases atEnd <;> rfl

end Span

namespace Span
variable {kinds : Kinds} {s : Span} {n c m : Node} {place : List Nat}

end Span

section
variable {language : Language} {tree : Tree} {text : ByteArray}

end
end IncrementalParsing
