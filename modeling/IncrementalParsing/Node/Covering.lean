import IncrementalParsing.Node.Basic

/-!
The smallest node that covers a range of the text.
-/
namespace IncrementalParsing

/-- A range that is searched, with both ends in the text as edited. -/
structure Span where
  first : Nat
  last : Nat
deriving DecidableEq, Repr

namespace Span

/-- The node is not empty and covers the range. -/
def coveredBy (s : Span) (n : Node) : Bool :=
  n.startOffset ≠ n.endOffset && n.startOffset ≤ s.first && s.last ≤ n.endOffset

mutual
/-- The smallest node below a subtree that covers the range, or the subtree itself. A child in
which the range begins is preferred to one at whose end it lies. -/
def narrow (s : Span) (tree : Tree) (start : Nat) : Subtree → Node
  | .mk info field children =>
      match s.narrowInside tree start info.offsets children with
      | some found => found
      | none =>
          match s.narrowAtEnd tree start info.offsets children with
          | some found => found
          | none => ⟨tree, .mk info field children, start⟩

/-- In the first child that covers the range and ends behind its beginning. -/
def narrowInside (s : Span) (tree : Tree) (start : Nat) (offsets : List Nat) :
    List Subtree → Option Node
  | [] => none
  | t :: ts =>
      let n : Node := ⟨tree, t, start + offsets.headD 0⟩
      if s.coveredBy n && s.first < n.endOffset then some (s.narrow tree n.start t)
      else s.narrowInside tree start offsets.tail ts

/-- In the first child that covers the range. -/
def narrowAtEnd (s : Span) (tree : Tree) (start : Nat) (offsets : List Nat) :
    List Subtree → Option Node
  | [] => none
  | t :: ts =>
      let n : Node := ⟨tree, t, start + offsets.headD 0⟩
      if s.coveredBy n then some (s.narrow tree n.start t)
      else s.narrowAtEnd tree start offsets.tail ts
end

end Span

namespace Node

/-- The smallest node at or below this one that covers the bytes from `first` to `last`. Between
two tokens the one that starts there wins. -/
def covering? (n : Node) (first last : Nat) : Option Node :=
  if first < n.startOffset ∨ n.endOffset < last then none
  else some ((⟨first, last⟩ : Span).narrow n.tree n.start n.subtree)

/-- The smallest node at or below this one that covers what lies between two points. -/
def coveringPoints? (n : Node) (index : LineMap) (first last : Point) : Option Node := do
  n.covering? (← index.offset first) (← index.offset last)

end Node
end IncrementalParsing
