import IncrementalParsing.Node.Basic

/-!
Comparison of trees by what can be seen of them: kinds, ranges, fields and damage.
-/
namespace IncrementalParsing

/-- Two nodes look alike, apart from what is below them. -/
def Node.looksLike (n m : Node) : Bool :=
  n.kindId == m.kindId && n.kind == m.kind
    && n.startOffset == m.startOffset && n.endOffset == m.endOffset
    && n.fieldName? == m.fieldName?
    && n.isMissing == m.isMissing && n.hasError == m.hasError

mutual
/-- Two subtrees at their places look alike, with everything below them. -/
def similarFrom (tree other : Tree) (start otherStart : Nat) : Subtree → Subtree → Bool
  | .mk info field children, .mk info' field' children' =>
      (⟨tree, .mk info field children, start⟩ : Node).looksLike
          ⟨other, .mk info' field' children', otherStart⟩
        && similarAll tree other start otherStart info.offsets info'.offsets children children'

/-- As many subtrees on both sides, and each like its counterpart. -/
def similarAll (tree other : Tree) (start otherStart : Nat) (offsets otherOffsets : List Nat) :
    List Subtree → List Subtree → Bool
  | [], [] => true
  | t :: ts, u :: us =>
      similarFrom tree other (start + offsets.headD 0) (otherStart + otherOffsets.headD 0) t u
        && similarAll tree other start otherStart offsets.tail otherOffsets.tail ts us
  | _, _ => false
end

/-- Two nodes look alike, with everything below them. -/
def Node.similar (n m : Node) : Bool :=
  similarFrom n.tree m.tree n.start m.start n.subtree m.subtree

/-- Two trees look alike. -/
def Tree.similar (t u : Tree) : Bool := t.rootNode.similar u.rootNode

end IncrementalParsing
