import IncrementalParsing.Text.Lines
import IncrementalParsing.Tree

/-!
Nodes: subtrees at their place in a tree. Ranges are given in the text as edited.
-/
namespace IncrementalParsing

/-- A subtree of a tree. -/
structure Node where
  tree : Tree
  subtree : Subtree
  /-- Where the subtree's padding starts in the parsed text. -/
  start : Nat

/-- The nodes of the subtrees below a node that starts at `start`, each at its offset. -/
def nodesFrom (tree : Tree) (start : Nat) : (offsets : List Nat) → List Subtree → List Node
  | _, [] => []
  | offsets, t :: ts => ⟨tree, t, start + offsets.headD 0⟩ :: nodesFrom tree start offsets.tail ts

theorem getElem?_nodesFrom (tree : Tree) (start : Nat) (offsets : List Nat) (ts : List Subtree)
    (i : Nat) : (nodesFrom tree start offsets ts)[i]? =
      ts[i]?.map fun t => ⟨tree, t, start + offsets.getD i 0⟩ := by
  induction ts generalizing offsets i with
  | nil => simp [nodesFrom]
  | cons t ts ih => cases i <;> cases offsets <;> simp [nodesFrom, ih]

namespace Node

/-- The root of a tree. -/
def root (tree : Tree) : Node := ⟨tree, tree.root, 0⟩

/-- Where the subtree ends in the parsed text. -/
def stop (n : Node) : Nat := n.start + n.subtree.total

/-- Whether two nodes of one tree are the same: the same subtree at the same place. -/
def same (n m : Node) : Bool :=
  n.subtree.serial == m.subtree.serial && n.start == m.start

/-- The identity of the subtree. A node of another tree with the same identity was taken over. -/
def serial (n : Node) : Nat := n.subtree.serial

def kindId (n : Node) : SymbolId := n.subtree.kind

def traits (n : Node) : SymbolTraits := n.tree.tables.symbolTraits n.subtree.kind

def kind (n : Node) : String := n.tree.tables.symbolName n.subtree.kind

def isNamed (n : Node) : Bool := n.traits.named

def isTerminal (n : Node) : Bool := n.traits.terminal

/-- Wraps input the grammar has no place for. -/
def isError (n : Node) : Bool := n.subtree.kind == errorSymbol

/-- A token the lexer could not classify. -/
def isErrorToken (n : Node) : Bool := n.traits.errorToken

def isMissing (n : Node) : Bool := n.subtree.isMissing

def hasError (n : Node) : Bool := n.subtree.hasError

/-- Whether the pending edit meets the node. -/
def isTouched (n : Node) : Bool :=
  match n.tree.edit with
  | some edit => edit.meets n.start n.stop
  | none => false

/-- Start of the node behind its padding. -/
def startOffset (n : Node) : Nat := n.tree.image (n.start + n.subtree.padding)

def endOffset (n : Node) : Nat := n.tree.image n.stop

def startPoint (n : Node) (index : LineMap) : Point := index.point n.startOffset

def endPoint (n : Node) (index : LineMap) : Point := index.point n.endOffset

/-- The bytes of the node. A range that the text does not have is empty. -/
def bytes (n : Node) (text : ByteArray) : ByteArray :=
  if n.startOffset ≤ n.endOffset ∧ n.endOffset ≤ text.size then text.extract n.startOffset n.endOffset
  else .empty

/-- The text of the node, if it is UTF-8. -/
def text? (n : Node) (text : ByteArray) : Option String :=
  String.fromUTF8? (n.bytes text)

/-- The name of the part the node plays in its parent. -/
def fieldName? (n : Node) : Option String :=
  n.subtree.field.bind n.tree.tables.fieldName?

/-- The children, where the node says that they start. -/
def children (n : Node) : List Node :=
  nodesFrom n.tree n.start n.subtree.info.offsets n.subtree.children

def childCount (n : Node) : Nat := n.subtree.children.length

def child? (n : Node) (index : Nat) : Option Node := n.children[index]?

/-- A child is a child of the subtree, placed at the offset that its parent has stored for it. -/
theorem child?_spec {n c : Node} {i : Nat} (hChild : n.child? i = some c) : c.tree = n.tree
    ∧ n.subtree.children[i]? = some c.subtree
    ∧ c.start = n.start + n.subtree.info.offsets.getD i 0 := by
  rw [child?, children, getElem?_nodesFrom] at hChild
  obtain ⟨t, hAt, rfl⟩ := Option.map_eq_some_iff.mp hChild
  exact ⟨rfl, hAt, rfl⟩

def namedChildren (n : Node) : List Node := n.children.filter isNamed

def namedChild? (n : Node) (index : Nat) : Option Node := n.namedChildren[index]?

/-- The name of the part that a child plays. -/
def childFieldName? (n : Node) (index : Nat) : Option String :=
  (n.child? index).bind fieldName?

/-- The children that play a part. -/
def childrenByField (n : Node) (name : String) : List Node :=
  match n.tree.language.fieldByName? name with
  | some field => n.children.filter fun child => child.subtree.field == some field
  | none => []

/-- The first child that plays a part. -/
def childByField? (n : Node) (name : String) : Option Node := (n.childrenByField name).head?

/-- Kind and range. -/
def outline (n : Node) : String :=
  "\x7bNode " ++ n.kind ++ " " ++ toString n.startOffset ++ ".." ++ toString n.endOffset ++ "\x7d"

end Node

mutual
/-- A subtree's nodes in pre-order with their depths, in front of `tail`. -/
def preorderFrom (tree : Tree) (depth start : Nat) (tail : List (Nat × Node)) :
    Subtree → List (Nat × Node)
  | .mk info field children =>
      (depth, ⟨tree, .mk info field children, start⟩)
        :: preorderAll tree (depth + 1) start info.offsets tail children

/-- The same for the subtrees below a node that starts at `start`. -/
def preorderAll (tree : Tree) (depth start : Nat) (offsets : List Nat) (tail : List (Nat × Node)) :
    List Subtree → List (Nat × Node)
  | [] => tail
  | t :: ts =>
      preorderFrom tree depth (start + offsets.headD 0)
        (preorderAll tree depth start offsets.tail tail ts) t
end

/-- The nodes of a subtree in pre-order, each with its depth below the first. -/
def Node.preorder (n : Node) : List (Nat × Node) :=
  preorderFrom n.tree 0 n.start [] n.subtree

/-- The root of the tree. -/
def Tree.rootNode (t : Tree) : Node := Node.root t

end IncrementalParsing
