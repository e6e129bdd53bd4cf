import IncrementalParsing.Symbol

/-!
Subtrees: the nodes of a syntax tree without their place in the text. A subtree knows its widths
but not its offset, so it can stand in the trees of several versions of a text.
-/
namespace IncrementalParsing

/-- What a node knows of itself. -/
structure NodeInfo where
  /-- Identity. Every subtree that is built gets a number of its own, and keeps it wherever it is
  used. -/
  serial : Nat
  kind : SymbolId
  /-- The state below the node when it was reduced. Leaves and roots have none. -/
  state : Option StateId
  /-- Bytes in front of the first token with a width. -/
  padding : Nat
  /-- Bytes behind the padding. -/
  size : Nat
  /-- Bytes past the end that were read to build the node. -/
  lookahead : Nat
  /-- Tokens with a width below the node. -/
  tokens : Nat
  /-- Where the padding of each child starts, counted from where the node's own padding does. -/
  offsets : List Nat
  /-- The node is damaged, or holds a damaged or inserted node. -/
  hasError : Bool
  /-- A token of no width that was inserted. -/
  missing : Bool
  /-- The shape was decided by error recovery, so the node must not be used again. -/
  fragile : Bool
deriving DecidableEq, Repr, Inhabited

/-- A node with its children. The field is the part the node plays in its parent. -/
inductive Subtree where
  | mk (info : NodeInfo) (field : Option FieldId) (children : List Subtree)
deriving Inhabited

namespace Subtree

def info : Subtree → NodeInfo
  | mk info _ _ => info

def field : Subtree → Option FieldId
  | mk _ field _ => field

def children : Subtree → List Subtree
  | mk _ _ children => children

def serial (t : Subtree) : Nat := t.info.serial

def kind (t : Subtree) : SymbolId := t.info.kind

def padding (t : Subtree) : Nat := t.info.padding

def size (t : Subtree) : Nat := t.info.size

def lookahead (t : Subtree) : Nat := t.info.lookahead

def tokens (t : Subtree) : Nat := t.info.tokens

def hasError (t : Subtree) : Bool := t.info.hasError

def isMissing (t : Subtree) : Bool := t.info.missing

def isFragile (t : Subtree) : Bool := t.info.fragile

/-- The width with padding. -/
def total (t : Subtree) : Nat := t.info.padding + t.info.size

def isLeaf (t : Subtree) : Bool := t.children.isEmpty

/-- The same subtree in another part. -/
def withField (field : Option FieldId) : Subtree → Subtree
  | mk info _ children => mk info field children

/-- The same subtree in the part it has, or in `field` if it has none. -/
def orField (field : Option FieldId) (t : Subtree) : Subtree :=
  t.withField (t.field.or field)

/-- A token. -/
def leaf (serial : Nat) (kind : SymbolId) (padding size lookahead : Nat) (invalid : Bool) :
    Subtree :=
  mk { serial, kind, state := none, padding, size, lookahead,
       tokens := if 0 < size then 1 else 0, offsets := [], hasError := invalid, missing := false,
       fragile := false } none []

/-- A token that is not in the text. -/
def inserted (serial : Nat) (kind : SymbolId) : Subtree :=
  mk { serial, kind, state := none, padding := 0, size := 0, lookahead := 0, tokens := 0,
       offsets := [], hasError := true, missing := true, fragile := false } none []

/-- The width of subtrees side by side. -/
def width (ts : List Subtree) : Nat := ts.foldr (·.total + ·) 0

/-- Where subtrees side by side start, if the first one starts at `offset`. -/
def offsetsFrom (offset : Nat) : List Subtree → List Nat
  | [] => []
  | t :: ts => offset :: offsetsFrom (offset + t.total) ts

/-- The bytes in front of the first subtree with a size, and of that subtree's size. All of them
if there is none. -/
def leading : List Subtree → Nat
  | [] => 0
  | t :: ts => if 0 < t.size then t.padding else t.total + leading ts

/-- How far the building of subtrees side by side read, counted from their start. -/
def reach (ts : List Subtree) : Nat :=
  (ts.foldl (fun (offset, reach) t =>
    (offset + t.total, max reach (offset + t.total + t.lookahead))) (0, 0)).2

/-- A node over its children, which read up to `lookaheadEnd` to be built, counted from its start.
Its padding is that of the first child with a size, so that an inserted token in front does not
own it. -/
def branch (serial : Nat) (kind : SymbolId) (state : Option StateId) (children : List Subtree)
    (lookaheadEnd : Nat) (fragile : Bool) : Subtree :=
  mk { serial, kind, state
       padding := leading children
       size := width children - leading children
       lookahead := max (reach children) lookaheadEnd - width children
       tokens := children.foldr (·.tokens + ·) 0
       offsets := offsetsFrom 0 children
       hasError := kind == errorSymbol || children.any hasError
       missing := false
       fragile } none children

mutual
/-- The number of nodes. -/
def count : Subtree → Nat
  | mk _ _ children => countAll children + 1

/-- The number of nodes of several subtrees. -/
def countAll : List Subtree → Nat
  | [] => 0
  | t :: ts => count t + countAll ts
end

mutual
/-- The leftmost token below a node, with its end counted from where `offset` counts. Children of
no width are passed over while a wider one follows. -/
def leftmost (offset : Nat) : Subtree → NodeInfo × Nat
  | mk info _ [] => (info, offset + (info.padding + info.size))
  | mk info _ (t :: ts) =>
      match leftmostAmong offset info.offsets (t :: ts) with
      | some found => found
      | none => leftmost (offset + info.offsets.headD 0) t

/-- The leftmost token below the first subtree with a width. The offsets are those of the subtrees. -/
def leftmostAmong (offset : Nat) (offsets : List Nat) : List Subtree → Option (NodeInfo × Nat)
  | [] => none
  | t :: ts =>
      if 0 < t.total then some (leftmost (offset + offsets.headD 0) t)
      else leftmostAmong offset offsets.tail ts
end

mutual
/-- Whether two subtrees are the same. -/
def decEq : (t u : Subtree) → Decidable (t = u)
  | mk info field children, mk info' field' children' =>
      match decEqAll children children' with
      | isTrue hSame => decidable_of_iff (info = info' ∧ field = field') (by simp [hSame])
      | isFalse hOther => isFalse (by simp [hOther])

/-- Whether two lists of subtrees are the same. -/
def decEqAll : (ts us : List Subtree) → Decidable (ts = us)
  | [], [] => isTrue rfl
  | [], _ :: _ => isFalse (by simp)
  | _ :: _, [] => isFalse (by simp)
  | t :: ts, u :: us =>
      match decEq t u, decEqAll ts us with
      | isTrue hHead, isTrue hTail => isTrue (by rw [hHead, hTail])
      | isFalse hHead, _ => isFalse (by simp [hHead])
      | _, isFalse hTail => isFalse (by simp [hTail])
end

instance : DecidableEq Subtree := decEq

end Subtree
end IncrementalParsing
