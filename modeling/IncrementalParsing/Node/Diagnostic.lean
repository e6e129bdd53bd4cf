import IncrementalParsing.Node.Basic

/-!
Reports on damage in a tree.
-/
namespace IncrementalParsing

/-- A kind of damage. -/
inductive Damage where
  /-- Input the grammar has no place for. -/
  | unexpected
  /-- A token that had to be inserted. -/
  | missing (kind : String)
  /-- A token the lexer could not classify. -/
  | invalidToken (kind : String)
deriving DecidableEq, Repr

/-- Damage and where it is. -/
structure Diagnostic where
  damage : Damage
  first : Nat
  last : Nat
deriving DecidableEq, Repr

/-- The report a user reads. -/
def Diagnostic.message (d : Diagnostic) : String :=
  match d.damage with
  | .unexpected => s!"unexpected input at {d.first}..{d.last}"
  | .missing kind => s!"missing `{kind}` at {d.first}"
  | .invalidToken kind => s!"{kind} at {d.first}..{d.last}"

namespace Node

/-- The damage that a node itself is. A node around skipped input is not reported when it holds
nothing but tokens that are reported themselves. -/
def damage? (n : Node) : Option Damage :=
  if n.isMissing then some (.missing n.kind)
  else if n.isErrorToken then some (.invalidToken n.kind)
  else if n.isError && !(n.children.all isErrorToken) then some .unexpected
  else none

/-- The report on a node. -/
def diagnostic? (n : Node) : Option Diagnostic :=
  n.damage?.map fun damage => ⟨damage, n.startOffset, n.endOffset⟩

end Node

mutual
/-- The reports on a subtree in pre-order, in front of `tail`. Subtrees without damage are not
entered. -/
def diagnosticsFrom (tree : Tree) (start : Nat) (tail : List Diagnostic) :
    Subtree → List Diagnostic
  | .mk info field children =>
      if info.hasError then
        let below := diagnosticsAll tree start info.offsets tail children
        match (⟨tree, .mk info field children, start⟩ : Node).diagnostic? with
        | some report => report :: below
        | none => below
      else tail

/-- The reports on the subtrees below a node that starts at `start`. -/
def diagnosticsAll (tree : Tree) (start : Nat) (offsets : List Nat) (tail : List Diagnostic) :
    List Subtree → List Diagnostic
  | [] => tail
  | t :: ts =>
      diagnosticsFrom tree (start + offsets.headD 0) (diagnosticsAll tree start offsets.tail tail ts) t
end

/-- All damage in a tree, in pre-order. -/
def Tree.diagnostics (t : Tree) : List Diagnostic :=
  diagnosticsFrom t 0 [] t.root

end IncrementalParsing
