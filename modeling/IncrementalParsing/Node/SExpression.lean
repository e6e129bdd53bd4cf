import IncrementalParsing.Node.Basic

/-!
S-expressions of trees. Only named nodes show, and tokens that had to be inserted.
-/
namespace IncrementalParsing

/-- What a shown node begins with. The name of a token that is not named is quoted. -/
def Node.sexpHead (n : Node) : String :=
  if n.isMissing then
    if n.isNamed then "(MISSING " ++ n.kind else "(MISSING \"" ++ n.kind ++ "\""
  else "(" ++ n.kind

/-- Named nodes show, and inserted tokens. -/
def Node.shows (n : Node) : Bool := n.isNamed || n.isMissing

mutual
/-- Writes a subtree behind `out`. The node that the writing began with has depth zero, and its
field is left out. -/
def sexpFrom (tree : Tree) (depth : Nat) (out : String) : Subtree → String
  | .mk info field children =>
      let n : Node := ⟨tree, .mk info field children, 0⟩
      if n.shows then
        let out := if out.isEmpty then out else out ++ " "
        let out := match n.fieldName? with
          | some name => if depth = 0 then out else out ++ name ++ ": "
          | none => out
        sexpAll tree (depth + 1) (out ++ n.sexpHead) children ++ ")"
      else sexpAll tree (depth + 1) out children

/-- Writes subtrees in order. -/
def sexpAll (tree : Tree) (depth : Nat) (out : String) : List Subtree → String
  | [] => out
  | t :: ts => sexpAll tree depth (sexpFrom tree depth out t) ts
end

/-- The S-expression of a node. -/
def Node.sexp (n : Node) : String := sexpFrom n.tree 0 "" n.subtree

/-- The S-expression of a tree. -/
def Tree.sexp (t : Tree) : String := t.rootNode.sexp

end IncrementalParsing
