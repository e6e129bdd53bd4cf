import Std.Data.HashSet
import IncrementalParsing.Node.Basic

/-!
Which subtrees of a tree were taken over from another one. A subtree that is taken over keeps its
identity.
-/
namespace IncrementalParsing

namespace Subtree

mutual
/-- The identities of all nodes, in front of `tail`. -/
def serials (tail : List Nat) : Subtree → List Nat
  | mk info _ children => info.serial :: serialsAll tail children

def serialsAll (tail : List Nat) : List Subtree → List Nat
  | [] => tail
  | t :: ts => serials (serialsAll tail ts) t
end

end Subtree

mutual
/-- The topmost nodes of a subtree whose identity is among `known`, in front of `tail`. -/
def sharedFrom (known : Std.HashSet Nat) (tree : Tree) (start : Nat) (tail : List Node) :
    Subtree → List Node
  | .mk info field children =>
      if known.contains info.serial then ⟨tree, .mk info field children, start⟩ :: tail
      else sharedAll known tree start info.offsets tail children

/-- The same for the subtrees below a node that starts at `start`. -/
def sharedAll (known : Std.HashSet Nat) (tree : Tree) (start : Nat) (offsets : List Nat)
    (tail : List Node) : List Subtree → List Node
  | [] => tail
  | t :: ts =>
      sharedFrom known tree (start + offsets.headD 0) (sharedAll known tree start offsets.tail tail ts) t
end

/-- The topmost nodes of the new tree that the old tree has as well. -/
def Tree.sharedWith (new old : Tree) : List Node :=
  sharedFrom (Std.HashSet.ofList (old.root.serials [])) new 0 [] new.root

end IncrementalParsing
