import IncrementalParsing.Node.SExpression
import IncrementalParsing.Proofs.Tree.Covering
import IncrementalParsing.Proofs.Tree.Grammatical
import IncrementalParsing.Proofs.Tree.Reports
import IncrementalParsing.Proofs.Tree.Similar
import IncrementalParsing.Proofs.Tree.Walk

/-! Trees that look alike cannot be told apart. What is written of them, what is reported, what a walk
comes to and what a search finds goes through their nodes in ways of its own, and on two sides that
look alike it goes the same way. -/
namespace IncrementalParsing
open Subtree

/-- What can be asked of a node. -/
structure Sight where
  kindId : SymbolId
  kind : String
  field : Option String
  first : Nat
  last : Nat
  isNamed : Bool
  isTerminal : Bool
  isError : Bool
  isErrorToken : Bool
  isMissing : Bool
  hasError : Bool
deriving DecidableEq, Repr

namespace Node
variable {n m : Node}

/-- What a node itself answers. -/
def sight (n : Node) : Sight where
  kindId := n.kindId
  kind := n.kind
  field := n.fieldName?
  first := n.startOffset
  last := n.endOffset
  isNamed := n.isNamed
  isTerminal := n.isTerminal
  isError := n.isError
  isErrorToken := n.isErrorToken
  isMissing := n.isMissing
  hasError := n.hasError

/-- Nodes that look alike answer the same. What a comparison does not ask for follows from the kind. -/
theorem Alike.sight (h : n.Alike m) : n.sight = m.sight := by
  have hLooks := (similar_iff.mp h.similar).1
  simp only [looks, Prod.mk.injEq] at hLooks
  obtain ⟨hKind, hName, hFirst, hLast, hField, hMissing, hDamaged⟩ := hLooks
  have hTraits : n.traits = m.traits := by
    rw [traits, traits, h.tables]
    exact congrArg _ hKind
  have hError : n.isError = m.isError := congrArg (· == errorSymbol) hKind
  simp only [Node.sight, isNamed, isTerminal, isErrorToken, hKind, hName, hFirst, hLast, hField, hMissing,
    hDamaged, hTraits, hError]

/-- Writes a node behind `out`. -/
def written (depth : Nat) (out : String) (n : Node) : String := sexpFrom n.tree depth out n.subtree

/-- What is written of a node that shows, up to its children. -/
def lead (n : Node) (depth : Nat) (out : String) : String :=
  let out := if out.isEmpty then out else out ++ " "
  let out := match n.fieldName? with
    | some name => if depth = 0 then out else out ++ name ++ ": "
    | none => out
  out ++ n.sexpHead

/-- The S-expressions of the children are written one behind the other. -/
theorem sexpAll_eq (tree : Tree) (depth start : Nat) (offsets : List Nat) (out : String) (ts : List Subtree) :
    sexpAll tree depth out ts = (nodesFrom tree start offsets ts).foldl (written depth) out := by
  induction ts generalizing offsets out with
  | nil => rfl
  | cons t ts ih =>
      rw [sexpAll, nodesFrom, List.foldl_cons, ih offsets.tail]
      rfl

/-- What a node writes depends on its own lead and on its children only. -/
theorem written_eq (n : Node) (depth : Nat) (out : String) :
    n.written depth out =
      if n.shows then n.children.foldl (written (depth + 1)) (n.lead depth out) ++ ")"
      else n.children.foldl (written (depth + 1)) out := by
  obtain ⟨tree, ⟨info, field, children⟩, start⟩ := n
  have hBelow : ∀ out, sexpAll tree (depth + 1) out children
      = (Node.children ⟨tree, .mk info field children, start⟩).foldl (written (depth + 1)) out :=
    fun out => sexpAll_eq tree (depth + 1) start info.offsets out children
  rw [← hBelow, ← hBelow, written, sexpFrom]
  rfl

/-- Nodes that look alike are written in the same way. -/
theorem Alike.written (h : n.Alike m) (depth : Nat) (out : String) :
    n.written depth out = m.written depth out := by
  refine Alike.induction (motive := fun n m => ∀ depth out, n.written depth out = m.written depth out)
    ?_ h depth out
  intro n m h hChildren depth out
  have hSight := h.sight
  have hKind : n.kind = m.kind := congrArg Sight.kind hSight
  have hField : n.fieldName? = m.fieldName? := congrArg Sight.field hSight
  have hNamed : n.isNamed = m.isNamed := congrArg Sight.isNamed hSight
  have hMissing : n.isMissing = m.isMissing := congrArg Sight.isMissing hSight
  have hShows : n.shows = m.shows := by rw [shows, shows, hNamed, hMissing]
  have hLead : n.lead depth out = m.lead depth out := by
    simp only [lead, sexpHead, hKind, hField, hNamed, hMissing]
  have hBelow : ∀ out, n.children.foldl (Node.written (depth + 1)) out
      = m.children.foldl (Node.written (depth + 1)) out := by
    intro out
    refine List.rel_foldl (P := Eq) ?_ rfl hChildren
    rintro before _ rfl c d ⟨-, hSame⟩
    exact hSame _ _
  rw [written_eq, written_eq, hShows, hLead, hBelow, hBelow]

/-- The reports on a node and on what is below it, in front of `tail`. -/
def reports (n : Node) (tail : List Diagnostic) : List Diagnostic :=
  diagnosticsFrom n.tree n.start tail n.subtree

/-- The reports of the children stand one behind the other. -/
theorem diagnosticsAll_eq (tree : Tree) (start : Nat) (offsets : List Nat) (tail : List Diagnostic)
    (ts : List Subtree) :
    diagnosticsAll tree start offsets tail ts = (nodesFrom tree start offsets ts).foldr reports tail := by
  induction ts generalizing offsets with
  | nil => rfl
  | cons t ts ih =>
      rw [diagnosticsAll, nodesFrom, List.foldr_cons, ih]
      rfl

/-- A node reports itself before anything below it, if there is damage at all. -/
theorem reports_eq (n : Node) (tail : List Diagnostic) : n.reports tail =
    if n.hasError then n.diagnostic?.toList ++ n.children.foldr reports tail else tail := by
  rw [reports, diagnosticsFrom_eq, diagnosticsAll_eq]
  rfl

/-- Nodes that look alike have the same reports. -/
theorem Alike.reports (h : n.Alike m) (tail : List Diagnostic) : n.reports tail = m.reports tail := by
  refine Alike.induction (motive := fun n m => ∀ tail, n.reports tail = m.reports tail) ?_ h tail
  intro n m h hChildren tail
  have hSight := h.sight
  have hTokens : n.children.all isErrorToken = m.children.all isErrorToken := by
    have hMap : n.children.map isErrorToken = m.children.map isErrorToken :=
      map_eq_of_forall₂ (hChildren.imp fun c d hPair => congrArg Sight.isErrorToken hPair.1.sight)
    simpa [List.all_map, Function.comp_def] using congrArg (List.all · id) hMap
  have hReport : n.diagnostic? = m.diagnostic? := by
    have hKind : n.kind = m.kind := congrArg Sight.kind hSight
    have hFirst : n.startOffset = m.startOffset := congrArg Sight.first hSight
    have hLast : n.endOffset = m.endOffset := congrArg Sight.last hSight
    have hMissing : n.isMissing = m.isMissing := congrArg Sight.isMissing hSight
    have hToken : n.isErrorToken = m.isErrorToken := congrArg Sight.isErrorToken hSight
    have hError : n.isError = m.isError := congrArg Sight.isError hSight
    simp only [diagnostic?, damage?, hKind, hFirst, hLast, hMissing, hToken, hError, hTokens]
  have hDamaged : n.hasError = m.hasError := congrArg Sight.hasError hSight
  have hBelow : n.children.foldr Node.reports tail = m.children.foldr Node.reports tail := by
    refine List.rel_foldr (P := Eq) ?_ rfl hChildren
    rintro c d ⟨-, hSame⟩ behind _ rfl
    exact hSame _
  rw [reports_eq, reports_eq, hDamaged, hReport, hBelow]

/-- The nodes of a subtree in pre-order with their depths, where the first one has the depth `depth`. -/
def listed (depth : Nat) (n : Node) : List (Nat × Node) :=
  preorderFrom n.tree depth n.start [] n.subtree

section
variable (tree : Tree)

mutual
theorem preorderFrom_append (depth start : Nat) (tail : List (Nat × Node)) : ∀ t : Subtree,
    preorderFrom tree depth start tail t = preorderFrom tree depth start [] t ++ tail
  | .mk info field children => by
      rw [preorderFrom, preorderFrom, preorderAll_append (depth + 1) start info.offsets tail children]
      rfl

/-- A visit of the children puts what it finds in front of what comes later. -/
theorem preorderAll_append (depth start : Nat) (offsets : List Nat) (tail : List (Nat × Node)) :
    ∀ ts : List Subtree,
      preorderAll tree depth start offsets tail ts = preorderAll tree depth start offsets [] ts ++ tail
  | [] => rfl
  | t :: ts => by
      rw [preorderAll, preorderAll, preorderFrom_append depth _ _ t,
        preorderFrom_append depth _ (preorderAll tree depth start offsets.tail [] ts) t,
        preorderAll_append depth start offsets.tail tail ts, List.append_assoc]
end

/-- The nodes below are those below each of the children. -/
theorem preorderAll_eq (depth start : Nat) (offsets : List Nat) (ts : List Subtree) :
    preorderAll tree depth start offsets [] ts
      = (nodesFrom tree start offsets ts).flatMap (listed depth) := by
  induction ts generalizing offsets with
  | nil => rfl
  | cons t ts ih =>
      rw [preorderAll, preorderFrom_append, ih, nodesFrom, List.flatMap_cons]
      rfl

end

/-- A visit lists the node before everything below it. -/
theorem listed_eq (depth : Nat) (n : Node) :
    n.listed depth = (depth, n) :: n.children.flatMap (listed (depth + 1)) := by
  obtain ⟨tree, ⟨info, field, children⟩, start⟩ := n
  rw [listed, preorderFrom, preorderAll_eq]
  rfl

/-- Nodes that look alike have nodes below them that look alike, at the same depths. -/
theorem Alike.listed (h : n.Alike m) (depth : Nat) :
    List.Forall₂ (fun x y : Nat × Node => x.1 = y.1 ∧ x.2.Alike y.2) (n.listed depth) (m.listed depth) := by
  refine Alike.induction (motive := fun n m => ∀ depth,
    List.Forall₂ (fun x y : Nat × Node => x.1 = y.1 ∧ x.2.Alike y.2) (n.listed depth) (m.listed depth))
    ?_ h depth
  intro n m h hChildren depth
  rw [listed_eq, listed_eq]
  refine .cons ⟨rfl, h⟩ (List.rel_flatMap hChildren ?_)
  rintro c d ⟨-, hBelow⟩
  exact hBelow (depth + 1)

/-- Nothing was found below either node, or two nodes at one place. -/
inductive AtOnePlace (n m : Node) : Option Node → Option Node → Prop
  | nowhere : AtOnePlace n m none none
  | at (place : List Nat) {r s : Node} (hFirst : n.follow? place = some r)
      (hSecond : m.follow? place = some s) : AtOnePlace n m (some r) (some s)

end Node

namespace Span
variable {n m : Node}

/-- Below nodes that look alike, the search goes down to the same child. -/
theorem entered?_of_alike (s : Span) (h : n.Alike m) :
    (s.entered? n = none ∧ s.entered? m = none)
      ∨ ∃ i c d, n.child? i = some c ∧ m.child? i = some d ∧ c.Alike d
        ∧ s.entered? n = some c ∧ s.entered? m = some d := by
  have hCovered : ∀ c d : Node, c.Alike d → s.coveredBy c = s.coveredBy d := by
    intro c d hPair
    have hFirst : c.startOffset = d.startOffset := congrArg Sight.first hPair.sight
    have hLast : c.endOffset = d.endOffset := congrArg Sight.last hPair.sight
    simp only [coveredBy, hFirst, hLast]
  have hInside : ∀ c d : Node, c.Alike d →
      (s.coveredBy c && decide (s.first < c.endOffset))
        = (s.coveredBy d && decide (s.first < d.endOffset)) := by
    intro c d hPair
    have hLast : c.endOffset = d.endOffset := congrArg Sight.last hPair.sight
    rw [hCovered c d hPair, hLast]
  rw [entered?, entered?]
  rcases find?_of_forall₂ hInside h.children with
    ⟨hNone, hNone'⟩ | ⟨i, c, d, hFirst, hSecond, hPair, hFound, hFound'⟩
  · rw [hNone, hNone', Option.none_or, Option.none_or]
    exact find?_of_forall₂ hCovered h.children
  · rw [hFound, hFound', Option.some_or, Option.some_or]
    exact .inr ⟨i, c, d, hFirst, hSecond, hPair, rfl, rfl⟩

/-- Below nodes that look alike, the search ends at the same place. -/
theorem smallest_of_alike (s : Span) (h : n.Alike m) :
    ∃ place, n.follow? place = some (s.smallest n) ∧ m.follow? place = some (s.smallest m) := by
  induction n using Node.tree_induction generalizing m with
  | node n ih =>
      rw [smallest_eq, smallest_eq]
      rcases s.entered?_of_alike h with
        ⟨hNone, hNone'⟩ | ⟨i, c, d, hFirst, hSecond, hPair, hEnter, hEnter'⟩
      · rw [hNone, hNone']
        exact ⟨[], rfl, rfl⟩
      · obtain ⟨place, hBelow, hBelow'⟩ := ih c (List.mem_of_getElem? hFirst) hPair
        rw [hEnter, hEnter']
        refine ⟨i :: place, ?_, ?_⟩
        · rw [Node.follow?, hFirst]
          exact hBelow
        · rw [Node.follow?, hSecond]
          exact hBelow'

end Span

/-- Nodes that look alike have the smallest nodes that cover a range at the same place. -/
theorem Node.Alike.covering? {n m : Node} (h : n.Alike m) (first last : Nat) :
    AtOnePlace n m (n.covering? first last) (m.covering? first last) := by
  have hFirst : n.startOffset = m.startOffset := congrArg Sight.first h.sight
  have hLast : n.endOffset = m.endOffset := congrArg Sight.last h.sight
  obtain ⟨place, hPlace, hPlace'⟩ := (⟨first, last⟩ : Span).smallest_of_alike h
  rw [Node.covering?, Node.covering?, hFirst, hLast]
  split
  · exact .nowhere
  · exact .at place hPlace hPlace'

namespace Walk
variable {w v : Walk}

/-- Two walks stand at nodes that look alike, and have come there in the same way. -/
structure Alike (w v : Walk) : Prop where
  node : w.node.Alike v.node
  index : w.index = v.index
  above : List.Forall₂ (fun x y : Node × Nat => x.1.Alike y.1 ∧ x.2 = y.2) w.above v.above

theorem Alike.start {n m : Node} (h : n.Alike m) : (Walk.start n).Alike (Walk.start m) :=
  ⟨h, rfl, .nil⟩

theorem Alike.firstChild? (h : w.Alike v) : Option.Rel Alike w.firstChild? v.firstChild? :=
  rel_map (rel_getElem? h.node.children 0) fun _ _ hPair => ⟨hPair, rfl, .cons ⟨h.node, h.index⟩ h.above⟩

theorem Alike.nextSibling? (h : w.Alike v) : Option.Rel Alike w.nextSibling? v.nextSibling? := by
  obtain ⟨node, index, above⟩ := w
  obtain ⟨other, _, beyond⟩ := v
  obtain ⟨-, rfl, hAbove⟩ := h
  cases hAbove with
  | nil => exact .none
  | cons hParent hAbove =>
      exact rel_map (rel_getElem? hParent.1.children (index + 1))
        fun _ _ hPair => ⟨hPair, rfl, .cons hParent hAbove⟩

theorem Alike.parent? (h : w.Alike v) : Option.Rel Alike w.parent? v.parent? := by
  obtain ⟨node, index, above⟩ := w
  obtain ⟨other, _, beyond⟩ := v
  obtain ⟨-, -, hAbove⟩ := h
  cases hAbove with
  | nil => exact .none
  | cons hParent hAbove => exact .some ⟨hParent.1, hParent.2, hAbove⟩

/-- Going back is to take the next sibling, or else to go back from the parent. -/
theorem backtrack?_cons (node parent : Node) (index next : Nat) (above : List (Node × Nat)) :
    backtrack? ⟨node, index, (parent, next) :: above⟩ =
      (nextSibling? ⟨node, index, (parent, next) :: above⟩).or (backtrack? ⟨parent, next, above⟩) := by
  rw [backtrack?]
  cases nextSibling? ⟨node, index, (parent, next) :: above⟩ <;> rfl

theorem Alike.backtrack? (h : w.Alike v) : Option.Rel Alike w.backtrack? v.backtrack? := by
  obtain ⟨node, index, above⟩ := w
  obtain ⟨other, index', beyond⟩ := v
  have hAbove := h.above
  dsimp only at hAbove
  -- Where there is no sibling, the nodes above decide, and they look alike too.
  induction hAbove generalizing node other index index' with
  | nil =>
      rw [Walk.backtrack?, Walk.backtrack?]
      exact .none
  | cons hParent hAbove ih =>
      rw [backtrack?_cons, backtrack?_cons]
      exact rel_or h.nextSibling? (ih _ _ _ _ ⟨hParent.1, hParent.2, hAbove⟩)

/-- The next node in pre-order is the first child, or else the one that going back finds. -/
theorem next?_eq (w : Walk) : w.next? = w.firstChild?.or w.backtrack? := by
  rw [Walk.next?]
  cases w.firstChild? <;> rfl

theorem Alike.next? (h : w.Alike v) : Option.Rel Alike w.next? v.next? := by
  rw [next?_eq, next?_eq]
  exact rel_or h.firstChild? h.backtrack?

/-- Both walks answer a move in the same way. -/
theorem Alike.go (h : w.Alike v) (move : Move) :
    (w.go move).1 = (v.go move).1 ∧ (w.go move).2.Alike (v.go move).2 := by
  have hStay : ∀ next after, Option.Rel Alike next after →
      (Walk.go.stayUnless w next).1 = (Walk.go.stayUnless v after).1
        ∧ (Walk.go.stayUnless w next).2.Alike (Walk.go.stayUnless v after).2 := by
    intro next after hNext
    cases hNext with
    | none => exact ⟨rfl, h⟩
    | some hPair => exact ⟨rfl, hPair⟩
  cases move with
  | firstChild => exact hStay _ _ h.firstChild?
  | nextSibling => exact hStay _ _ h.nextSibling?
  | parent => exact hStay _ _ h.parent?
  | reset n => exact ⟨rfl, .start ⟨rfl, n.similar_refl⟩⟩

/-- However two walks move on in the same way, they stand at nodes that look alike. -/
theorem Alike.run (h : w.Alike v) (moves : List Move) : (w.run moves).Alike (v.run moves) := by
  induction moves generalizing w v with
  | nil => exact h
  | cons move moves ih => exact ih (h.go move).2

/-- The places of a walk from one on in pre-order. -/
def trail (w : Walk) : List Walk :=
  match _hNext : w.next? with
  | some next => w :: trail next
  | none => [w]
termination_by w.countAhead
decreasing_by exact countAhead_next _hNext

/-- A walk lists the node it is at and goes on from the next. -/
theorem trail_eq (w : Walk) : w.trail = w :: w.next?.elim [] trail := by
  rw [trail]
  split <;> rename_i hNext <;> rw [hNext] <;> rfl

theorem map_node_trail_eq (w : Walk) : w.trail.map Walk.node = ahead (some w) := by
  induction hCount : w.countAhead using Nat.strongRecOn generalizing w with
  | ind count ih =>
      rw [trail_eq, ahead_some, List.map_cons]
      congr 1
      cases hNext : w.next? with
      | none => rfl
      | some next => exact ih _ (hCount ▸ countAhead_next hNext) next rfl

/-- The nodes on the trail are those that the walk comes to. -/
theorem map_node_trail (n : Node) : (Walk.start n).trail.map Walk.node = preorder n :=
  map_node_trail_eq (Walk.start n)

/-- Walks from similar nodes visit similar nodes, in pairs. -/
theorem Alike.trail (h : w.Alike v) : List.Forall₂ Alike w.trail v.trail := by
  induction hCount : w.countAhead using Nat.strongRecOn generalizing w v with
  | ind count ih =>
      rw [trail_eq, trail_eq]
      apply List.Forall₂.cons h
      rcases rel_cases h.next? with ⟨hNone, hNone'⟩ | ⟨next, after, hNext, hAfter, hPair⟩
      · rw [hNone, hNone']
        exact .nil
      · rw [hNext, hAfter]
        exact ih _ (hCount ▸ countAhead_next hNext) hPair rfl

/-- What a walk is told: how deep it is, the part that the node plays, and what the node answers. -/
def sight (w : Walk) : Nat × Sight := (w.depth, { w.node.sight with field := w.fieldName? })

/-- A caller sees the same at both of them. -/
theorem Alike.sight (h : w.Alike v) : w.sight = v.sight := by
  have hNode := h.node.sight
  have hDepth : w.depth = v.depth := h.above.length_eq
  have hEmpty : w.above.isEmpty = v.above.isEmpty := by
    rw [Bool.eq_iff_iff, List.isEmpty_iff_length_eq_zero, List.isEmpty_iff_length_eq_zero,
      h.above.length_eq]
  have hField : w.fieldName? = v.fieldName? := by
    have hName : w.node.fieldName? = v.node.fieldName? := congrArg Sight.field hNode
    rw [Walk.fieldName?, Walk.fieldName?, hEmpty, hName]
  rw [Walk.sight, Walk.sight, hDepth, hNode, hField]

end Walk

/-- Nothing that can be asked tells the trees apart. -/
structure Tree.Indistinguishable (t u : Tree) : Prop where
  /-- They are written in the same way. -/
  sexp : t.sexp = u.sexp
  /-- The same damage is reported in the same order. -/
  diagnostics : t.diagnostics = u.diagnostics
  /-- The nodes in pre-order have the same depths and answer the same. -/
  preorder : t.rootNode.preorder.map (fun x => (x.1, x.2.sight))
    = u.rootNode.preorder.map fun x => (x.1, x.2.sight)
  /-- Walks in pre-order come to such nodes one after the other, and are told the same at each step. -/
  walk : (Walk.preorder t.rootNode).map Node.sight = (Walk.preorder u.rootNode).map Node.sight
    ∧ (Walk.start t.rootNode).trail.map Walk.sight = (Walk.start u.rootNode).trail.map Walk.sight
  /-- Walks that make the same moves are told the same, and are answered in the same way. -/
  moves : ∀ moves : List Walk.Move,
    ((Walk.start t.rootNode).run moves).sight = ((Walk.start u.rootNode).run moves).sight
      ∧ ∀ move, (((Walk.start t.rootNode).run moves).go move).1
        = (((Walk.start u.rootNode).run moves).go move).1
  /-- The smallest node that covers a range is at the same place in both. -/
  covering : ∀ first last,
    t.rootNode.AtOnePlace u.rootNode (t.rootNode.covering? first last) (u.rootNode.covering? first last)

theorem Language.tables_of_same {l m : Language} (h : l.same m = true) : l.tables = m.tables := by
  rw [same, Bool.and_eq_true] at h
  exact beq_iff_eq.mp h.2

/-- Trees with similar roots give a caller the same answers. -/
theorem Node.Alike.indistinguishable {t u : Tree} (h : t.rootNode.Alike u.rootNode) :
    t.Indistinguishable u where
  sexp := h.written 0 ""
  diagnostics := h.reports []
  preorder := map_eq_of_forall₂ ((h.listed 0).imp fun _ _ hPair => Prod.ext hPair.1 hPair.2.sight)
  walk := by
    have hTrail := (Walk.Alike.start h).trail
    refine ⟨?_, map_eq_of_forall₂ (hTrail.imp fun _ _ hPair => hPair.sight)⟩
    rw [← Walk.map_node_trail, ← Walk.map_node_trail, List.map_map, List.map_map]
    exact map_eq_of_forall₂ (hTrail.imp fun _ _ hPair => hPair.node.sight)
  moves moves := ⟨((Walk.Alike.start h).run moves).sight,
    fun move => (((Walk.Alike.start h).run moves).go move).1⟩
  covering := h.covering?

/-- To look alike is an equivalence of nodes. Trees of the same language whose roots look alike cannot be
told apart. -/
theorem similar_is_observational :
    (Equivalence fun n m : Node => n.similar m = true)
      ∧ ∀ t u : Tree, t.language.same u.language = true → t.similar u = true → t.Indistinguishable u := by
  refine ⟨⟨Node.similar_refl, Node.similar_symm, Node.similar_trans⟩, fun t u hSame hSimilar => ?_⟩
  have hAlike : t.rootNode.Alike u.rootNode := ⟨Language.tables_of_same hSame, hSimilar⟩
  exact hAlike.indistinguishable

/-- A tree whose first letter has been replaced and that has been parsed again, and a tree that has been
made at once. Their roots have different numbers. -/
theorem indistinguishable_in_labels : ∃ first edited tree fresh : Tree,
    Labels.parser.parse "a5:x5".toUTF8 = some first ∧ first.applyEdit ⟨0, 1, 1⟩ = .ok edited
      ∧ Labels.parser.reparse edited "b5:x5".toUTF8 = .ok tree
      ∧ Labels.parser.parse "b5:x5".toUTF8 = some fresh
      ∧ tree.language.same fresh.language = true ∧ tree.similar fresh = true
      ∧ tree.root.serial ≠ fresh.root.serial ∧ tree.Indistinguishable fresh := by
  let edited (first : Tree) : Tree := { first with edit := some ⟨0, 1, 1⟩ }
  have hAll : ((Labels.parser.parse "a5:x5".toUTF8).any fun first =>
      (Labels.parser.runWith "b5:x5".toUTF8 (Labels.parser.queueOf (edited first))
        (max 0 first.nextSerial)).any fun tree => (Labels.parser.parse "b5:x5".toUTF8).any fun fresh =>
          tree.similar fresh && tree.root.serial != fresh.root.serial) = true := by
    decide +kernel
  have hSize : "a5:x5".toUTF8.size = 5 ∧ "b5:x5".toUTF8.size = 5 := by decide +kernel
  obtain ⟨first, hParse, hAll⟩ := (Option.any_eq_true _ _).mp hAll
  obtain ⟨tree, hRun, hAll⟩ := (Option.any_eq_true _ _).mp hAll
  obtain ⟨fresh, hFresh, hBoth⟩ := (Option.any_eq_true _ _).mp hAll
  rw [Bool.and_eq_true, bne_iff_ne] at hBoth
  obtain ⟨made, -, hFirst⟩ := Parser.runWith_eq_some hParse
  have hLength : first.length = 5 := by rw [hFirst, hSize.1]
  have hEdit : first.applyEdit ⟨0, 1, 1⟩ = .ok (edited first) := by
    have hNone : first.edit = none := by rw [hFirst]
    rw [Tree.applyEdit, hLength, hNone, hFirst]
    rfl
  have hReparse : Labels.parser.reparse (edited first) "b5:x5".toUTF8 = .ok tree :=
    Parser.reparse_eq_of_run (by rw [hFirst]) (hLength.trans hSize.2.symm) hRun
  have hSame : tree.language.same fresh.language = true := by
    obtain ⟨made, -, rfl⟩ := Parser.runWith_eq_some hRun
    obtain ⟨made, -, rfl⟩ := Parser.runWith_eq_some hFresh
    simp [Language.same]
  exact ⟨first, edited first, tree, fresh, hParse, hEdit, hReparse, hFresh, hSame, hBoth.1, hBoth.2,
    similar_is_observational.2 tree fresh hSame hBoth.1⟩

end IncrementalParsing
