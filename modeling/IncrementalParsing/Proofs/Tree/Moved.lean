import IncrementalParsing.Proofs.Tree.Lengths

/-! Where the nodes of an edited tree lie. An edit moves offsets without changing their order, so that
ranges stay in order and in each other. The end of the text is moved too, unless all that has happened
is behind it: then the root ends where it did. -/
namespace IncrementalParsing
open Subtree

namespace Subtree

mutual
/-- The nodes of a subtree lie within it. -/
theorem within_placed (start : Nat) : ∀ t : Subtree, All Tiled t →
    ∀ x ∈ placed start t, start ≤ x.1 ∧ x.1 + x.2.total ≤ start + t.total
  | mk info field children, hTiled, x, hMem => by
      rw [placed] at hMem
      rcases List.mem_cons.mp hMem with rfl | hBelow
      · exact ⟨le_rfl, le_rfl⟩
      · have hSome : children ≠ [] := by
          rintro rfl
          exact absurd hBelow List.not_mem_nil
        obtain ⟨hStart, hStop⟩ := within_placedAll start children hTiled.2 x hBelow
        have hTotal : (mk info field children).total = width children := hTiled.1 hSome
        exact ⟨hStart, hTotal ▸ hStop⟩

theorem within_placedAll (start : Nat) : ∀ ts : List Subtree, AllIn Tiled ts →
    ∀ x ∈ placedAll start ts, start ≤ x.1 ∧ x.1 + x.2.total ≤ start + width ts
  | t :: ts, hTiled, x, hMem => by
      rw [placedAll_cons] at hMem
      rw [width_cons]
      rcases List.mem_append.mp hMem with hHere | hLater
      · obtain ⟨hStart, hStop⟩ := within_placed start t hTiled.1 x hHere
        omega
      · obtain ⟨hStart, hStop⟩ := within_placedAll (start + t.total) ts hTiled.2 x hLater
        omega
end

mutual
/-- Nodes without children lie side by side. -/
theorem leaves_apart (start : Nat) : ∀ t : Subtree, All Tiled t →
    ((placed start t).filter fun x => x.2.isLeaf).Pairwise fun x y => x.1 + x.2.total ≤ y.1
  | mk info field [], _ => List.Pairwise.filter _ (List.pairwise_singleton _ _)
  | mk info field (c :: cs), hTiled => by
      rw [placed, List.filter_cons_of_neg (by simp [isLeaf, children])]
      exact leaves_apart_all start (c :: cs) hTiled.2

theorem leaves_apart_all (start : Nat) : ∀ ts : List Subtree, AllIn Tiled ts →
    ((placedAll start ts).filter fun x => x.2.isLeaf).Pairwise fun x y => x.1 + x.2.total ≤ y.1
  | [], _ => List.Pairwise.nil
  | t :: ts, hTiled => by
      rw [placedAll_cons, List.filter_append, List.pairwise_append]
      refine ⟨leaves_apart start t hTiled.1, leaves_apart_all _ ts hTiled.2, ?_⟩
      intro x hHere y hLater
      have hStop := (within_placed start t hTiled.1 x (List.mem_of_mem_filter hHere)).2
      have hStart := (within_placedAll _ ts hTiled.2 y (List.mem_of_mem_filter hLater)).1
      exact hStop.trans hStart
end

end Subtree

/-- The node as one of another tree. -/
def Node.inTree (n : Node) (tree : Tree) : Node := { n with tree := tree }

/-- The range of the node holds the range of the other one. -/
def Node.Holds (n c : Node) : Prop := n.startOffset ≤ c.startOffset ∧ c.endOffset ≤ n.endOffset

section
variable (tree other : Tree)

mutual
theorem map_inTree_preorderFrom (depth start : Nat) (tail : List (Nat × Node)) : ∀ t : Subtree,
    (preorderFrom tree depth start tail t).map (fun x => (x.1, x.2.inTree other))
      = preorderFrom other depth start (tail.map fun x => (x.1, x.2.inTree other)) t
  | mk info field children => by
      rw [preorderFrom, preorderFrom, List.map_cons, map_inTree_preorderAll]
      rfl

theorem map_inTree_preorderAll (depth start : Nat) (offsets : List Nat) (tail : List (Nat × Node)) :
    ∀ ts : List Subtree,
      (preorderAll tree depth start offsets tail ts).map (fun x => (x.1, x.2.inTree other))
        = preorderAll other depth start offsets (tail.map fun x => (x.1, x.2.inTree other)) ts
  | [] => rfl
  | t :: ts => by
      rw [preorderAll, preorderAll, map_inTree_preorderFrom, map_inTree_preorderAll]
end

end

namespace Tree
variable {tree edited : Tree} {old : ByteArray} {es : List Edit} {a b : Nat}

/-- The nodes without children lie side by side in the text that was parsed. -/
theorem Stems.leaves_apart (h : tree.Stems old) :
    (tree.nodes.filter fun n => n.subtree.isLeaf).Pairwise fun n m => n.stop ≤ m.start := by
  have hSpots : ((placed 0 tree.root).filter fun x => x.2.isLeaf).Pairwise
      fun x y => x.1 + x.2.total ≤ y.1 := by
    rw [placed_eq]
    -- The root can be wider than its children are, so it is not one of the nodes that are tiled.
    by_cases hLeaf : tree.root.isLeaf
    · rw [children_of_isLeaf hLeaf]
      exact List.Pairwise.filter _ (List.pairwise_singleton _ _)
    · rw [List.filter_cons_of_neg (by rwa [isLeaf_withField])]
      refine leaves_apart_all 0 _ (allIn_iff.mpr fun c hMem => ?_)
      exact (h.spans.measured c hMem).imp fun _ hNode => hNode.total
  rw [← spots_nodes h.laid, List.filter_map, List.pairwise_map] at hSpots
  simpa [Node.spot, Node.stop, Function.comp_def] using hSpots

/-- The edit that stands for several ones starts where the first of them in the text does. -/
theorem start_foldl_lt_iff (e : Edit) (es : List Edit) (n : Nat) :
    (es.foldl Edit.andThen e).start < n ↔ ∃ f ∈ e :: es, f.start < n := by
  induction es generalizing e with
  | nil => simp
  | cons f es ih =>
      have hStart : (e.andThen f).start < n ↔ e.start < n ∨ f.start < n := by
        show min e.start f.start < n ↔ _
        omega
      rw [List.foldl_cons, ih]
      simp only [List.mem_cons, exists_eq_or_imp, hStart, or_assoc]

/-- The edit that a tree keeps for edits starts in front of a place if one of them does. -/
theorem kept_start_lt_iff (hParsed : tree.edit = none) (hAccepted : tree.applyEdits es = .ok edited)
    (n : Nat) : (∃ e ∈ edited.edit, e.start < n) ↔ ∃ e ∈ es, e.start < n := by
  have hKept := (kept_of_applyEdits hAccepted).2
  rw [hParsed] at hKept
  cases es with
  | nil => simp [hKept]
  | cons e es =>
      rw [hKept, List.foldl_cons, Option.elim_none, foldl_kept, ← start_foldl_lt_iff]
      simp

/-- The end of the text that was parsed becomes the end of the text if an edit starts in front of it,
and else stays where it is. -/
theorem Stems.image_size (h : tree.Stems old) :
    (∃ e ∈ tree.edit, e.start < old.size) ∧ tree.image old.size = tree.length
      ∨ (¬ ∃ e ∈ tree.edit, e.start < old.size) ∧ tree.image old.size = old.size := by
  have hResized := h.resized
  rw [image]
  cases hEdit : tree.edit with
  | none => simp
  | some e =>
      rw [hEdit] at hResized
      have hImage : e.image old.size = _ := Edit.Resizes.image_end hResized h.reached
      by_cases hStart : e.start < old.size
      · exact .inl ⟨⟨e, rfl, hStart⟩, hImage.trans (if_pos hStart)⟩
      · exact .inr ⟨by simpa using hStart, hImage.trans (if_neg hStart)⟩

theorem image_zero (t : Tree) : t.image 0 = 0 := by
  rw [image]
  cases t.edit with
  | none => rfl
  | some e => exact Edit.image_of_le (Nat.zero_le _)

/-- The root of an edited tree ends where the text does if an edit starts in front of the end of the text
that was parsed, and else where it did. -/
theorem endOffset_rootNode (h : tree.Sized) (hParsed : tree.edit = none)
    (hAccepted : tree.applyEdits es = .ok edited)
    (hFits : ∀ front, front <+: es → Edit.exactLength tree.length front < Offset.bound) :
    edited.rootNode.startOffset = 0 ∧ edited.rootNode.endOffset
      = if ∃ e ∈ es, e.start < tree.length then edited.length else tree.length := by
  obtain ⟨old, hStems, -⟩ := h.stems
  obtain ⟨hEdited, -, -⟩ := hStems.applyEdits hAccepted hFits
  have hLength : tree.length = old.size := by
    have hResized := hStems.resized
    rwa [hParsed] at hResized
  have hPadding : edited.root.padding = 0 := hEdited.spans.padding
  have hTotal : edited.root.total = old.size := hEdited.spans.total
  constructor
  · rw [Node.startOffset, rootNode, Node.root, hPadding]
    exact edited.image_zero
  · rw [Node.endOffset, Node.stop, rootNode, Node.root, hTotal, Nat.zero_add, hLength]
    rcases hEdited.image_size with ⟨hBefore, hImage⟩ | ⟨hBehind, hImage⟩
    · exact hImage.trans (if_pos ((kept_start_lt_iff hParsed hAccepted _).mp hBefore)).symm
    · have hNone := fun hBefore => hBehind ((kept_start_lt_iff hParsed hAccepted _).mpr hBefore)
      exact hImage.trans (if_neg hNone).symm

/-- The root of an edited tree starts where the text does. It ends where the text does if and only if an
edit starts in front of the end of the text that was parsed, or the text is as long as before: what is
put in at the end is outside of the root. -/
theorem root_spans_iff (h : tree.Sized) (hParsed : tree.edit = none)
    (hAccepted : tree.applyEdits es = .ok edited)
    (hFits : ∀ front, front <+: es → Edit.exactLength tree.length front < Offset.bound) :
    edited.rootNode.startOffset = 0
      ∧ (edited.rootNode.endOffset = edited.length ↔
        (∃ e ∈ es, e.start < tree.length) ∨ edited.length = tree.length)
      ∧ ((∀ e ∈ es, tree.length ≤ e.start) → edited.rootNode.endOffset = tree.length) := by
  obtain ⟨hStart, hEnd⟩ := endOffset_rootNode h hParsed hAccepted hFits
  refine ⟨hStart, ?_, fun hBehind => ?_⟩
  · rw [hEnd]
    split
    · next hBefore => exact ⟨fun _ => .inl hBefore, fun _ => rfl⟩
    · next hBehind => exact ⟨fun hSame => .inr hSame.symm, fun hOr => (hOr.resolve_left hBehind).symm⟩
  · rw [hEnd, if_neg]
    rintro ⟨e, hMem, hBefore⟩
    exact absurd hBefore (Nat.not_lt.mpr (hBehind e hMem))

/-- The root takes part in an insertion at the end, as later edits start in front of it. -/
theorem root_spans_three : ∃ tree edited : Tree, tree.Sized ∧ tree.edit = none
    ∧ tree.applyEdits [⟨5, 5, 7⟩, ⟨4, 6, 5⟩, ⟨0, 1, 2⟩] = .ok edited
    ∧ edited.rootNode.startOffset = 0 ∧ edited.rootNode.endOffset = edited.length := by
  obtain ⟨tree, edited, hSized, hParsed, hLength, hAccepted, hFits⟩ := exists_edited
  obtain ⟨hStart, hIff, -⟩ := root_spans_iff hSized.sized hParsed hAccepted hFits
  have hBefore : ∃ e ∈ ([⟨5, 5, 7⟩, ⟨4, 6, 5⟩, ⟨0, 1, 2⟩] : List Edit), e.start < tree.length := by
    rw [hLength]
    decide
  exact ⟨tree, edited, hSized.sized, hParsed, hAccepted, hStart, hIff.mpr (.inl hBefore)⟩

/-- Two bytes are put in at the end, and the root ends in front of them. -/
theorem root_ends_before_insertion : ∃ tree edited : Tree, tree.Sized ∧ tree.edit = none
    ∧ tree.applyEdits [⟨5, 5, 7⟩] = .ok edited
    ∧ edited.length = 7 ∧ edited.rootNode.endOffset = 5 := by
  obtain ⟨tree, hSized, hLength, hParsed⟩ := exists_sized
  obtain ⟨edited, hEdit, hAfter⟩ := @exists_applyEdit _ ⟨5, 5, 7⟩ _ hLength rfl
  have hAccepted : tree.applyEdits [⟨5, 5, 7⟩] = .ok edited :=
    applyEdits_cons_eq_ok.mpr ⟨edited, hEdit, rfl⟩
  have hFits : ∀ front, front <+: [⟨5, 5, 7⟩] →
      Edit.exactLength tree.length front < Offset.bound := by
    have hAll : ∀ front ∈ ([⟨5, 5, 7⟩] : List Edit).inits, Edit.exactLength 5 front < Offset.bound := by
      decide
    rw [hLength]
    exact fun front hFront => hAll front ((List.mem_inits _ _).mpr hFront)
  have hBehind : ¬ ∃ e ∈ ([⟨5, 5, 7⟩] : List Edit), e.start < tree.length := by
    rw [hLength]
    decide
  have hEnd := (endOffset_rootNode hSized.sized hParsed hAccepted hFits).2
  rw [if_neg hBehind, hLength] at hEnd
  exact ⟨tree, edited, hSized.sized, hParsed, hAccepted, hAfter, hEnd⟩

end Tree
end IncrementalParsing
