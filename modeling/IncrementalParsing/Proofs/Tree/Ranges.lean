import IncrementalParsing.Proofs.Labels.Language
import IncrementalParsing.Proofs.Parser.Extent
import IncrementalParsing.Proofs.Tree.Preorder

/-! Where the nodes of a parsed tree lie. Counted with their padding, children fill their node from
left to right. Without it they are in order too, but a node starts where its first child with a size
does, so the empty ones in front of that child lie in front of the node. -/
namespace IncrementalParsing
open Subtree Text

namespace Subtree

theorem width_take_le (ts : List Subtree) (i : Nat) : width (ts.take i) ≤ width ts := by
  calc width (ts.take i) ≤ width (ts.take i) + width (ts.drop i) := Nat.le_add_right _ _
    _ = width ts := by rw [← width_append, List.take_append_drop]

theorem width_take_succ {ts : List Subtree} {i : Nat} {t : Subtree} (hAt : ts[i]? = some t) :
    width (ts.take (i + 1)) = width (ts.take i) + t.total := by
  rw [List.take_add_one, hAt, width_append]
  rfl

/-- A subtree either starts behind the leading bytes, or it and all in front of it are empty and end
within them. -/
theorem leading_cases {ts : List Subtree} {i : Nat} {t : Subtree} (hAt : ts[i]? = some t) :
    leading ts ≤ width (ts.take i) + t.padding
      ∨ width (ts.take (i + 1)) ≤ leading ts ∧ ∀ u ∈ ts.take (i + 1), u.size = 0 := by
  induction ts generalizing i with
  | nil => simp at hAt
  | cons head ts ih =>
      rw [leading]
      split
      · left
        cases i with
        | zero =>
            obtain rfl : head = t := by simpa using hAt
            exact Nat.le_add_left _ _
        | succ i =>
            rw [List.take_succ_cons, width_cons, total]
            change head.info.padding ≤ _
            omega
      · rename_i hEmpty
        have hSize : head.size = 0 := Nat.eq_zero_of_not_pos hEmpty
        cases i with
        | zero => exact .inr ⟨by simp, by simpa using hSize⟩
        | succ i =>
            rcases ih (i := i) hAt with hBehind | ⟨hWithin, hEmpties⟩
            · left
              rw [List.take_succ_cons, width_cons]
              omega
            · right
              rw [List.take_succ_cons, width_cons]
              exact ⟨by omega, List.forall_mem_cons.mpr ⟨hSize, hEmpties⟩⟩

end Subtree

/-- The children of a node are in order. With their padding they lie within the node. Without it
they end within the node, and start within it too, unless they are empty and nothing but empty
children is in front of them: these may lie in front of the node. -/
structure Node.Encloses (n : Node) : Prop where
  padded : ∀ c ∈ n.children, n.start ≤ c.start ∧ c.stop ≤ n.stop
  ordered : ∀ (i : Nat) (a b : Node), n.children[i]? = some a → n.children[i + 1]? = some b →
    a.endOffset ≤ b.startOffset
  ends : ∀ c ∈ n.children, c.endOffset ≤ n.endOffset
  starts : ∀ (i : Nat) (c : Node), n.children[i]? = some c → n.startOffset ≤ c.startOffset
    ∨ c.endOffset ≤ n.startOffset ∧ ∀ d ∈ n.children.take (i + 1), d.startOffset = d.endOffset

section
variable {n : Node}

/-- Without an edit a node starts behind its padding. -/
theorem Node.startOffset_of_unedited (hEdit : n.tree.edit = none) :
    n.startOffset = n.start + n.subtree.padding := by
  rw [startOffset, Tree.image, hEdit]

/-- Without an edit a node ends where its subtree does. -/
theorem Node.endOffset_of_unedited (hEdit : n.tree.edit = none) :
    n.endOffset = n.start + n.subtree.total := by
  rw [endOffset, Tree.image, hEdit]
  rfl

theorem Node.getElem?_children (n : Node) (i : Nat) :
    n.children[i]? = n.subtree.children[i]?.map fun t =>
      ⟨n.tree, t, n.start + n.subtree.info.offsets.getD i 0⟩ :=
  getElem?_nodesFrom _ _ _ _ _

/-- The first children are made from the first subtrees. -/
theorem Node.subtree_mem_take {d : Node} {k : Nat} (hMem : d ∈ n.children.take k) :
    d.subtree ∈ n.subtree.children.take k := by
  have hSubtree := List.mem_map_of_mem (f := Node.subtree) hMem
  rwa [List.map_take, children, map_subtree_nodesFrom] at hSubtree

/-- A child is a subtree at the place where those in front of it end. -/
theorem Node.exists_of_child (hLaid : Laid n.subtree) {i : Nat} {c : Node} (hAt : n.children[i]? = some c) :
    ∃ t : Subtree, n.subtree.children[i]? = some t
      ∧ c = ⟨n.tree, t, n.start + width (n.subtree.children.take i)⟩ := by
  rw [getElem?_children] at hAt
  obtain ⟨t, hSome, rfl⟩ := Option.map_eq_some_iff.mp hAt
  exact ⟨t, hSome, by rw [hLaid.getD hSome]⟩

/-- Each child lies behind the widths of those in front of it. -/
theorem Node.exists_of_mem_children (hLaid : Laid n.subtree) {c : Node} (hMem : c ∈ n.children) :
    ∃ (i : Nat) (t : Subtree), n.subtree.children[i]? = some t
      ∧ c = ⟨n.tree, t, n.start + width (n.subtree.children.take i)⟩ := by
  obtain ⟨i, hAt⟩ := List.mem_iff_getElem?.mp hMem
  exact ⟨i, exists_of_child hLaid hAt⟩

theorem Node.encloses_of_no_children (hNone : n.subtree.children = []) : n.Encloses := by
  have hEmpty : n.children = [] := by rw [children, hNone]; rfl
  constructor <;> simp [hEmpty]

/-- Children that are no wider than their node lie within it. Their node starts where it should, or
at once. -/
theorem Node.encloses_of_width (hEdit : n.tree.edit = none) (hLaid : Laid n.subtree)
    (hWidth : width n.subtree.children ≤ n.subtree.total)
    (hPadding : n.subtree.padding = leading n.subtree.children ∨ n.subtree.padding = 0) :
    n.Encloses := by
  have hStop : ∀ (i : Nat) (t : Subtree), n.subtree.children[i]? = some t →
      width (n.subtree.children.take i) + t.total ≤ n.subtree.total := by
    intro i t hAt
    rw [← width_take_succ hAt]
    exact (width_take_le _ _).trans hWidth
  have hEdits : ∀ c ∈ n.children, c.tree.edit = none := by
    intro c hMem
    obtain ⟨i, t, -, rfl⟩ := exists_of_mem_children hLaid hMem
    exact hEdit
  refine ⟨fun c hMem => ?_, fun i a b hFirst hSecond => ?_, fun c hMem => ?_, fun i c hAt => ?_⟩
  · obtain ⟨i, t, hAt, rfl⟩ := exists_of_mem_children hLaid hMem
    have hInside := hStop i t hAt
    exact ⟨Nat.le_add_right _ _, by simp only [stop]; omega⟩
  · rw [endOffset_of_unedited (hEdits a (List.mem_of_getElem? hFirst)),
      startOffset_of_unedited (hEdits b (List.mem_of_getElem? hSecond))]
    obtain ⟨t, hAt, rfl⟩ := exists_of_child hLaid hFirst
    obtain ⟨u, -, rfl⟩ := exists_of_child hLaid hSecond
    simp only [width_take_succ hAt]
    omega
  · rw [endOffset_of_unedited (hEdits c hMem), endOffset_of_unedited hEdit]
    obtain ⟨i, t, hAt, rfl⟩ := exists_of_mem_children hLaid hMem
    have hInside := hStop i t hAt
    simp only
    omega
  · have hMem := List.mem_of_getElem? hAt
    rw [startOffset_of_unedited hEdit, startOffset_of_unedited (hEdits c hMem),
      endOffset_of_unedited (hEdits c hMem)]
    obtain ⟨t, hSome, rfl⟩ := exists_of_child hLaid hAt
    rcases leading_cases hSome with hBehind | ⟨hWithin, hEmpty⟩
    · left
      simp only
      omega
    · rcases hPadding with hPadding | hPadding
      · right
        rw [width_take_succ hSome] at hWithin
        refine ⟨by simp only; omega, fun d hFront => ?_⟩
        have hSize : d.subtree.size = 0 := hEmpty d.subtree (subtree_mem_take hFront)
        rw [startOffset_of_unedited (hEdits d (List.mem_of_mem_take hFront)),
          endOffset_of_unedited (hEdits d (List.mem_of_mem_take hFront)), total]
        simp only [size] at hSize
        simp only [padding]
        omega
      · left
        simp only
        omega

end

section
variable {language : Language} {text : ByteArray} {tree : Tree}

/-- What a parse leaves below its root fits into the text. -/
theorem width_root_of_parse (hBuilt : language.tables.Built) (hRange : language.lexer.InRange)
    {p : Parser} (hLanguage : p.language = language) (hParse : p.parse text = some tree) :
    tree.edit = none ∧ tree.root.padding = 0 ∧ width tree.root.children ≤ tree.root.total ∧ tree.Laid
      ∧ ∀ u ∈ tree.root.children, All (Measured language.tables.widths) u := by
  subst hLanguage
  obtain ⟨g, m, hGenerated, hProper⟩ := hBuilt.generated
  obtain ⟨made, hMade, hTree⟩ := Parser.runWith_eq_some hParse
  have hSuits := @ParseJob.suits_widths (p.job text) _ _ hGenerated hProper
  obtain ⟨hPadding, hTotal, hMeasured⟩ := hSuits.measured_parseWithin (by simp) hMade
  have hWidth := hSuits.width_parseWithin hRange (by simp) hMade
  have hLaid : tree.Laid := Parser.laid_of_runWith hParse fun u hMem => by
    rw [hTree] at hMem
    exact (hMeasured u hMem).imp fun _ hNode => hNode.laid
  subst hTree
  exact ⟨rfl, hPadding, hTotal.symm ▸ hWidth, hLaid, hMeasured⟩

/-- In a parsed tree children are in order and end within their node. They start within it as well,
but for empty ones with nothing but empty ones in front of them. -/
theorem parsed_encloses (hBuilt : language.tables.Built) (hRange : language.lexer.InRange)
    {p : Parser} (hLanguage : p.language = language) (hParse : p.parse text = some tree) :
    ∀ n ∈ tree.rootNode :: tree.inner, n.Encloses := by
  obtain ⟨hEdit, hPadding, hWidth, hLaid, hMeasured⟩ := width_root_of_parse hBuilt hRange hLanguage hParse
  intro n hMem
  rcases List.mem_cons.mp hMem with rfl | hMem
  · exact Node.encloses_of_width hEdit hLaid.self hWidth (.inr hPadding)
  · obtain ⟨hTree, hNode⟩ := of_mem_inner tree hMeasured n hMem
    by_cases hNone : n.subtree.children = []
    · exact Node.encloses_of_no_children hNone
    · exact Node.encloses_of_width (hTree ▸ hEdit) hNode.laid (hNode.total hNone).ge
        (.inl (hNode.padding hNone))

end

namespace Labels

/-- The scanner of labels, with blanks in front of tokens. -/
def spacedLexer : Lexer where
  names := lexer.names
  next text offset :=
    if byteAt? text offset = some 32 then
      (lexer.next text (offset + 1)).map fun t => { t with padding := 1 }
    else lexer.next text offset

theorem inRange_spacedLexer : spacedLexer.InRange := by
  intro text offset t hNext
  simp only [spacedLexer] at hNext
  split at hNext
  · obtain ⟨u, hBehind, rfl⟩ := Option.map_eq_some_iff.mp hNext
    have hEnd := inRange_lexer _ _ _ hBehind
    simp only [Token.width] at hEnd ⊢
    omega
  · exact inRange_lexer _ _ _ hNext

/-- A parser of labels with blanks between them. -/
def spacedParser : Parser := .ofLanguage ⟨tables, spacedLexer, tables.fingerprint⟩

/-- A number stands behind a blank. The label in front of it is inserted at once behind the start of
the text, but its entry starts at the number. -/
theorem parse_number : ∃ tree, spacedParser.parse " 5".toUTF8 = some tree
    ∧ ∃ n ∈ tree.inner, ∃ c ∈ n.children, c.startOffset < n.startOffset := by
  have hFront : ((spacedParser.parse " 5".toUTF8).elim false fun tree =>
      tree.inner.any fun n => n.children.any fun c => c.startOffset < n.startOffset) = true := by
    decide +kernel
  cases hParse : spacedParser.parse " 5".toUTF8 with
  | none =>
      rw [hParse] at hFront
      exact absurd hFront Bool.false_ne_true
  | some tree =>
      rw [hParse] at hFront
      exact ⟨tree, rfl, by simpa using hFront⟩

theorem parsed_encloses_label : ∃ tree, spacedParser.parse " 5".toUTF8 = some tree
    ∧ ∀ n ∈ tree.rootNode :: tree.inner, n.Encloses := by
  obtain ⟨tree, hParse, -⟩ := parse_number
  exact ⟨tree, hParse, parsed_encloses (p := spacedParser) built_tables inRange_spacedLexer rfl hParse⟩

/-- So the ranges of children are not always within that of their node. -/
theorem not_nested_in_entry : ∃ tree, spacedParser.parse " 5".toUTF8 = some tree
    ∧ ¬ ∀ n ∈ tree.rootNode :: tree.inner, ∀ c ∈ n.children,
      n.startOffset ≤ c.startOffset ∧ c.endOffset ≤ n.endOffset := by
  obtain ⟨tree, hParse, n, hNode, c, hChild, hFront⟩ := parse_number
  refine ⟨tree, hParse, fun hNested => ?_⟩
  exact absurd (hNested n (List.mem_cons_of_mem _ hNode) c hChild).1 (Nat.not_le.mpr hFront)

end Labels
end IncrementalParsing
