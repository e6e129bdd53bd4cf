import IncrementalParsing.Proofs.Tree.Reused

/-! Where the nodes of a tree lie, whatever its tables are. Tables that are not made from a grammar may
take apart nodes that hold a token themselves. Then bytes of the text have no node, but no node gets
wider than its children are together, and none ends behind the text. -/
namespace IncrementalParsing
open Subtree

namespace Subtree

/-- No kind is known to be taken apart. -/
def bare : Kinds where
  spliced _ := false
  invalid _ := false

theorem plain_bare (t : Subtree) : Plain bare t := fun _ hSpliced => absurd hSpliced Bool.false_ne_true

end Subtree

/-- Whatever the tables are, a reduction makes a node that is measured. -/
theorem ParseJob.suits_bare (job : ParseJob) : job.Suits bare where
  valid _ := rfl
  shifted _ := rfl
  reduced h _ info lookaheadStop := by
    have hTaken := h.taken info.rhs.reverse
    rw [ParseStack.reduced]
    refine all_measured_branch _ _ _ _ _ _ (fun _ t _ => plain_bare t) ?_
    split
    · exact fun t hMem => (hTaken t hMem).1
    · exact forall_all_unwrapped Measured.withField _ fun t hMem => (hTaken t hMem).1

/-- A tree has been made from a text: its root is the whole text, and what is below it is measured. -/
structure Tree.Spans (tree : Tree) (text : ByteArray) : Prop where
  parsed : tree.edit = none
  padding : tree.root.padding = 0
  total : tree.root.total = text.size
  laid : Subtree.Laid tree.root
  measured : ∀ u ∈ tree.root.children, All (Measured bare) u

/-- All nodes of a tree that has been made from a text say where their children start. -/
theorem Tree.Spans.all_laid {tree : Tree} {text : ByteArray} (h : tree.Spans text) : tree.Laid :=
  all_iff.mpr ⟨h.laid, fun u hMem => (h.measured u hMem).imp fun _ hNode => hNode.laid⟩

section
variable {language : Language} {tree : Tree} {text : ByteArray}

theorem Parser.spans_of_runWith {p : Parser} {queue : Option ReuseQueue} {nextSerial : Nat}
    (hQueue : ∀ q, queue = some q → ∀ u ∈ q.ahead, All (Measured bare) u)
    (hMade : p.runWith text queue nextSerial = some tree) : tree.Spans text := by
  obtain ⟨made, hParse, rfl⟩ := Parser.runWith_eq_some hMade
  obtain ⟨hPadding, hTotal, hMeasured⟩ := (p.job text).suits_bare.measured_parseWithin hQueue hParse
  exact ⟨rfl, hPadding, hTotal, ParseJob.laid_parseWithin hParse, hMeasured⟩

/-- What a reparse may take over is below the root of the edited tree. -/
theorem Parser.ahead_queueOf {P : Subtree → Prop} {p : Parser} (h : ∀ u ∈ tree.root.children, P u) :
    ∀ q, p.queueOf tree = some q → ∀ u ∈ q.ahead, P u := by
  intro q hQueue
  obtain rfl := Parser.queueOf_eq_some hQueue
  exact h

theorem Follows.measured_root (h : Follows language tree text) :
    ∀ u ∈ tree.root.children, All (Measured bare) u := by
  induction h with
  | parse p hLanguage hParse hSize => exact (p.spans_of_runWith (by simp) hParse).measured
  | edit h hApply hEdit hSize ih => exact (Tree.root_applyEdit hEdit).1 ▸ ih
  | reparse h p hLanguage hReparse ih =>
      exact (p.spans_of_runWith (Parser.ahead_queueOf ih) (Parser.reparse_eq_ok hReparse).2).measured

/-- Every tree without a pending edit has been made from its text. -/
theorem Follows.spans (h : Follows language tree text) (hParsed : tree.edit = none) :
    tree.Spans text := by
  cases h with
  | parse p hLanguage hParse hSize => exact p.spans_of_runWith (by simp) hParse
  | edit h hApply hEdit hSize =>
      rw [(Tree.applyEdit_eq_ok_iff.mp hEdit).2] at hParsed
      simp at hParsed
  | reparse hBefore p hLanguage hReparse =>
      exact p.spans_of_runWith (Parser.ahead_queueOf hBefore.measured_root)
        (Parser.reparse_eq_ok hReparse).2

/-- It holds nothing that lies outside of its text, if tokens end where offsets are. -/
theorem Follows.inside (hRange : language.lexer.InRange) (h : Follows language tree text)
    (hParsed : tree.edit = none) : width tree.root.children ≤ text.size := by
  obtain ⟨old, -, hEdited, -, hWidth⟩ : ∃ old : ByteArray, old.size < Offset.bound
      ∧ Edited tree.edit old text ∧ (∀ u ∈ tree.root.children, All (Measured bare) u)
      ∧ width tree.root.children ≤ old.size := by
    refine h.source
      (P := fun root size => (∀ u ∈ root.children, All (Measured bare) u) ∧ width root.children ≤ size) ?_
    rintro p text queue limit nextSerial made rfl hSize hQueue hParse
    have hSuits := (p.job text).suits_bare
    have hOffers : ∀ q, queue = some q → (∀ u ∈ q.ahead, All (Measured bare) u)
        ∧ ParseJob.Offers width text.size q := by
      intro q hSome
      obtain ⟨root, size, ⟨hMeasured, hRoot⟩, hAhead, hStart, hResized⟩ := hQueue q hSome
      have hLies : q.Lies bare size := ⟨hAhead ▸ hMeasured, by rwa [hStart, hAhead, Nat.zero_add]⟩
      exact ⟨hLies.measured, hLies.offers hResized hSize⟩
    exact ⟨(hSuits.measured_parseWithin (fun q hSome => (hOffers q hSome).1) hParse).2.2,
      hSuits.width_parseWithin hRange hOffers hParse⟩
  rw [hParsed] at hEdited
  obtain rfl : text = old := hEdited
  exact hWidth

end
end IncrementalParsing
