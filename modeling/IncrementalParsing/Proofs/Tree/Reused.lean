import IncrementalParsing.Proofs.Tree.Navigation
import IncrementalParsing.Proofs.Tree.Sources

/-! What a reparse takes over from the tree of the text before. The pieces are subtrees that the edit
has left alone, with the bytes that they stand for, and they keep their order. -/
namespace IncrementalParsing
open Subtree Text

namespace ReuseQueue
variable {q : ReuseQueue} {old new : ByteArray}

end ReuseQueue

section
variable {language : Language} {tree : Tree} {text : ByteArray}

/-- Trees that go along with a text are trees of the language. -/
theorem Follows.grown (h : Follows language tree text) : ∃ accepted, Grown language tree accepted := by
  induction h with
  | parse p hLanguage hParse _ =>
      obtain ⟨accepted, hVerdict⟩ := Parser.exists_verdict? hParse
      exact ⟨accepted, .parse p hLanguage hParse hVerdict⟩
  | edit _ _ hEdit _ ih =>
      obtain ⟨accepted, hGrown⟩ := ih
      exact ⟨accepted, .edit hGrown hEdit⟩
  | reparse _ p hLanguage hReparse ih =>
      obtain ⟨before, hGrown⟩ := ih
      obtain ⟨accepted, hVerdict⟩ := Parser.exists_verdict? (Parser.reparse_eq_ok hReparse).2
      exact ⟨accepted, .reparse hGrown p hLanguage hReparse hVerdict⟩

/-- A token that is not in the text is marked as damage. -/
theorem Grown.marked (hBuilt : language.tables.Built) {accepted : Bool}
    (h : Grown language tree accepted) :
    ∀ n ∈ tree.inner, n.isMissing = true → n.hasError = true := by
  obtain ⟨g, m, hGenerated, hProper⟩ := hBuilt.generated
  have hUpheld : ∀ (p : Parser) (text : ByteArray), p.language = language →
      (p.job text).Upheld g m fun u => Rooted g u ∧ (u.isMissing = true → u.hasError = true) := by
    rintro p text rfl
    refine ParseJob.upheld_beside hGenerated hProper ⟨fun field u h => ?_, ?_⟩ ?_ ?_ ?_
    · simpa [isMissing, hasError] using h
    · exact fun serial state children _ _ hMissing => absurd hMissing Bool.false_ne_true
    · intro serial position hMissing
      rw [ParseJob.isMissing_readAt] at hMissing
      exact absurd hMissing Bool.false_ne_true
    · exact fun serial terminal _ _ => rfl
    · exact fun _ _ lookaheadStop hMissing => absurd hMissing Bool.false_ne_true
  obtain ⟨-, p, text, s, stack, hLanguage, hRests⟩ := h.rests hUpheld
  exact fun n hMem => (of_mem_inner tree (hRests.below (hUpheld p text hLanguage)) n hMem).2.2

/-- The tree has been told of all edits that led from one text to another. -/
inductive Tree.EditedTo (first : Tree) (old : ByteArray) : Tree → ByteArray → Prop
  | refl : EditedTo first old first old
  | edit {tree edited : Tree} {text replacement new : ByteArray} (h : EditedTo first old tree text)
      {edit : Edit} (hApply : edit.apply text replacement = .ok new)
      (hEdit : tree.applyEdit edit = .ok edited) (hSize : new.size < Offset.bound) :
      EditedTo first old edited new

theorem Tree.EditedTo.follows {first edited : Tree} {old new : ByteArray} (h : first.EditedTo old edited new)
    (hFirst : Follows language first old) (hParsed : first.edit = none) :
    Follows language edited new ∧ Edited edited.edit old new ∧ edited.root = first.root := by
  induction h with
  | refl =>
      refine ⟨hFirst, ?_, rfl⟩
      rw [hParsed, Edited]
  | edit _ hApply hEdit hSize ih =>
      obtain ⟨hFollows, hEdited, hRoot⟩ := ih
      exact ⟨.edit hFollows hApply hEdit hSize, hEdited.applyEdit hFirst.bounded hApply hEdit hSize,
        (Tree.root_applyEdit hEdit).1.trans hRoot⟩

end
end IncrementalParsing
