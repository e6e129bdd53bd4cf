import IncrementalParsing.Proofs.Tree.Ranges
import IncrementalParsing.Proofs.Tree.Tokens

/-! The text that a tree was made from. The edits of the tree lead on from there, and what a run makes of
its text, given what the run before made of the old one, holds of the tree. So its nodes lie within the old
text, and what was read for them as well. -/
namespace IncrementalParsing
open Subtree

namespace ReuseQueue
variable {q r : ReuseQueue} {kinds : Kinds} {size length : Nat}

/-- A stretch from the start of a subtree that can be reused, no longer than what was read for it, lies
within the new text if it lay within the old one, or as far behind. -/
theorem fits_of_reusable (slack : Nat) (hResized : Edit.Resized q.edit size length)
    (hLength : length < Offset.bound)
    {start : Nat} {t : Subtree} (hReusable : q.isReusable start t = true) (hStart : start ≤ size)
    {stretch : Nat} (hRead : stretch ≤ t.total + t.lookahead) (hBound : start + stretch ≤ size + slack) :
    q.map start + stretch ≤ length + slack := by
  have hClean := ((isReusable_iff _ _ _).mp hReusable).1
  unfold isDirty at hClean
  unfold map
  cases hEdit : q.edit with
  | none =>
      rw [hEdit] at hResized
      obtain rfl : length = size := hResized
      exact hBound
  | some e =>
      rw [hEdit] at hResized hClean
      dsimp only at hClean ⊢
      have hResizes : e.Resizes size length := hResized
      have hOld := hResizes.oldRange
      have hNew := hResizes.newRange
      have hSizes := hResizes.sizes
      simp only [Edit.meets, Bool.and_eq_false_iff, decide_eq_false_iff_not, Nat.not_le] at hClean
      rcases hClean with hBehind | hBefore
      · rw [hResizes.image_eq hLength hStart, if_neg (by omega)]
        omega
      · rw [Edit.image_of_le (by omega)]
        omega

/-- A queue over an edited tree offers nothing that ends behind the new text. -/
theorem Lies.offers (h : q.Lies kinds size) (hResized : Edit.Resized q.edit size length)
    (hLength : length < Offset.bound) : ParseJob.Offers width length q := by
  intro r hBehind t ts hAhead hReusable
  have hBound := (h.behind hBehind).bound
  rw [hAhead, width_cons] at hBound
  rw [width_cons, width_nil, Nat.add_zero]
  exact fits_of_reusable 0 (hBehind.edit ▸ hResized) hLength hReusable (by omega)
    (Nat.le_add_right _ _) (by omega)

/-- For nothing that is ahead more was read than a text of `size` bytes, and its end. -/
structure Looks (kinds : Kinds) (size : Nat) (q : ReuseQueue) : Prop where
  measured : ∀ t ∈ q.ahead, All (Measured kinds) t
  reach : q.start + reach q.ahead ≤ size + 1

theorem Looks.pass (h : q.Looks kinds size) : q.pass.Looks kinds size := by
  obtain ⟨_ | ⟨t, ts⟩, start, edit⟩ := q
  · exact h
  · obtain ⟨hMeasured, hReach⟩ := h
    refine ⟨fun u hMem => hMeasured u (List.mem_cons_of_mem _ hMem), ?_⟩
    simp only [reach_cons] at hReach
    simp only [ReuseQueue.pass]
    omega

theorem Looks.enter (h : q.Looks kinds size) : q.enter.Looks kinds size := by
  obtain ⟨_ | ⟨t, ts⟩, start, edit⟩ := q
  · exact h
  · unfold ReuseQueue.enter
    dsimp only
    split
    · exact h.pass
    · obtain ⟨hMeasured, hReach⟩ := h
      have hHead := hMeasured t List.mem_cons_self
      refine ⟨fun u hMem => ?_, ?_⟩
      · rcases List.mem_append.mp hMem with hMem | hMem
        · exact hHead.child hMem
        · exact hMeasured u (List.mem_cons_of_mem _ hMem)
      · have hInner := (hHead.self.tighter_children.append (.refl ts)).reach
        exact le_trans (Nat.add_le_add_left hInner start) hReach

/-- What the queue still has to offer looks no further than what it had. -/
theorem Looks.behind (h : q.Looks kinds size) (hBehind : q.Behind r) : r.Looks kinds size := by
  induction hBehind with
  | refl => exact h
  | pass _ ih => exact ih.pass
  | enter _ ih => exact ih.enter

/-- A queue over an edited tree offers nothing that was read for further than the end of the new text. -/
theorem Looks.offers (h : q.Looks kinds size) (hResized : Edit.Resized q.edit size length)
    (hLength : length < Offset.bound) : ParseJob.Offers Subtree.reach (length + 1) q := by
  intro r hBehind t ts hAhead hReusable
  have hReach := (h.behind hBehind).reach
  rw [hAhead, reach_cons] at hReach
  have hWide := ((isReusable_iff _ _ _).mp hReusable).2.2.2
  rw [reach_cons, reach_nil, Nat.max_zero]
  exact fits_of_reusable 1 (hBehind.edit ▸ hResized) hLength hReusable (by omega) (le_refl _) (by omega)

end ReuseQueue

section
variable {language : Language} {tree : Tree} {text : ByteArray}

/-- A text that a tree follows has a length that an offset holds. -/
theorem Follows.bounded (h : Follows language tree text) : text.size < Offset.bound := by
  induction h with
  | parse _ _ _ hSize => exact hSize
  | edit _ _ _ hSize => exact hSize
  | reparse _ _ _ _ ih => exact ih

/-- What a run makes of a text if what it may take over has been made like that holds of the root of a tree
and of the text that it was made from, and the edit of the tree leads on from there. -/
theorem Follows.source {P : Subtree → Nat → Prop}
    (hRun : ∀ (p : Parser) (text : ByteArray) (queue : Option ReuseQueue) {limit nextSerial : Nat}
      {made : Subtree × Nat}, p.language = language → text.size < Offset.bound →
      (∀ q, queue = some q → ∃ root size, P root size ∧ q.ahead = root.children ∧ q.start = 0
        ∧ Edit.Resized q.edit size text.size) →
      (p.job text).parseWithin limit queue nextSerial = some made → P made.1 text.size)
    (h : Follows language tree text) : ∃ old : ByteArray, old.size < Offset.bound
      ∧ Edited tree.edit old text ∧ P tree.root old.size := by
  induction h with
  | parse p hLanguage hParse hSize =>
      obtain ⟨made, hMade, rfl⟩ := Parser.runWith_eq_some hParse
      exact ⟨_, hSize, rfl, hRun p _ none hLanguage hSize (by simp) hMade⟩
  | edit h hApply hEdit hSize ih =>
      obtain ⟨old, hOld, hEdited, hRoot⟩ := ih
      exact ⟨old, hOld, hEdited.applyEdit hOld hApply hEdit hSize, (Tree.root_applyEdit hEdit).1 ▸ hRoot⟩
  | @reparse edited tree text h p hLanguage hReparse ih =>
      obtain ⟨old, hOld, hEdited, hRoot⟩ := ih
      obtain ⟨made, hMade, rfl⟩ := Parser.runWith_eq_some (Parser.reparse_eq_ok hReparse).2
      refine ⟨text, h.bounded, rfl, hRun p text _ hLanguage h.bounded (fun q hQueue => ?_) hMade⟩
      obtain rfl := Parser.queueOf_eq_some hQueue
      exact ⟨edited.root, old.size, hRoot, rfl, rfl, hEdited.resized⟩

end
end IncrementalParsing
