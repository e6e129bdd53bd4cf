import IncrementalParsing.Proofs.Parser.StackNodes
import IncrementalParsing.Proofs.Subtree.Reach

/-! What lies on the stack of the parser, with how far was read for it. No operation of the stack makes
what it holds wider, and only a reduction has read more, as far as the decision to reduce did. -/
namespace IncrementalParsing
open Subtree

namespace ParseStack
variable {kinds : Kinds} {tables : Tables} {s : ParseStack}

theorem tighter_closeError (s : ParseStack) : Tighter s.closeError.material s.material := by
  by_cases hOpen : s.openError = #[]
  · rw [closeError_of_closed hOpen]
    exact .refl _
  · have hNode : s.closeError.material = content s.entries
        ++ [branch s.nextSerial errorSymbol (some s.state) s.openError.toList 0 false] := by
      rw [material_of_closed openError_closeError, closeError, if_neg (by simpa using hOpen)]
      exact content_cons _ _
    rw [hNode]
    exact (Tighter.refl _).append (tighter_branch ..)

theorem material_pushAside (hOpen : s.openError = #[]) (t : Subtree) :
    (s.pushAside t).material = s.material ++ [t] := by
  rw [material_of_closed hOpen, material_of_closed (s := s.pushAside t) hOpen]
  exact content_cons _ _

/-- Pushing a piece puts it behind the material. -/
theorem tighter_push (s : ParseStack) (next : StateId) (t : Subtree) :
    Tighter (s.push next t).material (s.material ++ [t]) := by
  have hPushed : (s.push next t).material = s.closeError.material ++ [t] := by
    rw [material_of_closed openError_closeError, material_of_closed (s := s.push next t) openError_closeError]
    exact content_cons _ _
  rw [hPushed]
  exact (tighter_closeError s).append (.refl [t])

/-- The pieces of an `ERROR` node are its material, less what was opened. -/
theorem tighter_addToError (tables : Tables) (s : ParseStack) {pieces : List Subtree}
    (hPieces : ∀ t ∈ pieces, All (Measured kinds) t) :
    Tighter (addToError tables s pieces).material (s.material ++ pieces) := by
  have hFound : (addToError tables s pieces).material
      = s.material ++ (unwrapped (dissolves tables) pieces).map (withField none) := by
    simp [material, addToError, unwrapped]
  rw [hFound]
  exact (Tighter.refl _).append ((tighter_map_withField none _).trans (tighter_unwrapped pieces hPieces))

/-- What is skipped is material, less what was opened. -/
theorem tighter_pushSkipped (tables : Tables) (h : s.Sound kinds) {pieces : List Subtree}
    (hPieces : ∀ t ∈ pieces, All (Measured kinds) t) :
    Tighter (s.pushSkipped tables pieces).material (s.material ++ pieces) := by
  unfold pushSkipped
  cases hOpen : s.openError.isEmpty with
  | false => exact tighter_addToError tables s hPieces
  | true =>
      have hNone : s.openError = #[] := Array.isEmpty_iff.mp hOpen
      simp only [if_true]
      split
      · rename_i entry entries hEntries
        split
        · -- The error node on top is opened again.
          let lower : ParseStack := { s with entries, openStop := topStop entries }
          have hTop : lower.material ++ [entry.subtree] = s.material := by
            rw [material_of_closed hNone, material_of_closed (s := lower) hNone, hEntries, content_cons]
          have hEntry := (h.entries entry (by simp [hEntries])).1
          have hPiece : ∀ t ∈ [entry.subtree], All (Measured kinds) t := by simpa using hEntry
          have hOpened := tighter_addToError tables lower hPiece
          rw [hTop] at hOpened
          exact (tighter_addToError tables _ hPieces).trans (hOpened.append (.refl pieces))
        · exact tighter_addToError tables { s with openStop := entry.stop } hPieces
      · exact tighter_addToError tables { s with openStop := 0 } hPieces

/-- Popped pieces and what is left are the material together. -/
theorem material_pop (s : ParseStack) (depth : Nat) :
    (s.pop depth).2.material ++ (s.pop depth).1 = s.closeError.material := by
  obtain ⟨top, hSplit, hPopped⟩ := popEntries_spec depth s.closeError.entries []
  have hPieces : (s.pop depth).1 = content top := by simpa [pop] using hPopped
  rw [material_of_closed openError_closeError,
    material_of_closed (s := (s.pop depth).2) openError_closeError, hPieces,
    hSplit, content_append]
  rfl

theorem material_popAll (s : ParseStack) : s.popAll.2.material ++ s.popAll.1 = s.closeError.material := by
  rw [material_of_closed openError_closeError, material_of_closed (s := s.popAll.2) openError_closeError]
  rfl

/-- Entries that are put back are material again. -/
theorem tighter_putBack (s : ParseStack) (trailing : List StackEntry) :
    Tighter (trailing.foldr (fun entry s => s.closeError.pushAside entry.subtree) s).material
      (s.material ++ content trailing) := by
  induction trailing with
  | nil => simpa using Tighter.refl s.material
  | cons e es ih =>
      rw [List.foldr_cons, material_pushAside openError_closeError, content_cons, ← List.append_assoc]
      exact ((tighter_closeError _).trans ih).append (.refl _)

section Reduce
variable (rule : Production) (lookaheadStop : Nat)

/-- What a closed stack holds: what a reduction leaves, what it takes off, and the extra entries on top. -/
theorem material_uncovered (hOpen : s.openError = #[]) : ∃ taken,
    s.material = (s.uncovered rule).material ++ taken ++ content (s.entries.takeWhile (·.extra))
      ∧ Tighter (takeChildren rule.rhs.reverse (s.entries.dropWhile (·.extra)) []).1 taken := by
  obtain ⟨top, hSplit, hSame⟩ := s.entries_split rule.rhs.reverse
  refine ⟨content top, ?_, .of_same hSame⟩
  rw [material_of_closed hOpen, material_of_closed (s := s.uncovered rule) hOpen, List.append_assoc,
    ← content_append]
  exact (congrArg content hSplit).trans (content_append _ _)

/-- The node of a reduction takes up no more than what the reduction takes off the stack, but for what
was read to decide on it. -/
theorem reach_reduced (h : s.Sound kinds) :
    width [s.reduced tables rule lookaheadStop]
        ≤ width (takeChildren rule.rhs.reverse (s.entries.dropWhile (·.extra)) []).1
      ∧ reach [s.reduced tables rule lookaheadStop]
        ≤ max (reach (takeChildren rule.rhs.reverse (s.entries.dropWhile (·.extra)) []).1)
          (lookaheadStop - topStop (s.uncovered rule).entries) := by
  have hTaken := h.taken rule.rhs.reverse
  generalize hChildren :
    (takeChildren rule.rhs.reverse (s.entries.dropWhile (·.extra)) []).1 = taken at hTaken ⊢
  have hTighter : Tighter (if tables.isHidden rule.lhs then taken else unwrapped (tables.isHidden ·.kind) taken)
      taken := by
    split
    · exact .refl taken
    · exact tighter_unwrapped taken fun t hMem => (hTaken t hMem).1
  rw [reduced, hChildren, width_cons, total_branch, reach_branch]
  exact ⟨hTighter.width,
    Nat.max_le.mpr ⟨Nat.le_trans hTighter.reach (Nat.le_max_left _ _), Nat.le_max_right _ _⟩⟩

/-- The stack below a reduction is sound. -/
theorem sound_uncovered (h : s.Sound kinds) (hOpen : s.openError = #[]) : (s.uncovered rule).Sound kinds := by
  obtain ⟨top, hSplit, -⟩ := s.entries_split rule.rhs.reverse
  obtain ⟨hSound, -, -⟩ := sound_withEntries h hOpen hSplit
  exact ⟨hSound.stacked, hSound.openStop, hSound.entries, hSound.opened⟩

/-- If the node of a reduction is measured, the stack stays as it should be. -/
theorem sound_reduce_of_measured (h : s.Sound kinds)
    (hNode : All (Measured kinds) (s.closeError.reduced tables rule lookaheadStop)) :
    (s.reduce tables rule lookaheadStop).2.Sound kinds := by
  obtain ⟨hClosed, -, hOpen⟩ := sound_closeError h
  have hBase := sound_uncovered rule hClosed hOpen
  rw [reduce_eq]
  refine (sound_putBack ?_ _ fun e hMem => hClosed.entries e (List.takeWhile_subset _ hMem)).1
  split
  · exact (sound_push hBase _ hNode (plain_branch _ _ _ _ _ _)).1
  · exact (sound_pushSkipped tables hBase (by simpa using hNode)).1

/-- After a reduction the stack holds the new node on top of what the reduction leaves, and the extra
entries again. -/
theorem tighter_reduce (h : s.Sound kinds)
    (hNode : All (Measured kinds) (s.closeError.reduced tables rule lookaheadStop)) :
    Tighter (s.reduce tables rule lookaheadStop).2.material ((s.closeError.uncovered rule).material
      ++ [s.closeError.reduced tables rule lookaheadStop]
      ++ content (s.closeError.entries.takeWhile (·.extra))) := by
  rw [reduce_eq]
  refine (tighter_putBack _ _).trans (Tighter.append ?_ (.refl _))
  split
  · exact tighter_push ..
  · exact tighter_pushSkipped tables (sound_uncovered rule (sound_closeError h).1 openError_closeError)
      (by simpa using hNode)

/-- A reduction makes nothing wider, and has read no further than before or than its decision did. -/
theorem reach_reduce (h : s.Sound kinds)
    (hNode : All (Measured kinds) (s.closeError.reduced tables rule lookaheadStop)) :
    width (s.reduce tables rule lookaheadStop).2.material ≤ width s.material
      ∧ reach (s.reduce tables rule lookaheadStop).2.material ≤ max (reach s.material) lookaheadStop := by
  have hClosed := (sound_closeError h).1
  obtain ⟨hWide, hFar⟩ := @reach_reduced kinds tables _ rule lookaheadStop hClosed
  obtain ⟨taken, hHeld, hWidth, hReach⟩ := @material_uncovered s.closeError rule openError_closeError
  have hBelow : topStop (s.closeError.uncovered rule).entries
      = width (s.closeError.uncovered rule).material := by
    rw [material_of_closed (s := s.closeError.uncovered rule) openError_closeError]
    exact topStop_eq (sound_uncovered rule hClosed openError_closeError).stacked
  rw [hBelow] at hFar
  obtain ⟨hWidths, hReaches⟩ := tighter_closeError s
  obtain ⟨hDone, hSeen⟩ := tighter_reduce rule lookaheadStop h hNode
  rw [hHeld] at hWidths hReaches
  rw [width_append, width_append] at hWidths hDone
  rw [reach_append, reach_append, width_append] at hReaches hSeen
  exact ⟨by omega, by omega⟩

end Reduce

/-- The root holds what the stack does. -/
theorem tighter_toRoot (tables : Tables) (h : s.Sound kinds) (length : Nat) (accepted : Bool) :
    (∀ u ∈ (s.toRoot tables length accepted).1.children, All (Measured kinds) u)
      ∧ Tighter (s.toRoot tables length accepted).1.children s.material := by
  have hPieces : ∀ es : List StackEntry, (∀ e ∈ es, All (Measured kinds) e.subtree) →
      (∀ u ∈ es.reverse.flatMap fun entry =>
          if !entry.extra && entry.subtree.kind == tables.start then entry.subtree.children
          else [entry.subtree.withField none], All (Measured kinds) u)
        ∧ Tighter (es.reverse.flatMap fun entry =>
          if !entry.extra && entry.subtree.kind == tables.start then entry.subtree.children
          else [entry.subtree.withField none]) (content es) := by
    intro es hAll
    induction es with
    | nil => exact ⟨by simp, .refl []⟩
    | cons e es ih =>
        obtain ⟨hMeasured, hTighter⟩ := ih fun f hMem => hAll f (by simp [hMem])
        have hEntry := hAll e (by simp)
        rw [List.reverse_cons, List.flatMap_append, List.flatMap_cons, List.flatMap_nil, List.append_nil,
          content_cons]
        split
        · refine ⟨fun u hMem => ?_, hTighter.append hEntry.self.tighter_children⟩
          rcases List.mem_append.mp hMem with hMem | hMem
          · exact hMeasured u hMem
          · exact hEntry.child hMem
        · refine ⟨fun u hMem => ?_, hTighter.append (tighter_map_withField none [e.subtree])⟩
          rcases List.mem_append.mp hMem with hMem | hMem
          · exact hMeasured u hMem
          · obtain rfl := List.mem_singleton.mp hMem
            exact hEntry.withField Measured.withField _
  obtain ⟨hMeasured, hTighter⟩ :=
    hPieces s.closeError.entries fun e hMem => ((sound_closeError h).1.entries e hMem).1
  rw [children_toRoot]
  refine ⟨forall_all_unwrapped Measured.withField _ hMeasured, (tighter_unwrapped _ hMeasured).trans ?_⟩
  refine hTighter.trans ?_
  rw [← material_of_closed openError_closeError]
  exact tighter_closeError s

end ParseStack
end IncrementalParsing
