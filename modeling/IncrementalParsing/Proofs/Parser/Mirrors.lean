import IncrementalParsing.Proofs.Parser.StackNodes
import IncrementalParsing.Proofs.Parser.Steady
import IncrementalParsing.Proofs.Subtree.Shape

/-! Stacks that show the same above some of their entries. As long as the entries above are all that is
taken off, what is done to one of them and to the other leaves stacks that show the same again. -/
namespace IncrementalParsing
open Subtree

/-- What an entry shows apart from where it stands and from the numbers of its nodes. -/
def StackEntry.face (e : StackEntry) : StateId × Bool × Subtree := (e.state, e.extra, e.subtree.shape)

namespace ParseStack
open StackEntry
variable {t : Tables} {base other top top' es fs : List StackEntry} {s r : ParseStack}

/-- Above two lists of entries that lead to the same state, two stacks show the same. Recovery has decided
on none of the entries above. -/
structure Mirrors (base other : List StackEntry) (s r : ParseStack) : Prop where
  entries : ∃ top top', s.entries = top ++ base ∧ r.entries = top' ++ other
    ∧ top'.map face = top.map face
  opened : r.openError.toList.map shape = s.openError.toList.map shape
  states : topState other = topState base
  level : s.decidedLevel ≤ topLevel base
  level' : r.decidedLevel ≤ topLevel other

/-- An entry that counts is on top of others, with nothing but extra entries above. -/
structure Tops (s : ParseStack) (entry : StackEntry) (below : List StackEntry) : Prop where
  opened : s.openError = #[]
  entries : ∃ trailing, s.entries = trailing ++ entry :: below ∧ (∀ e ∈ trailing, e.extra = true)
    ∧ entry.extra = false

theorem topState_of_faces (hFaces : top'.map face = top.map face)
    (hStates : topState other = topState base) :
    topState (top' ++ other) = topState (top ++ base) := by
  cases top with
  | nil =>
      obtain rfl : top' = [] := by simpa using hFaces
      exact hStates
  | cons e es =>
      cases top' with
      | nil => simp at hFaces
      | cons e' es' => exact congrArg (·.1) (List.cons.inj hFaces).1

/-- Entries with the same faces have content of the same shapes. -/
theorem content_of_faces (hFaces : top'.map face = top.map face) :
    (content top').map shape = (content top).map shape := by
  have hShapes := congrArg (List.map (·.2.2)) hFaces
  simp only [List.map_map] at hShapes
  simp only [content, List.map_reverse, List.map_map]
  exact congrArg List.reverse hShapes

/-- The extra entries on top are as many, with the same faces. -/
theorem takeWhile_of_faces (hFaces : top'.map face = top.map face) :
    (top'.takeWhile (·.extra)).map face = (top.takeWhile (·.extra)).map face := by
  have hMap : ∀ l : List StackEntry, (l.takeWhile (·.extra)).map face = (l.map face).takeWhile (·.2.1) :=
    fun l => by rw [List.takeWhile_map]; rfl
  rw [hMap, hMap, hFaces]

theorem dropWhile_of_faces (hFaces : top'.map face = top.map face) :
    (top'.dropWhile (·.extra)).map face = (top.dropWhile (·.extra)).map face := by
  have hMap : ∀ l : List StackEntry, (l.dropWhile (·.extra)).map face = (l.map face).dropWhile (·.2.1) :=
    fun l => by rw [List.dropWhile_map]; rfl
  rw [hMap, hMap, hFaces]

/-- What is taken off entries that show the same shows the same, and so does what is left. -/
theorem takeChildren_of_faces (slots : List Slot) {taken taken' : List Subtree}
    (hFaces : top'.map face = top.map face) (hTaken : taken'.map shape = taken.map shape) :
    (takeChildren slots top' taken').1.map shape = (takeChildren slots top taken).1.map shape
      ∧ (takeChildren slots top' taken').2.map face = (takeChildren slots top taken).2.map face := by
  induction top generalizing slots top' taken taken' with
  | nil =>
      obtain rfl : top' = [] := by simpa using hFaces
      cases slots <;> exact ⟨hTaken, rfl⟩
  | cons e es ih =>
      cases top' with
      | nil => simp at hFaces
      | cons e' es' =>
          obtain ⟨hHead, hTail⟩ := List.cons.inj hFaces
          have hExtra : e'.extra = e.extra := congrArg (·.2.1) hHead
          have hShape : e'.subtree.shape = e.subtree.shape := congrArg (·.2.2) hHead
          cases slots with
          | nil => exact ⟨hTaken, hFaces⟩
          | cons slot slots =>
              rw [takeChildren, takeChildren, hExtra]
              split <;> exact ih _ hTail (by simp [shape_withField, hShape, hTaken])

/-- Stacks with the same faces are as many steps high. -/
theorem length_steps_of_faces (hFaces : top'.map face = top.map face) :
    (steps top').length = (steps top).length := by
  have hCount : ∀ l : List StackEntry, (steps l).length
      = ((l.map face).filter fun shown => !shown.2.1).length := by
    intro l
    rw [steps, List.length_map, List.filter_map, List.length_map]
    rfl
  rw [hCount, hCount, hFaces]

/-- Reductions that take what shows the same make nodes that show the same, if recovery has decided on
nothing above what they leave. -/
theorem shape_reduced {info : Production}
    (hTaken : (takeChildren info.rhs.reverse (r.entries.dropWhile (·.extra)) []).1.map shape
      = (takeChildren info.rhs.reverse (s.entries.dropWhile (·.extra)) []).1.map shape)
    (hState : (r.uncovered info).state = (s.uncovered info).state)
    (hLevel : s.decidedLevel ≤ topLevel (s.uncovered info).entries)
    (hLevel' : r.decidedLevel ≤ topLevel (r.uncovered info).entries) (stop stop' : Nat) :
    (r.reduced t info stop').shape = (s.reduced t info stop).shape := by
  have hFragile := any_of_shapes isFragile_shape hTaken
  rw [state, state] at hState
  simp only [uncovered, withEntries] at hState hLevel hLevel'
  unfold reduced
  dsimp only
  simp only [hState, hFragile, Nat.not_lt.mpr hLevel, Nat.not_lt.mpr hLevel', decide_false, Bool.false_or]
  refine shape_branch ?_ _ _ _ _
  split
  · exact hTaken
  · exact unwrapped_of_shapes (fun u => by rw [kind_shape]) hTaken

/-- As long as there are enough entries that count, those below them do not matter. -/
theorem takeChildren_above (slots : List Slot) (base : List StackEntry) (taken : List Subtree)
    (hEnough : slots.length ≤ (steps top).length) :
    takeChildren slots (top ++ base) taken
      = ((takeChildren slots top taken).1, (takeChildren slots top taken).2 ++ base) := by
  induction top generalizing slots taken with
  | nil =>
      obtain rfl : slots = [] := by simpa using hEnough
      cases base <;> rfl
  | cons e es ih =>
      cases slots with
      | nil => rfl
      | cons slot slots =>
          rw [List.cons_append, takeChildren, takeChildren]
          cases hExtra : e.extra with
          | true =>
              rw [steps_cons_of_extra hExtra] at hEnough
              exact ih _ _ hEnough
          | false =>
              rw [steps_cons_of_not_extra hExtra] at hEnough
              exact ih _ _ (Nat.le_of_succ_le_succ hEnough)

theorem steps_append (es fs : List StackEntry) : steps (es ++ fs) = steps es ++ steps fs := by
  simp [steps]

/-- Where an entry counts, what is below it stays when extra entries are taken off. -/
theorem dropWhile_extra_append (hSome : steps top ≠ []) (base : List StackEntry) :
    (top ++ base).dropWhile (·.extra) = top.dropWhile (·.extra) ++ base := by
  rw [List.dropWhile_append, if_neg]
  rw [← steps_dropWhile_extra] at hSome
  exact fun hNone => hSome (by rw [List.isEmpty_iff.mp hNone, steps_nil])

theorem takeWhile_extra_append (hSome : steps top ≠ []) (base : List StackEntry) :
    (top ++ base).takeWhile (·.extra) = top.takeWhile (·.extra) := by
  rw [List.takeWhile_append, if_neg]
  intro hLength
  rw [← steps_dropWhile_extra] at hSome
  have hSplit := congrArg List.length (List.takeWhile_append_dropWhile (p := (·.extra)) (l := top))
  rw [List.length_append, hLength, Nat.add_eq_left, List.length_eq_zero_iff] at hSplit
  exact hSome (by rw [hSplit, steps_nil])

/-- A reduction that finds all its children above some entries does not see these. -/
theorem takeChildren_extra_append (hSome : steps top ≠ []) {slots : List Slot}
    (hEnough : slots.length ≤ (steps top).length) (base : List StackEntry) :
    takeChildren slots ((top ++ base).dropWhile (·.extra)) []
      = ((takeChildren slots (top.dropWhile (·.extra)) []).1,
        (takeChildren slots (top.dropWhile (·.extra)) []).2 ++ base) := by
  rw [dropWhile_extra_append hSome]
  exact takeChildren_above _ _ _ (by rwa [steps_dropWhile_extra])

theorem topLevel_le_append (hStacked : Stacked (es ++ fs)) : topLevel fs ≤ topLevel (es ++ fs) := by
  induction es with
  | nil => exact Nat.le_refl _
  | cons e es ih =>
      rw [List.cons_append, topLevel_cons, hStacked.1.2]
      exact Nat.le_succ_of_le (ih hStacked.2)

/-- What a reduction leaves is no lower than what it does not see. -/
theorem topLevel_le_uncovered {info : Production} (hStacked : Stacked s.entries)
    (hLeft : (s.uncovered info).entries = top ++ base) :
    topLevel base ≤ topLevel (s.uncovered info).entries := by
  obtain ⟨above, hSplit, -⟩ := s.entries_split info.rhs.reverse
  have hBelow : Stacked (s.uncovered info).entries := stacked_of_suffix (hSplit ▸ hStacked)
  rw [hLeft] at hBelow ⊢
  exact topLevel_le_append hBelow

section Mirrors
variable (h : Mirrors base other s r)
include h

theorem Mirrors.state_eq : r.state = s.state := by
  obtain ⟨top, top', hTop, hTop', hFaces⟩ := h.entries
  rw [state, state, hTop, hTop', topState_of_faces hFaces h.states]

theorem Mirrors.isEmpty_openError : r.openError.isEmpty = s.openError.isEmpty := by
  have hLength := congrArg List.length h.opened
  simp only [List.length_map, Array.length_toList] at hLength
  simp only [Array.isEmpty, hLength]

/-- An entry on top of both. -/
theorem Mirrors.stacked {u u' : Subtree} (hShape : u'.shape = u.shape) {state state' : StateId}
    (hState : state' = state) (extra : Bool) (nextSerial nextSerial' : Nat) :
    Mirrors base other
      { s with entries := ParseStack.stacked s.entries state u extra, nextSerial }
      { r with entries := ParseStack.stacked r.entries state' u' extra, nextSerial := nextSerial' } := by
  obtain ⟨top, top', hTop, hTop', hFaces⟩ := h.entries
  refine ⟨⟨_ :: top, _ :: top', congrArg (_ :: ·) hTop, congrArg (_ :: ·) hTop', ?_⟩, h.opened, h.states,
    h.level, h.level'⟩
  rw [List.map_cons, List.map_cons, hFaces]
  exact congrArg (· :: _) (by simp [face, hShape, hState])

/-- Closing error nodes on both stacks keeps them mirrors of each other. -/
theorem Mirrors.closeError : Mirrors base other s.closeError r.closeError := by
  unfold ParseStack.closeError
  rw [h.isEmpty_openError]
  split
  · exact h
  · have hBare : Mirrors base other { s with openError := #[] } { r with openError := #[] } :=
      ⟨h.entries, rfl, h.states, h.level, h.level'⟩
    have hNode : (branch r.nextSerial errorSymbol (some r.state) r.openError.toList 0 false).shape
        = (branch s.nextSerial errorSymbol (some s.state) s.openError.toList 0 false).shape := by
      rw [h.state_eq]
      exact shape_branch h.opened _ _ _ _
    exact hBare.stacked hNode h.state_eq true _ _

/-- So does pushing subtrees of one shape. -/
theorem Mirrors.push {u u' : Subtree} (hShape : u'.shape = u.shape) (next : StateId) :
    Mirrors base other (s.push next u) (r.push next u') :=
  h.closeError.stacked hShape rfl false _ _

theorem Mirrors.aside {u u' : Subtree} (hShape : u'.shape = u.shape) :
    Mirrors base other (s.closeError.pushAside u) (r.closeError.pushAside u') :=
  h.closeError.stacked hShape h.closeError.state_eq true _ _

theorem Mirrors.withSerial (nextSerial nextSerial' : Nat) :
    Mirrors base other { s with nextSerial } { r with nextSerial := nextSerial' } :=
  ⟨h.entries, h.opened, h.states, h.level, h.level'⟩

/-- So does skipping such subtrees. -/
theorem Mirrors.addToError {pieces pieces' : List Subtree}
    (hShapes : pieces'.map shape = pieces.map shape) :
    Mirrors base other (addToError t s pieces) (addToError t r pieces') := by
  have hFound := unwrapped_of_shapes (fun u => (by simp [dissolves] : dissolves t u.shape = dissolves t u))
    hShapes
  have hMade : ∀ us, (Subtree.unwrap (dissolves t) us #[]).toList = unwrapped (dissolves t) us :=
    fun _ => rfl
  refine ⟨h.entries, ?_, h.states, h.level, h.level'⟩
  simp only [ParseStack.addToError, Array.toList_append, Array.toList_map, hMade]
  rw [List.map_append, List.map_append, map_shape_withField, map_shape_withField, h.opened, hFound]

/-- Skipped input on top of both, where there is an entry above. -/
theorem Mirrors.pushSkipped {pieces pieces' : List Subtree} (hAbove : s.entries ≠ base)
    (hShapes : pieces'.map shape = pieces.map shape) :
    Mirrors base other (s.pushSkipped t pieces) (r.pushSkipped t pieces') := by
  unfold ParseStack.pushSkipped
  rw [h.isEmpty_openError]
  split
  · obtain ⟨top, top', hTop, hTop', hFaces⟩ := h.entries
    cases top with
    | nil => exact absurd hTop hAbove
    | cons e es =>
        cases top' with
        | nil => simp at hFaces
        | cons e' es' =>
            obtain ⟨hHead, hTail⟩ := List.cons.inj hFaces
            have hExtra : e'.extra = e.extra := congrArg (·.2.1) hHead
            have hShape : e'.subtree.shape = e.subtree.shape := congrArg (·.2.2) hHead
            have hKind : e'.subtree.kind = e.subtree.kind := kind_of_shape hShape
            rw [List.cons_append] at hTop hTop'
            simp only [hTop, hTop', hExtra, hKind]
            split
            · have hLower : Mirrors base other
                  { s with entries := es ++ base, openStop := topStop (es ++ base) }
                  { r with entries := es' ++ other, openStop := topStop (es' ++ other) } :=
                ⟨⟨es, es', rfl, rfl, hTail⟩, h.opened, h.states, h.level, h.level'⟩
              exact (hLower.addToError (by simp [hShape])).addToError hShapes
            · have hSame : Mirrors base other { s with entries := e :: (es ++ base), openStop := e.stop }
                  { r with entries := e' :: (es' ++ other), openStop := e'.stop } :=
                ⟨⟨e :: es, e' :: es', rfl, rfl, hFaces⟩, h.opened, h.states, h.level, h.level'⟩
              exact hSame.addToError hShapes
  · exact h.addToError hShapes

theorem Mirrors.putBack (hFaces : fs.map face = es.map face) :
    Mirrors base other (es.foldr (fun entry s => s.closeError.pushAside entry.subtree) s)
      (fs.foldr (fun entry s => s.closeError.pushAside entry.subtree) r) := by
  induction es generalizing fs with
  | nil =>
      obtain rfl : fs = [] := by simpa using hFaces
      exact h
  | cons e es ih =>
      cases fs with
      | nil => simp at hFaces
      | cons f fs =>
          obtain ⟨hHead, hTail⟩ := List.cons.inj hFaces
          exact (ih hTail).aside (congrArg (·.2.2) hHead)

/-- A reduction that takes only entries above leaves stacks that show the same, and makes nodes that do. -/
theorem Mirrors.uncovered {info : Production} (hSome : (steps base).length < (steps s.entries).length)
    (hEnough : (steps base).length + info.rhs.length ≤ (steps s.entries).length)
    (hStacked : Stacked s.entries) (hStacked' : Stacked r.entries) (stop stop' : Nat) :
    Mirrors base other (s.uncovered info) (r.uncovered info)
      ∧ (r.reduced t info stop').shape = (s.reduced t info stop).shape := by
  obtain ⟨top, top', hTop, hTop', hFaces⟩ := h.entries
  have hSteps := length_steps_of_faces hFaces
  rw [hTop, steps_append, List.length_append] at hSome hEnough
  have hCounts : steps top ≠ [] := List.length_pos_iff.mp (by omega)
  have hCounts' : steps top' ≠ [] := List.length_pos_iff.mp (by omega)
  have hSlots : info.rhs.reverse.length ≤ (steps top).length := by
    rw [List.length_reverse]
    omega
  obtain ⟨hTaken, hLeft⟩ := @takeChildren_of_faces _ _ info.rhs.reverse [] [] (dropWhile_of_faces hFaces) rfl
  have hAbove := takeChildren_extra_append hCounts hSlots base
  have hAbove' := takeChildren_extra_append hCounts' (hSlots.trans_eq hSteps.symm) other
  rw [← hTop] at hAbove
  rw [← hTop'] at hAbove'
  have hBase : Mirrors base other (s.uncovered info) (r.uncovered info) :=
    ⟨⟨_, _, congrArg Prod.snd hAbove, congrArg Prod.snd hAbove', hLeft⟩, h.opened, h.states,
      (Nat.min_le_left _ _).trans h.level, (Nat.min_le_left _ _).trans h.level'⟩
  refine ⟨hBase, shape_reduced ?_ hBase.state_eq ?_ ?_ stop stop'⟩
  · rw [hAbove, hAbove']
    exact hTaken
  · exact h.level.trans (topLevel_le_uncovered hStacked (congrArg Prod.snd hAbove))
  · exact h.level'.trans (topLevel_le_uncovered hStacked' (congrArg Prod.snd hAbove'))

theorem Mirrors.reduce {kinds kinds' : Kinds} {info : Production}
    (hSome : (steps base).length < (steps s.entries).length)
    (hEnough : (steps base).length + info.rhs.length ≤ (steps s.entries).length)
    (hSound : s.Sound kinds) (hSound' : r.Sound kinds') (stop stop' : Nat)
    (hReduced : (s.reduce t info stop).1 = true) :
    Mirrors base other (s.reduce t info stop).2 (r.reduce t info stop').2 := by
  have hClosed := h.closeError
  obtain ⟨top, top', hTop, hTop', hFaces⟩ := hClosed.entries
  have hCounts : steps top ≠ [] := by
    rw [← steps_closeError, hTop, steps_append, List.length_append] at hSome
    exact List.length_pos_iff.mp (by omega)
  have hCounts' : steps top' ≠ [] := by
    rwa [← List.length_pos_iff, length_steps_of_faces hFaces, List.length_pos_iff]
  rw [← steps_closeError] at hSome hEnough
  obtain ⟨hBase, hNode⟩ := hClosed.uncovered (t := t) hSome hEnough (sound_closeError hSound).1.stacked
    (sound_closeError hSound').1.stacked stop stop'
  rw [reduce_eq] at hReduced
  rw [reduce_eq, reduce_eq]
  dsimp only at hReduced ⊢
  rw [hBase.state_eq, hTop, hTop', takeWhile_extra_append hCounts, takeWhile_extra_append hCounts']
  split
  · exact (hBase.push hNode _).putBack (takeWhile_of_faces hFaces)
  · rename_i hGoto
    simp [hGoto] at hReduced

/-- Where the next token starts, counted from the entries below. -/
theorem Mirrors.exists_stop {kinds kinds' : Kinds} (hSound : s.Sound kinds) (hSound' : r.Sound kinds') :
    ∃ w, s.stop = topStop base + w ∧ r.stop = topStop other + w := by
  obtain ⟨top, top', hTop, hTop', hFaces⟩ := h.entries
  have hStop : ∀ {kinds : Kinds} {u : ParseStack} {es fs : List StackEntry}, u.Sound kinds →
      u.entries = es ++ fs → u.stop = topStop fs + (width (content es) + width u.openError.toList) := by
    intro kinds u es fs hSound hEntries
    have hBase : Stacked fs := stacked_of_suffix (hEntries ▸ hSound.stacked)
    rw [hSound.stop_eq_width, material, hEntries, content_append, width_append, width_append,
      ← topStop_eq hBase, Nat.add_assoc]
  have hOver : width (content top') = width (content top) := by
    rw [← width_map_shape, content_of_faces hFaces, width_map_shape]
  have hOpen : width r.openError.toList = width s.openError.toList := by
    rw [← width_map_shape, h.opened, width_map_shape]
  exact ⟨_, hStop hSound hTop, by rw [hStop hSound' hTop', hOver, hOpen]⟩

/-- An entry on top of the entries below is on top of them in both. -/
theorem Mirrors.tops {e : StackEntry} (hTops : s.Tops e base) :
    ∃ e', r.Tops e' other ∧ e'.face = e.face := by
  obtain ⟨top, top', hTop, hTop', hFaces⟩ := h.entries
  obtain ⟨trailing, hEntries, hExtra, hCounts⟩ := hTops.entries
  obtain rfl : top = trailing ++ [e] := by
    rw [hTop, List.append_cons] at hEntries
    exact List.append_cancel_right hEntries
  rw [List.map_append] at hFaces
  obtain ⟨aside, single, rfl, hAside, hSingle⟩ := List.map_eq_append_iff.mp hFaces
  obtain ⟨e', rest, rfl, hFace, hRest⟩ := List.map_eq_cons_iff.mp hSingle
  obtain rfl := List.map_eq_nil_iff.mp hRest
  refine ⟨e', ⟨?_, aside, by rw [hTop', List.append_assoc]; rfl, fun f hMem => ?_, ?_⟩, hFace⟩
  · rw [← Array.isEmpty_iff, h.isEmpty_openError, hTops.opened]
    rfl
  · obtain ⟨f', hMem', hSame⟩ := List.mem_map.mp (hAside ▸ List.mem_map_of_mem hMem)
    exact (congrArg (·.2.1) hSame).symm.trans (hExtra f' hMem')
  · exact (congrArg (·.2.1) hFace).trans hCounts

end Mirrors
end ParseStack
end IncrementalParsing
