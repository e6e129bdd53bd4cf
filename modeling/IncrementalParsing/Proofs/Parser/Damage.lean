import IncrementalParsing.Proofs.Tree.Reports

/-! Damage that stays. What is damaged on the stack stays damaged whatever a parse does next: it may be
taken into another node or skipped with others, but then that node is damaged as well. -/
namespace IncrementalParsing
open Subtree

/-- Where a damaged node is replaced by its children, one of them is damaged. -/
def Subtree.Traced (t : Tables) (u : Subtree) : Prop :=
  t.splices u.kind = true → u.hasError = true → ∃ c ∈ u.children, c.hasError = true

namespace Subtree
variable {t : Tables}

theorem Traced.withField (field : Option FieldId) (u : Subtree) (h : Traced t u) :
    Traced t (u.withField field) := by
  simpa [Traced] using h

/-- Something is left when subtrees are taken apart that all have something in them. -/
theorem unwrapped_ne_nil {opens : Subtree → Bool} (hFilled : ∀ u, opens u = true → u.children ≠ [])
    (ts : List Subtree) (hSome : ts ≠ []) : unwrapped opens ts ≠ [] := by
  induction ts using unwrapped_induction opens with
  | nil => exact absurd rfl hSome
  | opened u ts hOpens ihChildren _ =>
      rw [unwrapped_of_opens hOpens]
      exact List.append_ne_nil_of_left_ne_nil (ihChildren (by simpa using hFilled u hOpens)) _
  | closed u ts hClosed _ =>
      rw [unwrapped_of_not_opens hClosed]
      exact List.cons_ne_nil _ _

/-- Taking hidden nodes apart loses no damage. -/
theorem exists_damaged_unwrapped (ts : List Subtree) (hAll : ∀ u ∈ ts, All (Traced t) u)
    (hDamaged : ∃ u ∈ ts, u.hasError = true) :
    ∃ u ∈ unwrapped (t.isHidden ·.kind) ts, u.hasError = true := by
  induction ts using unwrapped_induction (t.isHidden ·.kind) with
  | nil => simp at hDamaged
  | opened u ts hOpens ihChildren ihRest =>
      rw [unwrapped_of_opens hOpens]
      obtain ⟨v, hMem, hError⟩ := hDamaged
      rcases List.mem_cons.mp hMem with rfl | hMem
      · obtain ⟨c, hChild, hBelow⟩ := (hAll v (by simp)).self (by simp [Tables.splices, hOpens]) hError
        have hChildren : ∀ w ∈ v.children.map (orField v.field), All (Traced t) w := by
          intro w hMap
          obtain ⟨d, hIn, rfl⟩ := List.mem_map.mp hMap
          exact ((hAll v (by simp)).child hIn).withField Traced.withField _
        obtain ⟨w, hFound, hIs⟩ := ihChildren hChildren
          ⟨c.orField v.field, List.mem_map_of_mem hChild, by simpa [orField] using hBelow⟩
        exact ⟨w, List.mem_append_left _ hFound, hIs⟩
      · obtain ⟨w, hFound, hIs⟩ := ihRest (fun w hIn => hAll w (by simp [hIn])) ⟨v, hMem, hError⟩
        exact ⟨w, List.mem_append_right _ hFound, hIs⟩
  | closed u ts hClosed ih =>
      rw [unwrapped_of_not_opens hClosed]
      obtain ⟨v, hMem, hError⟩ := hDamaged
      rcases List.mem_cons.mp hMem with rfl | hMem
      · exact ⟨v, by simp, hError⟩
      · obtain ⟨w, hFound, hIs⟩ := ih (fun w hIn => hAll w (by simp [hIn])) ⟨v, hMem, hError⟩
        exact ⟨w, by simp [hFound], hIs⟩

end Subtree

namespace ParseStack
variable {t : Tables} {s : ParseStack}

/-- Something on a stack is damaged. -/
def Damaged (s : ParseStack) : Prop :=
  s.openError ≠ #[] ∨ ∃ e ∈ s.entries, e.subtree.hasError = true

theorem Damaged.entry (h : s.Damaged) : ∃ e ∈ s.closeError.entries, e.subtree.hasError = true := by
  unfold closeError
  split
  · rename_i hEmpty
    exact h.resolve_left (by simpa using hEmpty)
  · exact ⟨_, List.mem_cons_self, (hasError_branch_iff ..).mpr (.inl rfl)⟩

theorem Damaged.push (h : s.Damaged) (next : StateId) (u : Subtree) : (s.push next u).Damaged := by
  obtain ⟨e, hMem, hError⟩ := h.entry
  exact .inr ⟨e, List.mem_cons_of_mem _ hMem, hError⟩

theorem damaged_push_of_node (s : ParseStack) (next : StateId) {u : Subtree} (hError : u.hasError = true) :
    (s.push next u).Damaged := .inr ⟨_, List.mem_cons_self, hError⟩

/-- What is skipped stays in an open error node. -/
theorem openError_pushSkipped (t : Tables) (s : ParseStack) {pieces : List Subtree} (hSome : pieces ≠ []) :
    (s.pushSkipped t pieces).openError ≠ #[] := by
  have hAdded : ∀ r : ParseStack, (addToError t r pieces).openError ≠ #[] := by
    intro r hNone
    have hLeft := @unwrapped_ne_nil (dissolves t)
      (fun u hOpens => by simp [dissolves, isLeaf] at hOpens; exact hOpens.1) pieces hSome
    simp only [addToError, Array.append_eq_empty_iff, Array.map_eq_empty_iff] at hNone
    exact hLeft (congrArg Array.toList hNone.2)
  exact hAdded _

theorem damaged_pushSkipped (t : Tables) (s : ParseStack) {pieces : List Subtree} (hSome : pieces ≠ []) :
    (s.pushSkipped t pieces).Damaged := .inl (openError_pushSkipped t s hSome)

/-- Putting extra entries back on top loses no damage, neither theirs nor that below. -/
theorem damaged_putBack (trailing : List StackEntry)
    (h : s.Damaged ∨ ∃ e ∈ trailing, e.subtree.hasError = true) :
    (trailing.foldr (fun entry s => s.closeError.pushAside entry.subtree) s).Damaged := by
  induction trailing with
  | nil => simpa using h
  | cons e es ih =>
      rw [List.foldr_cons]
      by_cases hTop : e.subtree.hasError = true
      · exact .inr ⟨_, List.mem_cons_self, hTop⟩
      · have hRest : s.Damaged ∨ ∃ f ∈ es, f.subtree.hasError = true := h.imp_right (by simp [hTop])
        obtain ⟨f, hMem, hError⟩ := (ih hRest).entry
        exact .inr ⟨f, List.mem_cons_of_mem _ hMem, hError⟩

/-- A reduction loses no damage. -/
theorem Damaged.reduce (hAll : ∀ e ∈ s.closeError.entries, All (Traced t) e.subtree) (h : s.Damaged)
    (info : Production) (lookaheadStop : Nat) : (s.reduce t info lookaheadStop).2.Damaged := by
  obtain ⟨e, hMem, hError⟩ := h.entry
  generalize hClosed : s.closeError = r at hAll hMem
  obtain ⟨top, hSplit, hSame⟩ := r.entries_split info.rhs.reverse
  have hTaken : ∀ u ∈ (takeChildren info.rhs.reverse (r.entries.dropWhile (·.extra)) []).1,
      All (Traced t) u := by
    intro u hTaken
    obtain ⟨f, hEntry, field, rfl⟩ := exists_of_mem_takeChildren hTaken
    exact (hAll f ((List.dropWhile_suffix _).subset hEntry)).withField Traced.withField field
  rw [reduce_eq, hClosed]
  dsimp only
  refine damaged_putBack _ ?_
  rw [hSplit] at hMem
  rcases List.mem_append.mp hMem with hMem | hBelow
  · rcases List.mem_append.mp hMem with hAbove | hTop
    · exact .inr ⟨e, hAbove, hError⟩
    · -- The damage goes into the new node.
      obtain ⟨u, hChild, hIs⟩ : ∃ u ∈ (takeChildren info.rhs.reverse (r.entries.dropWhile (·.extra)) []).1,
          u.hasError = true := by
        have hContent : e.subtree.withField none ∈ (content top).map (withField none) :=
          List.mem_map_of_mem (by simpa [content] using ⟨e, hTop, rfl⟩)
        obtain ⟨u, hChild, hNone⟩ := List.mem_map.mp (hSame ▸ hContent)
        refine ⟨u, hChild, ?_⟩
        rw [← hasError_withField none u, hNone, hasError_withField, hError]
      have hNode : (r.reduced t info lookaheadStop).hasError = true := by
        refine (hasError_branch_iff ..).mpr (.inr ?_)
        split
        · exact ⟨u, hChild, hIs⟩
        · exact exists_damaged_unwrapped _ hTaken ⟨u, hChild, hIs⟩
      refine .inl ?_
      split
      · exact damaged_push_of_node _ _ hNode
      · exact damaged_pushSkipped t _ (List.cons_ne_nil _ _)
  · have hBase : (r.uncovered info).Damaged := .inr ⟨e, hBelow, hError⟩
    refine .inl ?_
    split
    · exact hBase.push _ _
    · exact damaged_pushSkipped t _ (List.cons_ne_nil _ _)

/-- Popping nothing loses no damage. -/
theorem Damaged.pop (h : s.Damaged) {depth : Nat} (hNone : (s.pop depth).1 = []) :
    (s.pop depth).2.Damaged := by
  obtain ⟨e, hMem, hError⟩ := h.entry
  obtain ⟨top, hSplit, hPopped⟩ := popEntries_spec depth s.closeError.entries []
  rw [List.append_nil] at hPopped
  have hEmpty : content top = [] := hPopped.symm.trans hNone
  obtain rfl : top = [] := by simpa [content] using hEmpty
  refine .inr ⟨e, ?_, hError⟩
  rw [hSplit] at hMem
  exact hMem

/-- Damage on an accepted stack is damage of the root. -/
theorem Damaged.toRoot (hStart : t.start ≠ errorSymbol)
    (hAll : ∀ e ∈ s.closeError.entries, All (Traced t) e.subtree) (h : s.Damaged) (length : Nat)
    (accepted : Bool) : (s.toRoot t length accepted).1.hasError = true := by
  obtain ⟨e, hMem, hError⟩ := h.entry
  refine (hasError_toRoot hStart length accepted).mpr (.inl ?_)
  rw [children_toRoot]
  have hPieces : ∀ u ∈ s.closeError.rootPieces t, All (Traced t) u := by
    intro u hPiece
    obtain ⟨f, hEntry, hIn⟩ := List.mem_flatMap.mp hPiece
    have hNodes := hAll f (List.mem_reverse.mp hEntry)
    split at hIn
    · exact hNodes.child hIn
    · obtain rfl := List.mem_singleton.mp hIn
      exact hNodes.withField Traced.withField none
  refine exists_damaged_unwrapped _ hPieces ?_
  have hBelow : ∃ u ∈ (if !e.extra && e.subtree.kind == t.start then e.subtree.children
      else [e.subtree.withField none]), u.hasError = true := by
    split
    · rename_i hIs
      exact (hAll e hMem).self (by simp_all [Tables.splices]) hError
    · exact ⟨_, List.mem_singleton_self _, by simpa using hError⟩
  obtain ⟨u, hIn, hIs⟩ := hBelow
  exact ⟨u, List.mem_flatMap.mpr ⟨e, List.mem_reverse.mpr hMem, hIn⟩, hIs⟩

end ParseStack

namespace ParseJob
variable {job : ParseJob} {g : Grammar} {m : Automaton}

/-- Damage of hidden nodes can be traced. -/
theorem upheld_traced (hGenerated : job.tables.Generated g m) (hProper : g.Proper)
    (hTokens : ∀ symbol, job.tables.isErrorToken symbol = true →
      errorSymbol < symbol ∧ job.tables.isTerminal symbol = true) :
    job.Upheld g m fun u => Rooted g u ∧ Traced job.tables u := by
  have hReserved := isTerminal_reserved hGenerated hProper
  have hShown : ∀ {u : Subtree}, job.tables.isTerminal u.kind = true → Traced job.tables u := by
    intro u hTerminal hSplices
    obtain ⟨hPlain, hStart⟩ := hGenerated.splices_of_isTerminal hProper hTerminal
    exact absurd (by simpa [Tables.splices, hPlain] using hSplices) hStart
  refine upheld_beside hGenerated hProper ⟨Traced.withField, ?_⟩ ?_ ?_ ?_
  · exact fun serial state children _ _ => hShown (hReserved errorSymbol (by decide))
  · intro serial position hSplices hError
    have hFlagged := flagged_readAt (fun symbol hIs => (hTokens symbol hIs).1) serial position
    rcases hFlagged.cause hError with hMissing | hInvalid | hIs | hBelow
    · exact absurd ((isMissing_readAt job serial position).symm.trans hMissing) Bool.false_ne_true
    · exact hShown (hTokens _ hInvalid).2 hSplices hError
    · exact hShown (hReserved _ (hIs ▸ by decide)) hSplices hError
    · exact hBelow
  · exact fun serial terminal hMem => hShown (isTerminal_insertable hGenerated hProper hMem)
  · intro s rule info hRule hTaken lookaheadStop hSplices hError
    exact ((hasError_branch_iff ..).mp hError).resolve_left
      (ParseStack.lhs_ne_error hGenerated hProper hRule)

/-- What is damaged stays damaged. -/
theorem damaged_of_move (hUpheld : job.Upheld g m fun u => Rooted g u ∧ Traced job.tables u)
    {s r : ParseState} (hMove : job.Move s r)
    (hLawful : job.Lawful (fun u => Rooted g u ∧ Traced job.tables u) m s) (h : s.stack.Damaged) :
    r.stack.Damaged := by
  cases hMove with
  | note | read | offer | advance | drop | insert => exact h
  | shift t ts next => exact h.push next t
  | reuse t ts next => exact h.push next t
  | reduce t ts rule info lookaheadStop =>
      have hClosed := hLawful.stack.closeError hUpheld.lasting
      exact h.reduce (fun e hMem => (hClosed.entries e hMem).nodes.imp fun _ hNode => hNode.2) _ _
  | skip t ts => exact ParseStack.damaged_pushSkipped _ _ (List.cons_ne_nil _ _)
  | cut depth ts =>
      dsimp only
      split
      · rename_i hNone
        rw [List.isEmpty_iff, List.append_eq_nil_iff] at hNone
        exact h.pop hNone.1
      · rename_i hSome
        exact ParseStack.damaged_pushSkipped _ _ (by simpa using hSome)

theorem damaged_of_moves (hUpheld : job.Upheld g m fun u => Rooted g u ∧ Traced job.tables u)
    {s r : ParseState} (hMoves : job.Moves s r)
    (hLawful : job.Lawful (fun u => Rooted g u ∧ Traced job.tables u) m s) (h : s.stack.Damaged) :
    r.stack.Damaged :=
  (keep_of_moves (P := fun s => job.Lawful (fun u => Rooted g u ∧ Traced job.tables u) m s
      ∧ s.stack.Damaged)
    (fun hMove hBefore => ⟨hBefore.1.move hUpheld hMove,
      damaged_of_move hUpheld hMove hBefore.1 hBefore.2⟩) hMoves ⟨hLawful, h⟩).2

/-- Where a stack was damaged on the way, the root is damaged. -/
theorem hasError_of_damaged (hUpheld : job.Upheld g m fun u => Rooted g u ∧ Traced job.tables u)
    {s r : ParseState} (hLawful : job.Lawful (fun u => Rooted g u ∧ Traced job.tables u) m s)
    (h : s.stack.Damaged) (hMoves : job.Moves s r) {accepted : Bool} {stack : ParseStack}
    (hOutcome : job.Outcome r accepted stack) (length : Nat) :
    (stack.toRoot job.tables length accepted).1.hasError = true := by
  have hStart := (hUpheld.generated.splices_of_isTerminal hUpheld.proper
    hUpheld.isTerminal_errorSymbol).2.symm
  have hEnd := damaged_of_moves hUpheld hMoves hLawful h
  cases hOutcome with
  | accepted t ts =>
      have hClosed := (hLawful.moves hUpheld hMoves).stack.closeError hUpheld.lasting
      exact hEnd.toRoot hStart
        (fun e hMem => (hClosed.entries e hMem).nodes.imp fun _ hNode => hNode.2) _ _
  | abandoned => exact (ParseStack.hasError_toRoot hStart _ _).mpr (.inr rfl)

end ParseJob
end IncrementalParsing
