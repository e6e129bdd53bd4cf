import IncrementalParsing.Proofs.Automaton.Following
import IncrementalParsing.Proofs.Tables.Progress

/-! How a cell of the tables gets its action. Everything that is done to a cell while its row is built
is a fold over the complete items of the state, and where only one action is considered it is the one
that stands in the cell. -/
namespace IncrementalParsing

/-- The action that a complete item asks for at a terminal. -/
def Grammar.candidate? (g : Grammar) (terminal : Nat) (entry : LookaheadItem) : Option Action :=
  if entry.2.contains terminal then
    if entry.1.rule = g.rules.size then if terminal = endSymbol then some .accept else none
    else some (.reduce (cellRule entry.1.rule))
  else none

/-- What a complete item does to the cell of a terminal. The second part tells whether the cell is
barred. -/
def Grammar.contest (g : Grammar) (terminal : Nat) (cell : Action × Bool) (entry : LookaheadItem) :
    Action × Bool :=
  match g.candidate? terminal entry with
  | some (.reduce rule) =>
      if cell.2 then cell
      else (g.arbitrate terminal cell.1 rule, g.arbitrate terminal cell.1 rule = .error)
  | some action => (action, cell.2)
  | none => cell

/-- The actions that the construction considers for a cell: the shift of the state, and what its
complete items ask for. -/
def Automaton.candidates (m : Automaton) (g : Grammar) (state : StateId) (terminal : Nat) :
    List Action :=
  [(m.shifts g state).getD terminal .error].filter (· ≠ .error)
    ++ (m.completions (.ofGrammar g) m.offsets (m.lookaheads (.ofGrammar g)) state).filterMap
        (g.candidate? terminal)

/-- The construction of the tables never meets a cell with two different candidates. -/
def Grammar.ConflictFree (g : Grammar) : Prop :=
  ∀ m, Automaton.ofGrammar (.ofGrammar g) = .ok m → ∀ state < m.kernels.size,
    ∀ terminal < g.terminalCount, ∀ one ∈ m.candidates g state terminal,
      ∀ other ∈ m.candidates g state terminal, one = other

namespace ActionRow
variable {g : Grammar}

/-- One cell of a row, and whether it is barred. -/
def cell (row : ActionRow) (terminal : Nat) : Action × Bool :=
  (row.actions.getD terminal .error, row.barred.contains terminal)

theorem cell_reduce_of_ne {rule : RuleId} {row : ActionRow} {terminal other : Nat}
    (hOther : other ≠ terminal) : (row.reduce g rule other).cell terminal = row.cell terminal := by
  unfold reduce cell
  split
  · rfl
  · have hBarred : ∀ action : Action,
        (if action = .error then row.barred.insert other else row.barred).contains terminal
          = row.barred.contains terminal := by
      intro action
      split
      · simp [hOther]
      · rfl
    dsimp only
    rw [hBarred]
    simp only [Array.getD_eq_getD_getElem?, Array.getElem?_setIfInBounds_ne hOther]

theorem cell_reduce {rule : RuleId} {row : ActionRow} {terminal : Nat}
    (hFits : terminal < row.actions.size) :
    (row.reduce g rule terminal).cell terminal =
      if (row.cell terminal).2 then row.cell terminal
      else (g.arbitrate terminal (row.cell terminal).1 rule,
        g.arbitrate terminal (row.cell terminal).1 rule = .error) := by
  unfold reduce cell
  dsimp only
  cases hBarred : row.barred.contains terminal with
  | true => rw [if_pos rfl, if_pos rfl, hBarred]
  | false =>
      simp only [Bool.false_eq_true, if_false]
      generalize g.arbitrate terminal (row.actions.getD terminal .error) rule = action
      refine Prod.ext (by simp [Array.getD_eq_getD_getElem?, hFits]) ?_
      by_cases hError : action = .error
      · simp [hError]
      · simp [hError, hBarred]

theorem cell_foldl_reduce {rule : RuleId} {terminals : List Nat} (hDistinct : terminals.Nodup)
    {row : ActionRow} {terminal : Nat} (hFits : terminal < row.actions.size) :
    (terminals.foldl (reduce g rule) row).cell terminal =
      if terminal ∈ terminals then (row.reduce g rule terminal).cell terminal
      else row.cell terminal := by
  induction terminals generalizing row with
  | nil => rfl
  | cons first terminals ih =>
      obtain ⟨hFirst, hRest⟩ := List.nodup_cons.mp hDistinct
      rw [List.foldl_cons, ih hRest (by simpa using hFits)]
      by_cases hHere : first = terminal
      · subst hHere
        rw [if_neg hFirst, if_pos (by simp)]
      · have hOther : terminal ≠ first := fun hSame => hHere hSame.symm
        have hReduce : ((row.reduce g rule first).reduce g rule terminal).cell terminal
            = (row.reduce g rule terminal).cell terminal := by
          rw [cell_reduce (by simpa using hFits), cell_reduce hFits, cell_reduce_of_ne hHere]
        rw [hReduce, cell_reduce_of_ne hHere]
        simp [hOther]

/-- A cell sees a complete item as one contest. -/
theorem cell_complete {row : ActionRow} {entry : LookaheadItem} {terminal : Nat}
    (hFits : terminal < row.actions.size) (hTerminal : terminal < g.terminalCount) :
    (row.complete g entry.1.rule entry.2).cell terminal = g.contest terminal (row.cell terminal) entry := by
  unfold complete Grammar.contest Grammar.candidate?
  by_cases hAdded : entry.1.rule = g.rules.size
  · simp only [hAdded, if_true]
    by_cases hEnd : terminal = endSymbol
    · subst hEnd
      cases hMem : entry.2.contains endSymbol with
      | true => simp [cell, Array.getD_eq_getD_getElem?, hFits]
      | false => simp
    · have hOther : endSymbol ≠ terminal := fun hSame => hEnd hSame.symm
      split
      · simp [cell, Array.getD_eq_getD_getElem?, hOther]
      · simp
  · have hDistinct : (entry.2.elements g.terminalCount).Nodup := List.nodup_range.filter _
    simp only [hAdded, if_false]
    rw [cell_foldl_reduce hDistinct hFits]
    cases hMem : entry.2.contains terminal with
    | true => simp [IdSet.mem_elements, hTerminal, hMem, cell_reduce hFits]
    | false => simp [IdSet.mem_elements, hMem]

end ActionRow

namespace Automaton
variable {g : Grammar} {m : Automaton}

/-- A cell of a row after all complete items have been entered. -/
theorem getD_actions (completions : List LookaheadItem) (state : StateId) {terminal : Nat}
    (hTerminal : terminal < g.terminalCount) :
    (m.actions g completions state).getD terminal .error =
      (completions.foldl (g.contest terminal) ((m.shifts g state).getD terminal .error, false)).1 := by
  have hAll : ∀ (row : ActionRow), row.actions.size = g.terminalCount →
      (completions.foldl (fun row entry => row.complete g entry.1.rule entry.2) row).cell terminal
        = completions.foldl (g.contest terminal) (row.cell terminal) := by
    induction completions with
    | nil => exact fun _ _ => rfl
    | cons entry completions ih =>
        intro row hSize
        rw [List.foldl_cons, List.foldl_cons, ih _ (by simpa using hSize),
          ActionRow.cell_complete (hSize ▸ hTerminal) hTerminal]
  have hStart := hAll ⟨m.shifts g state, .empty⟩ (size_shifts state)
  have hCell : (⟨m.shifts g state, .empty⟩ : ActionRow).cell terminal
      = ((m.shifts g state).getD terminal .error, false) := by
    simp [ActionRow.cell]
  rw [hCell] at hStart
  exact congrArg Prod.fst hStart

/-- If one action is the only one that is considered, it wins. -/
theorem foldl_contest {terminal : Nat} {only : Action} {entries : List LookaheadItem}
    (hOnly : ∀ entry ∈ entries, ∀ action, g.candidate? terminal entry = some action → action = only)
    {cell : Action × Bool} (hCell : cell = (only, false)
      ∨ cell = (.error, false) ∧ ∃ entry ∈ entries, g.candidate? terminal entry = some only) :
    entries.foldl (g.contest terminal) cell = (only, false) := by
  have hStep : ∀ {entry : LookaheadItem} {cell : Action × Bool},
      g.candidate? terminal entry = some only → cell = (only, false) ∨ cell = (.error, false) →
      g.contest terminal cell entry = (only, false) := by
    intro entry cell hEntry hCell
    unfold Grammar.contest
    rw [hEntry]
    rcases hCell with rfl | rfl
    · cases only <;> simp [Grammar.arbitrate]
    · cases only <;> simp [Grammar.arbitrate]
  have hIdle : ∀ {entry : LookaheadItem} {cell : Action × Bool},
      g.candidate? terminal entry = none → g.contest terminal cell entry = cell := by
    intro entry cell hEntry
    unfold Grammar.contest
    rw [hEntry]
  induction entries generalizing cell with
  | nil => simpa using hCell
  | cons entry entries ih =>
      have hRest : ∀ {cell : Action × Bool}, (cell = (only, false) ∨ cell = (.error, false)
          ∧ ∃ entry ∈ entries, g.candidate? terminal entry = some only) →
          entries.foldl (g.contest terminal) cell = (only, false) :=
        ih fun other hMem => hOnly other (by simp [hMem])
      rw [List.foldl_cons]
      cases hEntry : g.candidate? terminal entry with
      | none =>
          rw [hIdle hEntry]
          refine hRest (hCell.imp_right (And.imp_right ?_))
          rintro ⟨other, hMem, hOther⟩
          rcases List.mem_cons.mp hMem with rfl | hMem
          · rw [hEntry] at hOther
            simp at hOther
          · exact ⟨other, hMem, hOther⟩
      | some action =>
          obtain rfl := hOnly entry (by simp) action hEntry
          rw [hStep hEntry (hCell.imp_right And.left)]
          exact hRest (.inl rfl)

end Automaton

namespace Tables.Generated
variable {g : Grammar} {m : Automaton} {t : Tables}

/-- Where there are no conflicts the tables have every action that is considered. -/
theorem action_of_candidate (h : Generated g m t) (hFree : g.ConflictFree) {state terminal : Nat}
    (hState : state < m.kernels.size) (hTerminal : terminal < g.terminalCount) {action : Action}
    (hCandidate : action ∈ m.candidates g state terminal) : t.action state terminal = action := by
  have hOnly := hFree m h.states state hState terminal hTerminal action hCandidate
  rw [h.action_eq, if_pos ⟨hTerminal, hState⟩, Automaton.getD_actions _ _ hTerminal]
  unfold Automaton.candidates at hCandidate hOnly
  refine congrArg Prod.fst (Automaton.foldl_contest (fun entry hMem other hOther => ?_) ?_)
  · exact (hOnly other (List.mem_append_right _ (List.mem_filterMap.mpr ⟨entry, hMem, hOther⟩))).symm
  · by_cases hNone : (m.shifts g state).getD terminal .error = .error
    · rw [hNone]
      refine .inr ⟨rfl, ?_⟩
      rw [hNone] at hCandidate
      simpa using hCandidate
    · have hSame := hOnly ((m.shifts g state).getD terminal .error) (List.mem_append_left _
        (List.mem_filter.mpr ⟨List.mem_singleton_self _, decide_eq_true hNone⟩))
      exact .inl (by rw [← hSame])

end Tables.Generated
end IncrementalParsing
