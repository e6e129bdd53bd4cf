import IncrementalParsing.Tables.Construction
import IncrementalParsing.Proofs.Automaton.States

/-! What the cells of generated tables say. Every shift and every transition is one of the
automaton, and every reduction and acceptance completes an item of its state. -/
namespace IncrementalParsing

/-- In lists of one length put one behind the other, an index names a list and a place in it. -/
theorem List.getElem?_flatMap_of_length {α β : Type} (f : α → List β) {k : Nat} (xs : List α)
    (hLength : ∀ x ∈ xs, (f x).length = k) (i j : Nat) (hLess : j < k) :
    (xs.flatMap f)[i * k + j]? = xs[i]?.bind fun x => (f x)[j]? := by
  induction xs generalizing i with
  | nil => simp
  | cons x xs ih =>
      have hFirst := hLength x (by simp)
      rw [List.flatMap_cons]
      cases i with
      | zero =>
          rw [Nat.zero_mul, Nat.zero_add, List.getElem?_append_left (by omega)]
          rfl
      | succ i =>
          rw [List.getElem?_append_right (by rw [hFirst, Nat.succ_mul]; omega),
            show (i + 1) * k + j - (f x).length = i * k + j by rw [hFirst, Nat.succ_mul]; omega,
            ih fun y hMem => hLength y (by simp [hMem])]
          rfl

/-- A table of rows of one length, read at a row and a column. -/
theorem Array.getElem?_flatMap_range {β : Type} (f : Nat → Array β) {k : Nat} (n : Nat)
    (hSize : ∀ i < n, (f i).size = k) (i j : Nat) (hLess : j < k) :
    ((Array.range n).flatMap f)[i * k + j]? = if i < n then (f i)[j]? else none := by
  rw [← Array.getElem?_toList, Array.toList_flatMap, Array.toList_range,
    List.getElem?_flatMap_of_length (fun i => (f i).toList) (List.range n)
      (fun x hMem => by simpa using hSize x (by simpa using hMem)) i j hLess]
  by_cases hRow : i < n
  · simp [hRow]
  · simp [hRow]

namespace ActionRow

/-- Entering a reduction changes cells of a row, but not how many there are. -/
@[simp] theorem size_reduce (g : Grammar) (rule : RuleId) (row : ActionRow) (terminal : SymbolId) :
    (row.reduce g rule terminal).actions.size = row.actions.size := by
  unfold reduce
  split <;> simp

/-- Nor does entering what a finished item wants. -/
@[simp] theorem size_complete (g : Grammar) (row : ActionRow) (rule : RuleId) (lookahead : IdSet) :
    (row.complete g rule lookahead).actions.size = row.actions.size := by
  unfold complete
  split
  · split <;> simp
  · generalize lookahead.elements g.terminalCount = terminals
    induction terminals generalizing row with
    | nil => rfl
    | cons terminal terminals ih => rw [List.foldl_cons, ih, size_reduce]

end ActionRow

namespace Automaton
variable {m : Automaton} {g : Grammar}

/-- A row of shifts has a cell for each terminal. -/
@[simp] theorem size_shifts (state : StateId) : (m.shifts g state).size = g.terminalCount := by
  unfold shifts
  generalize hRow : Array.replicate g.terminalCount Action.error = row
  have hSize : row.size = g.terminalCount := by simp [← hRow]
  clear hRow
  generalize m.transitions.getD state [] = moves
  induction moves generalizing row with
  | nil => exact hSize
  | cons move moves ih =>
      rw [List.foldl_cons]
      apply ih
      dsimp only
      split <;> simp [hSize]

/-- A row of gotos has a cell for each nonterminal. -/
@[simp] theorem size_gotos (state : StateId) : (m.gotos g state).size = g.nonterminalCount := by
  unfold gotos
  generalize hRow : Array.replicate g.nonterminalCount (none : Option StateId) = row
  have hSize : row.size = g.nonterminalCount := by simp [← hRow]
  clear hRow
  generalize m.transitions.getD state [] = moves
  induction moves generalizing row with
  | nil => exact hSize
  | cons move moves ih =>
      rw [List.foldl_cons]
      apply ih
      dsimp only
      split <;> simp [hSize]

@[simp] theorem size_actions (completions : List LookaheadItem) (state : StateId) :
    (m.actions g completions state).size = g.terminalCount := by
  unfold actions
  have hSize : (⟨m.shifts g state, .empty⟩ : ActionRow).actions.size = g.terminalCount :=
    size_shifts state
  generalize (⟨m.shifts g state, .empty⟩ : ActionRow) = row at hSize
  induction completions generalizing row with
  | nil => exact hSize
  | cons entry completions ih =>
      rw [List.foldl_cons]
      exact ih _ (by simpa using hSize)

end Automaton

namespace Tables

/-- The automaton behind the tables of a grammar. -/
structure Generated (g : Grammar) (m : Automaton) (t : Tables) : Prop where
  states : Automaton.ofGrammar (Augmented.ofGrammar g) = .ok m
  name : t.name = g.name
  symbols : t.symbols = g.symbols
  fields : t.fields = g.fields
  terminalCount : t.terminalCount = g.terminalCount
  start : t.start = g.start
  rules : t.rules = g.rules.map (·.toProduction)
  tokenPrecedence : t.tokenPrecedence = g.tokenPrecedence
  stateCount : t.stateCount = m.kernels.size
  actions : t.actions = (Array.range m.kernels.size).flatMap fun state =>
    m.actions g (m.completions (Augmented.ofGrammar g) m.offsets
      (m.lookaheads (Augmented.ofGrammar g)) state) state
  gotos : t.gotos = (Array.range m.kernels.size).flatMap fun state => m.gotos g state

/-- Tables whose cells tell every rule of their grammar from the others. -/
structure Faithful (g : Grammar) (m : Automaton) (t : Tables) : Prop extends Generated g m t where
  fits : g.rules.size ≤ ruleBound

instance {g : Grammar} {m : Automaton} {t : Tables} : Coe (Faithful g m t) (Generated g m t) :=
  ⟨Faithful.toGenerated⟩

/-- With no more rules than a cell can tell apart, the tables are faithful. -/
theorem Generated.faithful {g : Grammar} {m : Automaton} {t : Tables} (h : Generated g m t)
    (hFits : t.rules.size ≤ ruleBound) : Faithful g m t :=
  ⟨h, by simpa [h.rules] using hFits⟩

/-- Tables whose cells hold the rules themselves have no more rules than a cell can name. -/
theorem Faithful.rules_le {g : Grammar} {m : Automaton} {t : Tables} (h : Faithful g m t) :
    t.rules.size ≤ ruleBound := by
  simpa [h.rules] using h.fits

/-- What the construction gives has been generated from an automaton of the grammar. -/
theorem generated_ofGrammar {g : Grammar} {t : Tables} (hTables : ofGrammar g = .ok t) :
    ∃ m, Generated g m t := by
  unfold ofGrammar at hTables
  cases hStates : Automaton.ofGrammar (Augmented.ofGrammar g) with
  | error cause => simp [hStates, bind, Except.bind] at hTables
  | ok m =>
      simp only [hStates, bind, Except.bind, pure, Except.pure, Except.ok.injEq] at hTables
      subst hTables
      exact ⟨m, hStates, rfl, rfl, rfl, rfl, rfl, rfl, rfl, rfl, rfl, rfl⟩

/-- With no more rules than a cell can name, the cells hold the rules themselves. -/
theorem faithful_ofGrammar {g : Grammar} {t : Tables} (hTables : ofGrammar g = .ok t)
    (hFits : g.rules.size ≤ ruleBound) : ∃ m, Faithful g m t :=
  (generated_ofGrammar hTables).imp fun _ hGenerated => ⟨hGenerated, hFits⟩

namespace Generated
variable {g : Grammar} {m : Automaton} {t : Tables}

/-- An action is the cell of its state and terminal, and an error outside of the table. -/
theorem action_eq (h : Generated g m t) (state symbol : Nat) :
    t.action state symbol =
      if symbol < g.terminalCount ∧ state < m.kernels.size then
        (m.actions g (m.completions (Augmented.ofGrammar g) m.offsets
          (m.lookaheads (Augmented.ofGrammar g)) state) state).getD symbol .error
      else .error := by
  unfold action isTerminal
  rw [h.terminalCount]
  by_cases hSymbol : symbol < g.terminalCount
  · simp only [hSymbol, decide_true, if_true, true_and, Array.getD_eq_getD_getElem?, h.actions]
    rw [Array.getElem?_flatMap_range _ _ (fun i _ => Automaton.size_actions _ i) _ _ hSymbol]
    split <;> rfl
  · simp [hSymbol]

/-- A goto is the cell of its state and nonterminal, and there is none outside of the table. -/
theorem goto_eq (h : Generated g m t) (state symbol : Nat)
    (hNonterminal : g.terminalCount ≤ symbol) (hSymbol : symbol < g.symbols.size) :
    t.goto state symbol =
      if state < m.kernels.size then (m.gotos g state)[symbol - g.terminalCount]?.join
      else none := by
  have hLess : symbol - g.terminalCount < g.nonterminalCount := by
    rw [Grammar.nonterminalCount]
    omega
  unfold goto nonterminalCount
  rw [h.terminalCount, h.symbols, if_neg (Nat.not_lt.mpr hNonterminal), h.gotos]
  change ((Array.range m.kernels.size).flatMap fun state => m.gotos g state)[state
    * g.nonterminalCount + (symbol - g.terminalCount)]?.join = _
  rw [Array.getElem?_flatMap_range _ _ (fun i _ => Automaton.size_gotos i) _ _ hLess]
  split <;> rfl

end Generated
end Tables

namespace Automaton
variable {m : Automaton} {g : Grammar}

/-- The transitions of a state. -/
def moves (m : Automaton) (state : StateId) : List (SymbolId × StateId) :=
  m.transitions.getD state []

/-- A cell that is filled before the reductions are entered is a shift along an edge of the automaton. -/
theorem shift_of_shifts {state : StateId} {symbol : Nat} {action : Action}
    (hAction : (m.shifts g state)[symbol]? = some action) :
    action = .error ∨ ∃ next, action = .shift next ∧ (symbol, next) ∈ m.moves state := by
  have hAll : ∀ (found : List (SymbolId × StateId)) (row : Array Action),
      (∀ move ∈ found, move ∈ m.moves state) →
      (∀ (symbol : Nat) action, row[symbol]? = some action →
        action = .error ∨ ∃ next, action = .shift next ∧ (symbol, next) ∈ m.moves state) →
      ∀ (symbol : Nat) action, (found.foldl (fun row move =>
          if g.isTerminal move.1 then row.setIfInBounds move.1 (.shift move.2) else row)
          row)[symbol]? = some action →
        action = .error ∨ ∃ next, action = .shift next ∧ (symbol, next) ∈ m.moves state := by
    intro found
    induction found with
    | nil => exact fun row _ hRow => hRow
    | cons move found ih =>
        intro row hMoves hRow
        rw [List.foldl_cons]
        refine ih _ (fun other hMem => hMoves other (by simp [hMem])) ?_
        intro symbol action hSome
        split at hSome
        · rw [Array.getElem?_setIfInBounds] at hSome
          split at hSome
          · rename_i hHere
            split at hSome
            · obtain rfl := Option.some.inj hSome
              exact .inr ⟨move.2, rfl, hHere ▸ hMoves move (by simp)⟩
            · simp at hSome
          · exact hRow symbol action hSome
        · exact hRow symbol action hSome
  refine hAll (m.transitions.getD state []) _ (fun _ => id) ?_ symbol action hAction
  intro symbol action hSome
  rw [Array.getElem?_replicate] at hSome
  split at hSome
  · exact .inl (Option.some.inj hSome).symm
  · simp at hSome

/-- A goto is an edge of the automaton for a nonterminal. -/
theorem goto_of_gotos {state : StateId} {place : Nat} {next : StateId}
    (hNext : (m.gotos g state)[place]? = some (some next)) :
    ∃ symbol : Nat, g.isTerminal symbol = false ∧ symbol - g.terminalCount = place
      ∧ (symbol, next) ∈ m.moves state := by
  have hAll : ∀ (found : List (SymbolId × StateId)) (row : Array (Option StateId)),
      (∀ move ∈ found, move ∈ m.moves state) →
      (∀ (place : Nat) next, row[place]? = some (some next) →
        ∃ symbol : Nat, g.isTerminal symbol = false ∧ symbol - g.terminalCount = place
          ∧ (symbol, next) ∈ m.moves state) →
      ∀ (place : Nat) next, (found.foldl (fun row move => if g.isTerminal move.1 then row
          else row.setIfInBounds (move.1 - g.terminalCount) (some move.2)) row)[place]?
          = some (some next) →
        ∃ symbol : Nat, g.isTerminal symbol = false ∧ symbol - g.terminalCount = place
          ∧ (symbol, next) ∈ m.moves state := by
    intro found
    induction found with
    | nil => exact fun row _ hRow => hRow
    | cons move found ih =>
        intro row hMoves hRow
        rw [List.foldl_cons]
        refine ih _ (fun other hMem => hMoves other (by simp [hMem])) ?_
        intro place next hSome
        split at hSome
        · exact hRow place next hSome
        · rename_i hTerminal
          rw [Array.getElem?_setIfInBounds] at hSome
          split at hSome
          · rename_i hHere
            split at hSome
            · obtain rfl := Option.some.inj (Option.some.inj hSome)
              exact ⟨move.1, by simpa using hTerminal, hHere, hMoves move (by simp)⟩
            · simp at hSome
          · exact hRow place next hSome
  refine hAll (m.transitions.getD state []) _ (fun _ => id) ?_ place next hNext
  intro place next hSome
  rw [Array.getElem?_replicate] at hSome
  split at hSome <;> simp at hSome

/-- What an action of a state stands for: a transition, or an item that is complete. -/
inductive Warranted (g : Grammar) (m : Automaton) (completions : List LookaheadItem)
    (state : StateId) (symbol : Nat) : Action → Prop
  | error : Warranted g m completions state symbol .error
  | shift (next : StateId) (hMove : (symbol, next) ∈ m.moves state) :
      Warranted g m completions state symbol (.shift next)
  | reduce (entry : LookaheadItem) (hMem : entry ∈ completions)
      (hRule : entry.1.rule ≠ g.rules.size) (hLookahead : entry.2.contains symbol = true) :
      Warranted g m completions state symbol (.reduce (cellRule entry.1.rule))
  | accept (entry : LookaheadItem) (hMem : entry ∈ completions)
      (hRule : entry.1.rule = g.rules.size) (hSymbol : symbol = endSymbol)
      (hLookahead : entry.2.contains endSymbol = true) :
      Warranted g m completions state symbol .accept

section Warranted
variable {completions : List LookaheadItem} {state : StateId}

/-- Whatever is decided between what a cell holds and a reduction that an item wants, the outcome is
warranted. -/
theorem warranted_arbitrate {symbol : Nat} {present : Action} {entry : LookaheadItem}
    (hPresent : Warranted g m completions state symbol present) (hMem : entry ∈ completions)
    (hRule : entry.1.rule ≠ g.rules.size) (hLookahead : entry.2.contains symbol = true) :
    Warranted g m completions state symbol (g.arbitrate symbol present (cellRule entry.1.rule)) := by
  have hOurs : Warranted g m completions state symbol (.reduce (cellRule entry.1.rule)) :=
    .reduce entry hMem hRule hLookahead
  unfold Grammar.arbitrate
  split
  · exact hOurs
  · split
    · split
      · exact hOurs
      · split
        · exact hPresent
        · split
          · exact hOurs
          · exact hPresent
          · exact .error
    · exact hPresent
  · rename_i other
    rcases Nat.le_total other (cellRule entry.1.rule) with hLess | hLess
    · rw [Nat.min_eq_left hLess]
      exact hPresent
    · rw [Nat.min_eq_right hLess]
      exact hOurs
  · exact hPresent

/-- Every cell of a row is warranted. -/
def AllWarranted (g : Grammar) (m : Automaton) (completions : List LookaheadItem)
    (state : StateId) (row : ActionRow) : Prop :=
  ∀ (symbol : Nat) action, row.actions[symbol]? = some action →
    Warranted g m completions state symbol action

theorem AllWarranted.getD {row : ActionRow} (h : AllWarranted g m completions state row)
    (symbol : Nat) : Warranted g m completions state symbol (row.actions.getD symbol .error) := by
  rw [Array.getD_eq_getD_getElem?]
  cases hSome : row.actions[symbol]? with
  | none => exact .error
  | some action => exact h symbol action hSome

/-- A warranted action can be entered in any cell. -/
theorem AllWarranted.set {row : ActionRow} (h : AllWarranted g m completions state row)
    {symbol : Nat} {action : Action} (barred : IdSet)
    (hAction : Warranted g m completions state symbol action) :
    AllWarranted g m completions state ⟨row.actions.setIfInBounds symbol action, barred⟩ := by
  intro other found hSome
  dsimp only at hSome
  rw [Array.getElem?_setIfInBounds] at hSome
  split at hSome
  · rename_i hHere
    split at hSome
    · obtain rfl := Option.some.inj hSome
      exact hHere ▸ hAction
    · simp at hSome
  · exact h other found hSome

/-- A row stays warranted when the reductions of an item are entered. -/
theorem AllWarranted.complete {row : ActionRow} (h : AllWarranted g m completions state row)
    {entry : LookaheadItem} (hMem : entry ∈ completions) :
    AllWarranted g m completions state (row.complete g entry.1.rule entry.2) := by
  unfold ActionRow.complete
  split
  · rename_i hRule
    split
    · rename_i hEnd
      exact h.set _ (.accept entry hMem hRule rfl hEnd)
    · exact h
  · rename_i hRule
    have hAll : ∀ (terminals : List Nat) (row : ActionRow),
        (∀ terminal ∈ terminals, entry.2.contains terminal = true) →
        AllWarranted g m completions state row →
        AllWarranted g m completions state
          (terminals.foldl (ActionRow.reduce g (cellRule entry.1.rule)) row) := by
      intro terminals
      induction terminals with
      | nil => exact fun row _ hRow => hRow
      | cons terminal terminals ih =>
          intro row hLookahead hRow
          rw [List.foldl_cons]
          refine ih _ (fun other hMem => hLookahead other (by simp [hMem])) ?_
          unfold ActionRow.reduce
          split
          · exact hRow
          · exact hRow.set _ (warranted_arbitrate (hRow.getD terminal) hMem hRule
              (hLookahead terminal (by simp)))
    exact hAll _ row (fun terminal hTerminal => (IdSet.mem_elements.mp hTerminal).2) h

/-- So all cells of a state are warranted. -/
theorem warranted_actions {symbol : Nat} :
    Warranted g m completions state symbol
      ((m.actions g completions state).getD symbol .error) := by
  have hStart : AllWarranted g m completions state ⟨m.shifts g state, .empty⟩ := by
    intro symbol action hSome
    rcases shift_of_shifts hSome with rfl | ⟨next, rfl, hMove⟩
    · exact .error
    · exact .shift next hMove
  have hAll : ∀ (found : List LookaheadItem) (row : ActionRow),
      (∀ entry ∈ found, entry ∈ completions) → AllWarranted g m completions state row →
      AllWarranted g m completions state (found.foldl (fun row entry =>
        row.complete g entry.1.rule entry.2) row) := by
    intro found
    induction found with
    | nil => exact fun row _ hRow => hRow
    | cons entry found ih =>
        intro row hFound hRow
        rw [List.foldl_cons]
        exact ih _ (fun other hMem => hFound other (by simp [hMem]))
          (hRow.complete (hFound entry (by simp)))
  exact (hAll completions _ (fun _ => id) hStart).getD symbol

end Warranted
end Automaton

namespace Augmented
variable {a : Augmented}

theorem mem_of_add {s : Spread} {item : Item} {follow : IdSet} {entry : LookaheadItem}
    (hMem : entry ∈ (s.add item follow).items) :
    entry.1 = item ∨ ∃ old ∈ s.items, old.1 = entry.1 := by
  unfold Spread.add at hMem
  split at hMem
  · rename_i place hPlace
    dsimp only at hMem
    split at hMem
    · exact .inr ⟨entry, hMem, rfl⟩
    · rcases Array.mem_or_eq_of_mem_setIfInBounds hMem with hMem | rfl
      · exact .inr ⟨entry, hMem, rfl⟩
      · exact .inl rfl
  · rcases Array.mem_push.mp hMem with hMem | rfl
    · exact .inr ⟨entry, hMem, rfl⟩
    · exact .inl rfl

/-- The items of a closure with lookahead are those of the closure. -/
theorem run_sound {kernel : Kernel} (limit : Nat) (s : Spread)
    (h : ∀ entry ∈ s.items, a.Closure kernel entry.1) :
    ∀ entry ∈ Spread.run a limit s, a.Closure kernel entry.1 := by
  induction limit generalizing s with
  | zero => exact h
  | succ limit ih =>
      rw [Spread.run]
      split
      · exact h
      · rename_i place work hWork
        refine ih _ ?_
        unfold Spread.visit
        split
        · exact h
        · rename_i item set hPlace
          split
          · exact h
          · rename_i symbol hNext
            split
            · exact h
            · rename_i hSymbol
              have hItem := h _ (Array.mem_of_getElem? hPlace)
              have hAll : ∀ (expansions : List Item) (follow : IdSet) (s : Spread),
                  (∀ expansion ∈ expansions, expansion ∈ a.expansions symbol) →
                  (∀ entry ∈ s.items, a.Closure kernel entry.1) →
                  ∀ entry ∈ (expansions.foldl (fun s expansion => s.add expansion follow) s).items,
                    a.Closure kernel entry.1 := by
                intro expansions follow
                induction expansions with
                | nil => exact fun s _ hOld => hOld
                | cons expansion expansions ih =>
                    intro s hExpansions hOld
                    rw [List.foldl_cons]
                    refine ih _ (fun other hMem => hExpansions other (by simp [hMem])) ?_
                    intro entry hMem
                    rcases mem_of_add hMem with hNew | ⟨old, hMem, hSame⟩
                    · rw [hNew]
                      exact .expand hItem hNext (by simpa using hSymbol)
                        (hExpansions expansion (by simp))
                    · exact hSame ▸ hOld old hMem
              exact hAll _ _ _ (fun _ => id) h

/-- With lookaheads or without, expanding items leads to the items of the closure only. -/
theorem closureWithLookahead_sound {seed : List LookaheadItem} {entry : LookaheadItem}
    (hMem : entry ∈ a.closureWithLookahead seed) : a.Closure (seed.map (·.1)) entry.1 := by
  refine run_sound _ _ ?_ entry hMem
  intro other hSeed
  exact .kernel (List.mem_map.mpr ⟨other, by simpa using hSeed, rfl⟩)

end Augmented

/-- The items whose reductions are entered for a state are finished, and in the closure of its kernel. -/
theorem Automaton.completions_sound {a : Augmented} {m : Automaton} {offsets : Array Nat}
    {sets : Lookaheads} {state : StateId} {entry : LookaheadItem}
    (hMem : entry ∈ m.completions a offsets sets state) :
    a.isComplete entry.1 = true ∧ a.Closure (m.kernels.getD state []) entry.1 := by
  obtain ⟨hClosure, hComplete⟩ := List.mem_filter.mp hMem
  refine ⟨hComplete, ?_⟩
  have hItems : (m.stateItems offsets sets state).map (·.1) = m.kernels.getD state [] := by
    simp only [stateItems, List.map_map]
    exact List.zipIdx_map_fst 0 _
  rw [← hItems]
  exact Augmented.closureWithLookahead_sound (by simpa using hClosure)

end IncrementalParsing
