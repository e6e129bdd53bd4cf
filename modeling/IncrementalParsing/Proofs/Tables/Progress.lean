import IncrementalParsing.Proofs.Automaton.Complete
import IncrementalParsing.Proofs.Tables.Generated

/-! Generated tables lead on. A transition of the automaton is in the tables, and a reduction
always finds its rule, the symbols of the rule on the path, and a state to go to from below them. -/
namespace IncrementalParsing
namespace Automaton
variable {g : Grammar} {m : Automaton}

/-- A place that is written stays written. -/
theorem exists_of_foldl_set {β : Type} (P : β → Prop) (write : SymbolId × StateId → Option (Nat × β))
    (moves : List (SymbolId × StateId)) (row : Array β) (place : Nat)
    (hWrite : ∀ move ∈ moves, ∀ other, write move = some other → P other.2)
    (hFits : place < row.size)
    (hPlace : (∃ b, row[place]? = some b ∧ P b)
      ∨ ∃ move ∈ moves, ∃ b, write move = some (place, b)) :
    ∃ b, (moves.foldl (fun row move => match write move with
      | some (i, b) => row.setIfInBounds i b
      | none => row) row)[place]? = some b ∧ P b := by
  induction moves generalizing row with
  | nil => simpa using hPlace
  | cons move moves ih =>
      rw [List.foldl_cons]
      refine ih _ (fun other hMem => hWrite other (by simp [hMem])) ?_ ?_
      · cases write move <;> simp [hFits]
      · cases hMove : write move with
        | none =>
            rcases hPlace with hDone | ⟨other, hMem, b, hOther⟩
            · exact .inl hDone
            · rcases List.mem_cons.mp hMem with rfl | hMem
              · rw [hMove] at hOther
                simp at hOther
              · exact .inr ⟨other, hMem, b, hOther⟩
        | some found =>
            obtain ⟨i, b⟩ := found
            dsimp only
            by_cases hHere : i = place
            · subst hHere
              exact .inl ⟨b, by simp [hFits], hWrite move (by simp) _ hMove⟩
            · rcases hPlace with ⟨c, hDone, hHolds⟩ | ⟨other, hMem, c, hOther⟩
              · exact .inl ⟨c, by rw [Array.getElem?_setIfInBounds_ne hHere, hDone], hHolds⟩
              · rcases List.mem_cons.mp hMem with rfl | hMem
                · rw [hMove] at hOther
                  exact absurd (Prod.mk.inj (Option.some.inj hOther)).1 hHere
                · exact .inr ⟨other, hMem, c, hOther⟩

theorem gotos_of_move {state next : StateId} {symbol : Nat}
    (hMove : (symbol, next) ∈ m.moves state) (hNonterminal : g.isTerminal symbol = false)
    (hFits : symbol - g.terminalCount < g.nonterminalCount) :
    ∃ other, (m.gotos g state)[symbol - g.terminalCount]? = some (some other) := by
  have hWritten := exists_of_foldl_set (fun target : Option StateId => target.isSome = true)
    (fun move => if g.isTerminal move.1 then none
      else some ((move.1 : Nat) - g.terminalCount, some move.2))
    (m.moves state) (Array.replicate g.nonterminalCount none) (symbol - g.terminalCount) ?_
    (by simpa using hFits) (.inr ⟨_, hMove, some next, by simp [hNonterminal]⟩)
  · obtain ⟨target, hTarget, hSome⟩ := hWritten
    obtain ⟨other, rfl⟩ := Option.isSome_iff_exists.mp hSome
    refine ⟨other, ?_⟩
    rw [← hTarget, gotos, moves]
    congr 2
    funext row move
    cases hKind : g.isTerminal move.1 <;> simp [hKind]
  · intro move _ other hOther
    split at hOther
    · simp at hOther
    · obtain rfl := Option.some.inj hOther
      rfl

theorem shifts_of_move {state next : StateId} {symbol : Nat}
    (hMove : (symbol, next) ∈ m.moves state) (hTerminal : g.isTerminal symbol = true) :
    ∃ other, (m.shifts g state)[symbol]? = some (.shift other) := by
  have hFits : symbol < g.terminalCount := by simpa [Grammar.isTerminal] using hTerminal
  have hWritten := exists_of_foldl_set (fun action : Action => ∃ other, action = .shift other)
    (fun move => if g.isTerminal move.1 then some ((move.1 : Nat), .shift move.2) else none)
    (m.moves state) (Array.replicate g.terminalCount .error) symbol ?_
    (by simpa using hFits) (.inr ⟨_, hMove, .shift next, by simp [hTerminal]⟩)
  · obtain ⟨action, hAction, other, rfl⟩ := hWritten
    refine ⟨other, ?_⟩
    rw [← hAction, shifts, moves]
    congr 2
    funext row move
    cases hKind : g.isTerminal move.1 <;> simp [hKind]
  · intro move _ other hOther
    split at hOther
    · obtain rfl := Option.some.inj hOther
      exact ⟨_, rfl⟩
    · simp at hOther

end Automaton

namespace Tables.Generated
variable {g : Grammar} {m : Automaton} {t : Tables}

/-- The tables have the transitions on nonterminals. -/
theorem goto_of_move (h : Generated g m t) (hProper : g.Proper) {state next : StateId}
    {symbol : Nat} (hMove : (symbol, next) ∈ m.transitions.getD state [])
    (hNonterminal : g.terminalCount ≤ symbol) : t.goto state symbol = some next := by
  have hSymbol := (h.symbol_of_transition hProper hMove).1
  obtain ⟨source, -, hSource, -⟩ := h.explored.transition hMove
  have hState : state < m.kernels.size := (Array.getElem?_eq_some_iff.mp hSource).1
  have hKind : g.isTerminal symbol = false := decide_eq_false (Nat.not_lt.mpr hNonterminal)
  have hFits : symbol - g.terminalCount < g.nonterminalCount := by
    rw [Grammar.nonterminalCount]
    exact Nat.sub_lt_sub_right hNonterminal hSymbol
  obtain ⟨other, hOther⟩ := Automaton.gotos_of_move hMove hKind hFits
  have hGoto : t.goto state symbol = some other := by
    rw [h.goto_eq state symbol hNonterminal hSymbol, if_pos hState, hOther]
    rfl
  rw [hGoto, h.explored.move_unique (h.goto hSymbol hGoto).2 hMove]

/-- The beginning of a rule is in a state because an item there waits for what the rule derives. -/
theorem exists_waiting (h : Generated g m t) {state : StateId} {rule : RuleId}
    (hBegun : m.Holds (.ofGrammar g) state ⟨rule, 0⟩) {info : Rule}
    (hRule : g.rules[rule]? = some info) :
    ∃ item, m.Holds (.ofGrammar g) state item
      ∧ (Augmented.ofGrammar g).next? item = some info.lhs := by
  have hLess : rule < g.rules.size := (Array.getElem?_eq_some_iff.mp hRule).1
  cases hBegun with
  | kernel hMem =>
      exfalso
      rw [Array.getD_eq_getD_getElem?] at hMem
      cases hKernel : m.kernels[state]? with
      | none => simp [hKernel] at hMem
      | some kernel =>
          rw [hKernel] at hMem
          by_cases hState : state = 0
          · rw [hState, h.explored.initial] at hKernel
            obtain rfl := Option.some.inj hKernel
            have hStart := List.mem_singleton.mp hMem
            rw [Augmented.startRule_ofGrammar] at hStart
            obtain rfl : rule = g.rules.size := congrArg Item.rule hStart
            exact Nat.lt_irrefl _ hLess
          · obtain ⟨source, symbol, hSuccessor⟩ := h.explored.reached state kernel hKernel hState
            obtain ⟨item, -, -, hItem⟩ := Augmented.advance_of_mem_successors hSuccessor hMem
            simp [Item.advance] at hItem
  | @expand item _ symbol hItem hNext _ hExpansion =>
      obtain ⟨-, -, found, hFound, rfl⟩ := Augmented.mem_expansions.mp hExpansion
      obtain rfl := Option.some.inj (hRule.symm.trans hFound)
      exact ⟨item, hItem, hNext⟩

/-- What the tables accept is a path of one step, by the start symbol. -/
theorem steps_of_accept (h : Generated g m t) {steps : List (SymbolId × StateId)}
    (hPath : m.Path steps) {symbol : SymbolId}
    (hAccept : t.action (Automaton.endOf steps) symbol = .accept) :
    ∃ next, steps = [(t.start, next)] := by
  obtain ⟨-, item, hHolds, hRule, hComplete⟩ := h.accept hAccept
  obtain ⟨seen, rest, rfl, hLength, hSeen, hBound, hBegun⟩ := h.explored.seen hPath hHolds
  rw [hRule, Augmented.symbolsOf_startRule] at hSeen hBound
  have hDot : item.dot = 1 := by
    rw [Augmented.next?, hRule, Augmented.symbolsOf_startRule] at hComplete
    have hBeyond : item.dot ≠ 0 := by simpa using hComplete
    have hWithin : item.dot ≤ 1 := by simpa using hBound
    omega
  rw [hDot] at hSeen hLength
  obtain ⟨⟨symbol, next⟩, rfl⟩ := List.length_eq_one_iff.mp hLength
  obtain rfl : symbol = g.start := by simpa using hSeen
  -- The added rule is begun in the first state only, since no rule expands to it.
  have hMem : (⟨g.rules.size, 0⟩ : Item) ∈ m.kernels.getD (Automaton.endOf rest) [] := by
    rw [hRule] at hBegun
    cases hBegun with
    | kernel hMem => exact hMem
    | expand _ _ _ hExpansion =>
        obtain ⟨-, -, info, hInfo, -⟩ := Augmented.mem_expansions.mp hExpansion
        simp at hInfo
  cases hPath.of_append with
  | nil => exact ⟨next, by rw [h.start]; rfl⟩
  | @cons steps other state hPath hMove =>
      obtain ⟨kernel, target, -, hTarget, hSuccessor⟩ := h.explored.transition hMove
      rw [Automaton.endOf, Automaton.getD_kernels hTarget] at hMem
      obtain ⟨source, -, -, hItem⟩ := Augmented.advance_of_mem_successors hSuccessor hMem
      simp [Item.advance] at hItem

end Tables.Generated

namespace Tables.Faithful
variable {g : Grammar} {m : Automaton} {t : Tables}

/-- What a reduction finds on a path: its rule, the symbols of the rule, and where to go from below
them. -/
theorem reduction (h : Faithful g m t) (hProper : g.Proper) {steps : List (SymbolId × StateId)}
    (hPath : m.Path steps) {symbol : SymbolId} {rule : RuleId}
    (hReduce : t.action (Automaton.endOf steps) symbol = .reduce rule) :
    ∃ info next, t.rules[rule]? = some info ∧ info.rhs.length ≤ steps.length
      ∧ ((steps.take info.rhs.length).map (·.1)).reverse = info.symbols
      ∧ (info.lhs, next) ∈ m.transitions.getD (Automaton.endOf (steps.drop info.rhs.length)) []
      ∧ t.goto (Automaton.endOf (steps.drop info.rhs.length)) info.lhs = some next := by
  obtain ⟨item, hHolds, rfl, hRule, hComplete⟩ := h.reduce hReduce
  have hLess : item.rule < g.rules.size := Nat.lt_of_le_of_ne (h.explored.rule_le hHolds) hRule
  obtain ⟨source, hSource⟩ : ∃ source, g.rules[item.rule]? = some source :=
    ⟨_, Array.getElem?_eq_getElem hLess⟩
  obtain ⟨seen, rest, rfl, hLength, hSeen, hBound, hBegun⟩ := h.explored.seen hPath hHolds
  rw [Augmented.symbolsOf_rule hSource] at hSeen hBound
  have hDot : item.dot = source.symbols.length := by
    rw [Augmented.next?, Augmented.symbolsOf_rule hSource] at hComplete
    have hBeyond : source.symbols.length ≤ item.dot := by simpa using hComplete
    have hWithin : item.dot ≤ source.symbols.length := by simpa using hBound
    omega
  have hSize : source.rhs.length = seen.length := by
    rw [hLength, hDot, Production.symbols, List.length_map]
  obtain ⟨waiting, hWaiting, hNext⟩ := h.exists_waiting hBegun hSource
  obtain ⟨next, hMove⟩ := Automaton.exists_move h.states hWaiting hNext
  have hLhs := (hProper.lhs source (Array.mem_of_getElem? hSource)).1
  refine ⟨source.toProduction, next, ?_, ?_, ?_, ?_, ?_⟩
  · rw [h.rules, Array.getElem?_map, hSource]
    rfl
  · rw [hSize, List.length_append]
    exact Nat.le_add_right _ _
  · rw [hSize, List.take_left, hSeen, hDot, List.take_of_length_le (by simp)]
  · rw [hSize, List.drop_left]
    exact hMove
  · rw [hSize, List.drop_left]
    exact h.goto_of_move hProper hMove hLhs

end Tables.Faithful
end IncrementalParsing
