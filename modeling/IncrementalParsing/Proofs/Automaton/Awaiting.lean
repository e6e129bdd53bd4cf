import IncrementalParsing.Proofs.Grammar.Awaiting
import IncrementalParsing.Proofs.Tables.Driver
import IncrementalParsing.Proofs.Tables.Ending

/-! What a sentence needs next, seen from the automaton. Behind a path by the symbols of a stack, an
item waits for what is awaited there, and what follows it in the sentence is expected behind it. -/
namespace IncrementalParsing
namespace Automaton
variable {g : Grammar} {m : Automaton}

/-- The symbols of an item are taken along a path that goes by them. -/
theorem Viable.along (hStates : ofGrammar (.ofGrammar g) = .ok m) (hProper : g.Proper)
    {above below : List (SymbolId × StateId)} {item : Item} {behind : SymbolId}
    (h : m.Viable g below item behind) (hPath : m.Path (above ++ below)) {back : List SymbolId}
    (hForm : ((Augmented.ofGrammar g).symbolsOf item.rule).toList.drop item.dot
      = (above.map (·.1)).reverse ++ back) :
    m.Viable g (above ++ below) ⟨item.rule, item.dot + above.length⟩ behind := by
  induction above generalizing back with
  | nil => exact h
  | cons step above ih =>
      obtain ⟨symbol, next⟩ := step
      cases hPath with
      | @cons _ _ _ hPath hMove =>
      rw [List.map_cons, List.reverse_cons, List.append_assoc] at hForm
      have hBefore := ih hPath hForm
      have hNext : (Augmented.ofGrammar g).next? ⟨item.rule, item.dot + above.length⟩ = some symbol := by
        rw [Augmented.next?, ← Array.getElem?_toList, ← List.getElem?_drop, hForm]
        simp
      obtain ⟨other, hOther, hAfter⟩ := hBefore.advance hStates hProper hNext
      obtain rfl := (explored_ofGrammar hStates).move_unique hMove hOther
      exact hAfter

/-- An item waits for what is awaited, in front of what the rest of its rule stands for. -/
structure Waits (g : Grammar) (m : Automaton) (steps : List (SymbolId × StateId)) (symbol : SymbolId)
    (rest : List SymbolId) (item : Item) : Prop where
  next : (Augmented.ofGrammar g).next? item = some symbol
  viable : ∃ tokens after, g.StandsFor ((Augmented.ofGrammar g).rest item) tokens
    ∧ rest = tokens ++ after ∧ m.Viable g steps item (after.headD endSymbol)

theorem Waits.expand (hProper : g.Proper) {steps : List (SymbolId × StateId)} {info : Rule}
    {rest : List SymbolId} {item : Item} (h : m.Waits g steps info.lhs rest item) {rule : RuleId}
    (hRule : g.rules[rule]? = some info) : m.Viable g steps ⟨rule, 0⟩ (rest.headD endSymbol) := by
  obtain ⟨hNext, tokens, after, ⟨_, hTokens⟩, rfl, hViable⟩ := h
  have hSame : (tokens ++ after).headD endSymbol = tokens.headD (after.headD endSymbol) := by
    cases tokens <;> rfl
  rw [hSame]
  exact hViable.expand hProper hRule hNext hTokens

theorem exists_waits (hStates : ofGrammar (.ofGrammar g) = .ok m) (hProper : g.Proper)
    {stack rest : List SymbolId} {symbol : SymbolId} (h : g.Awaits stack symbol rest)
    {steps : List (SymbolId × StateId)} (hPath : m.Path steps) (hSteps : steps.map (·.1) = stack) :
    ∃ item, m.Waits g steps symbol rest item := by
  induction h generalizing steps with
  | start =>
      obtain rfl := List.map_eq_nil_iff.mp hSteps
      refine ⟨⟨g.rules.size, 0⟩, ?_, [], [], ?_, rfl,
        (explored_ofGrammar hStates).viable_start hProper⟩
      · rw [Augmented.next?, Augmented.symbolsOf_startRule]
        rfl
      · rw [Augmented.rest, Augmented.symbolsOf_startRule]
        exact .nil
  | @within _ after info front back symbol tokens _ hMem hSymbols hBack ih =>
      obtain ⟨above, below, rfl, hAbove, hBelow⟩ := List.map_eq_append_iff.mp hSteps
      obtain ⟨rule, hRule⟩ := Array.mem_iff_getElem?.mp hMem
      have hForm : ((Augmented.ofGrammar g).symbolsOf rule).toList = front ++ symbol :: back := by
        rw [Augmented.symbolsOf_rule hRule, hSymbols]
      obtain ⟨waiting, hWaits⟩ := ih (Path.of_append hPath) hBelow
      have hAlong := @Viable.along _ _ hStates hProper _ _ _ _ (hWaits.expand hProper hRule) hPath
        (symbol :: back) (by rw [hAbove, List.reverse_reverse]; exact hForm)
      have hLength : above.length = front.length := by
        rw [← List.length_map (f := (·.1)), hAbove, List.length_reverse]
      have hLeft : ((Augmented.ofGrammar g).symbolsOf rule).toList.drop (0 + above.length)
          = symbol :: back := by
        rw [hForm, hLength, Nat.zero_add, List.drop_left]
      obtain ⟨hNext, hRest, -⟩ := @Tables.Generated.next?_of_drop g ⟨rule, 0 + above.length⟩ _ _ hLeft
      exact ⟨_, hNext, tokens, after, hRest ▸ hBack, rfl, hAlong⟩

/-- Behind the symbols of a rule that is awaited below them, the rule is complete. -/
theorem viable_complete (hStates : ofGrammar (.ofGrammar g) = .ok m) (hProper : g.Proper)
    {above below : List (SymbolId × StateId)} (hPath : m.Path (above ++ below)) {rule : RuleId}
    {info : Rule} (hRule : g.rules[rule]? = some info)
    (hSymbols : (above.map (·.1)).reverse = info.symbols) {rest : List SymbolId}
    (hAwaits : g.Awaits (below.map (·.1)) info.lhs rest) :
    m.Viable g (above ++ below) ⟨rule, info.symbols.length⟩ (rest.headD endSymbol) := by
  obtain ⟨item, hWaits⟩ := exists_waits hStates hProper hAwaits (Path.of_append hPath) rfl
  have hForm : ((Augmented.ofGrammar g).symbolsOf rule).toList = info.symbols := by
    rw [Augmented.symbolsOf_rule hRule]
  have hAlong := @Viable.along _ _ hStates hProper _ _ _ _ (hWaits.expand hProper hRule) hPath []
    (by rw [hSymbols, List.append_nil]; exact hForm)
  have hLength : above.length = info.symbols.length := by
    rw [← hSymbols, List.length_reverse, List.length_map]
  rwa [Nat.zero_add, hLength] at hAlong

end Automaton

namespace Tables.Generated
variable {g : Grammar} {m : Automaton} {t : Tables}

/-- What an item waits for is awaited on every path to its state, with something behind it. -/
theorem exists_awaits (h : Generated g m t) (hProper : g.Proper) (hProductive : g.Productive)
    {steps : List (SymbolId × StateId)} (hPath : m.Path steps) {item : Item}
    (hHolds : m.Holds (.ofGrammar g) (Automaton.endOf steps) item) {symbol : SymbolId}
    (hNext : (Augmented.ofGrammar g).next? item = some symbol) :
    ∃ rest, g.Awaits (steps.map (·.1)) symbol rest := by
  induction hLength : steps.length using Nat.strongRecOn generalizing steps item symbol with
  | ind n ih =>
      -- Within one state, an item begins because of another one there. From a kernel item the way leads
      -- back along the path.
      induction hHolds generalizing symbol with
      | @kernel item hMem =>
          by_cases hDot : item.dot = 0
          · obtain rfl : steps = [] := h.explored.eq_nil_of_dot hPath hMem hDot
            rw [Automaton.endOf, Automaton.getD_kernels h.explored.initial,
              Augmented.startRule_ofGrammar] at hMem
            obtain rfl := List.mem_singleton.mp hMem
            rw [Augmented.next?, Augmented.symbolsOf_startRule] at hNext
            obtain rfl : g.start = symbol := Option.some.inj hNext
            exact ⟨[], .start⟩
          · rcases Augmented.next?_eq_some hNext with ⟨info, hRule, hSymbol⟩ | ⟨-, hFirst, -⟩
            · obtain ⟨seen, below, rfl, hSize, hSeen, -, hBegun⟩ := h.explored.seen hPath (.kernel hMem)
              obtain ⟨waiting, hWaiting, hLhs⟩ := h.exists_waiting hBegun hRule
              have hShorter : below.length < n := by
                rw [← hLength, List.length_append, hSize]
                omega
              obtain ⟨rest, hRest⟩ := ih _ hShorter hPath.of_append hWaiting hLhs rfl
              obtain ⟨after, hAfter⟩ := hRest.exists_within hProper hProductive
                (Array.mem_of_getElem? hRule) hSymbol
              rw [Augmented.symbolsOf_rule hRule] at hSeen
              refine ⟨after, ?_⟩
              rw [List.map_append, ← List.reverse_reverse (seen.map _), hSeen]
              exact hAfter
            · exact absurd hFirst hDot
      | @expand _ item other _ hOther _ hExpansion ihSource =>
          obtain ⟨hDot, -, info, hRule, rfl⟩ := Augmented.mem_expansions.mp hExpansion
          obtain ⟨rest, hRest⟩ := ihSource hOther
          have hSymbol : info.symbols[0]? = some symbol := by
            rw [Augmented.next?, Augmented.symbolsOf_rule hRule, hDot] at hNext
            simpa using hNext
          obtain ⟨after, hAfter⟩ := hRest.exists_within hProper hProductive
            (Array.mem_of_getElem? hRule) hSymbol
          exact ⟨after, hAfter⟩

/-- What a transition takes along is awaited on every path to it, with something behind it. -/
theorem exists_awaits_of_move (h : Generated g m t) (hProper : g.Proper) (hProductive : g.Productive)
    {steps : List (SymbolId × StateId)} (hPath : m.Path steps) {symbol : SymbolId} {next : StateId}
    (hMove : (symbol, next) ∈ m.transitions.getD (Automaton.endOf steps) []) :
    ∃ rest, g.Awaits (steps.map (·.1)) symbol rest := by
  obtain ⟨source, target, hSource, -, hSuccessor⟩ := h.explored.transition hMove
  obtain ⟨item, hItem, hNext, -⟩ := Augmented.exists_next_of_mem_successors hSuccessor
  refine h.exists_awaits hProper hProductive hPath ?_ hNext
  rw [Automaton.Holds, Automaton.getD_kernels hSource]
  exact hItem

/-- A rule that has come some way in a state is awaited on the path below its symbols. -/
theorem exists_awaits_below (h : Generated g m t) (hProper : g.Proper) (hProductive : g.Productive)
    {above below : List (SymbolId × StateId)} (hPath : m.Path (above ++ below)) {item : Item}
    (hHolds : m.Holds (.ofGrammar g) (Automaton.endOf (above ++ below)) item)
    (hLength : above.length = item.dot) {info : Rule} (hRule : g.rules[item.rule]? = some info) :
    ∃ rest, g.Awaits (below.map (·.1)) info.lhs rest := by
  obtain ⟨seen, rest, hSplit, hSize, -, -, hBegun⟩ := h.explored.seen hPath hHolds
  obtain ⟨rfl, rfl⟩ := List.append_inj hSplit (hLength.trans hSize.symm)
  obtain ⟨waiting, hWaiting, hNext⟩ := h.exists_waiting hBegun hRule
  exact h.exists_awaits hProper hProductive hPath.of_append hWaiting hNext

end Tables.Generated
end IncrementalParsing
