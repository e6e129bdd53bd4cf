import IncrementalParsing.Proofs.Automaton.Following

/-! Places in a derivation, seen from the automaton. Behind what a derivation has in front of a place
there is a path, the item for the place holds at its end, and what the derivation has behind the item
is expected there. -/
namespace IncrementalParsing
namespace Automaton
variable {g : Grammar} {m : Automaton}

/-- An item holds at the end of a path, and a terminal is expected behind it. -/
structure Viable (g : Grammar) (m : Automaton) (steps : List (SymbolId × StateId)) (item : Item)
    (behind : SymbolId) : Prop where
  path : m.Path steps
  holds : m.Holds (.ofGrammar g) (endOf steps) item
  expects : m.Expects g (endOf steps) item behind

theorem Explored.viable_start (h : m.Explored (.ofGrammar g)) (hProper : g.Proper) :
    m.Viable g [] ⟨g.rules.size, 0⟩ endSymbol where
  path := .nil
  holds := by
    refine .kernel ?_
    rw [endOf, getD_kernels h.initial, Augmented.startRule_ofGrammar]
    exact List.mem_singleton_self _
  expects := h.expects_start hProper

/-- The next symbol of the item is taken along. -/
theorem Viable.advance (hStates : ofGrammar (.ofGrammar g) = .ok m) (hProper : g.Proper)
    {steps : List (SymbolId × StateId)} {item : Item} {behind symbol : SymbolId}
    (h : m.Viable g steps item behind) (hNext : (Augmented.ofGrammar g).next? item = some symbol) :
    ∃ next, (symbol, next) ∈ m.transitions.getD (endOf steps) []
      ∧ m.Viable g ((symbol, next) :: steps) item.advance behind := by
  have hExplored := explored_ofGrammar hStates
  obtain ⟨next, hMove⟩ := exists_move hStates h.holds hNext
  refine ⟨next, hMove, h.path.cons hMove, ?_, ?_⟩
  · exact .kernel ((hExplored.mem_target hMove).mpr ⟨item, h.holds, hNext, rfl⟩)
  · exact h.expects.advance hExplored hProper h.holds hNext hMove

/-- A rule of the next symbol is begun. What its symbol has behind it in the item begins with what is
expected behind the rule. -/
theorem Viable.expand (hProper : g.Proper) {steps : List (SymbolId × StateId)} {item : Item}
    {behind : SymbolId} (h : m.Viable g steps item behind) {rule : RuleId} {info : Rule}
    (hRule : g.rules[rule]? = some info)
    (hNext : (Augmented.ofGrammar g).next? item = some info.lhs) {tokens : List SymbolId}
    {rules : List RuleId} (hRest : g.Yields ((Augmented.ofGrammar g).rest item) tokens rules) :
    m.Viable g steps ⟨rule, 0⟩ (tokens.headD behind) := by
  obtain ⟨hFirst, hLess⟩ := hProper.lhs info (Array.mem_of_getElem? hRule)
  have hSymbol : (Augmented.ofGrammar g).isTerminal info.lhs = false :=
    decide_eq_false (Nat.not_lt.mpr hFirst)
  have hExpansion : (⟨rule, 0⟩ : Item) ∈ (Augmented.ofGrammar g).expansions info.lhs :=
    Augmented.mem_expansions.mpr ⟨rfl, hLess, info, hRule, rfl⟩
  refine ⟨h.path, .expand h.holds hNext hSymbol hExpansion, ?_⟩
  exact h.expects.expansion h.holds hNext hSymbol hExpansion (hRest.follows hProper (by simp))

theorem Path.endOf_lt {a : Augmented} (h : m.Explored a) {steps : List (SymbolId × StateId)}
    (hPath : m.Path steps) : endOf steps < m.kernels.size := by
  cases hPath with
  | nil => exact (Array.getElem?_eq_some_iff.mp h.initial).1
  | cons _ hMove =>
      obtain ⟨-, target, -, hTarget, -⟩ := h.transition hMove
      exact (Array.getElem?_eq_some_iff.mp hTarget).1

end Automaton
end IncrementalParsing
