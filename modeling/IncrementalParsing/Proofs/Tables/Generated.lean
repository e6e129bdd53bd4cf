import IncrementalParsing.Proofs.Automaton.Items
import IncrementalParsing.Proofs.Grammar.Description
import IncrementalParsing.Proofs.Tables.Cells

/-! Generated tables against the automaton they come from: which transitions they have, and which
items stand behind what they do. -/
namespace IncrementalParsing
namespace Tables.Generated
variable {g : Grammar} {m : Automaton} {t : Tables}

theorem explored (h : Generated g m t) : m.Explored (.ofGrammar g) :=
  Automaton.explored_ofGrammar h.states

theorem warranted (h : Generated g m t) (state symbol : Nat) :
    Automaton.Warranted g m (m.completions (.ofGrammar g) m.offsets (m.lookaheads (.ofGrammar g))
      state) state symbol (t.action state symbol) := by
  rw [h.action_eq]
  split
  · exact Automaton.warranted_actions
  · exact .error

theorem shift (h : Generated g m t) {state next : StateId} {symbol : SymbolId}
    (hShift : t.action state symbol = .shift next) :
    (symbol, next) ∈ m.transitions.getD state [] := by
  have hWarranted := h.warranted state symbol
  rw [hShift] at hWarranted
  cases hWarranted with
  | shift next hMove => exact hMove

/-- A reduction is by the number of a rule that an item of its state completes. -/
theorem named (h : Generated g m t) {state : StateId} {symbol : SymbolId} {rule : RuleId}
    (hReduce : t.action state symbol = .reduce rule) :
    ∃ item, m.Holds (.ofGrammar g) state item ∧ cellRule item.rule = rule ∧ item.rule ≠ g.rules.size
      ∧ (Augmented.ofGrammar g).next? item = none := by
  have hWarranted := h.warranted state symbol
  rw [hReduce] at hWarranted
  cases hWarranted with
  | reduce entry hMem hRule =>
      obtain ⟨hComplete, hHolds⟩ := Automaton.completions_sound hMem
      exact ⟨entry.1, hHolds, rfl, hRule, by simpa [Augmented.isComplete] using hComplete⟩

/-- Only the end of the input is accepted, and only where the added rule is complete. -/
theorem accept (h : Generated g m t) {state : StateId} {symbol : SymbolId}
    (hAccept : t.action state symbol = .accept) :
    symbol = endSymbol ∧ ∃ item, m.Holds (.ofGrammar g) state item ∧ item.rule = g.rules.size
      ∧ (Augmented.ofGrammar g).next? item = none := by
  have hWarranted := h.warranted state symbol
  rw [hAccept] at hWarranted
  cases hWarranted with
  | accept entry hMem hRule hSymbol =>
      obtain ⟨hComplete, hHolds⟩ := Automaton.completions_sound hMem
      exact ⟨hSymbol, entry.1, hHolds, hRule, by simpa [Augmented.isComplete] using hComplete⟩

theorem goto (h : Generated g m t) {state next : StateId} {symbol : Nat}
    (hSymbol : symbol < g.symbols.size) (hGoto : t.goto state symbol = some next) :
    g.terminalCount ≤ symbol ∧ (symbol, next) ∈ m.transitions.getD state [] := by
  have hNonterminal : g.terminalCount ≤ symbol := by
    rcases Nat.lt_or_ge symbol g.terminalCount with hLess | hMore
    · rw [Tables.goto, h.terminalCount, if_pos hLess] at hGoto
      simp at hGoto
    · exact hMore
  refine ⟨hNonterminal, ?_⟩
  rw [h.goto_eq state symbol hNonterminal hSymbol] at hGoto
  split at hGoto
  · obtain ⟨other, hOther, hPlace, hMove⟩ := Automaton.goto_of_gotos (Option.join_eq_some_iff.mp hGoto)
    simp only [Grammar.isTerminal, decide_eq_false_iff_not, Nat.not_lt] at hOther
    obtain rfl : other = symbol := by omega
    exact hMove
  · simp at hGoto

/-- Transitions are by symbols of the rules, which are never the reserved ones. -/
theorem symbol_of_transition (h : Generated g m t) (hProper : g.Proper) {state next : StateId}
    {symbol : SymbolId} (hMove : (symbol, next) ∈ m.transitions.getD state []) :
    symbol < g.symbols.size ∧ symbol ≠ endSymbol ∧ symbol ≠ errorSymbol := by
  obtain ⟨source, target, -, -, hSuccessor⟩ := h.explored.transition hMove
  have hReserved := hProper.reserved
  have hStart := hProper.start
  obtain ⟨item, -, hNext, -⟩ := Augmented.exists_next_of_mem_successors hSuccessor
  rcases Augmented.next?_eq_some hNext with ⟨info, hRule, hSymbol⟩ | ⟨-, -, rfl⟩
  · exact hProper.symbol info (Array.mem_of_getElem? hRule) symbol (List.mem_of_getElem? hSymbol)
  · refine ⟨hStart.2, ?_, ?_⟩
    · exact Nat.ne_of_gt (by simp only [endSymbol]; omega)
    · exact Nat.ne_of_gt (by simp only [errorSymbol]; omega)

theorem isTerminal_iff (h : Generated g m t) (symbol : SymbolId) :
    t.isTerminal symbol = g.isTerminal symbol := by
  rw [Tables.isTerminal, Grammar.isTerminal, h.terminalCount]

/-- Terminals are neither hidden nor the start symbol. -/
theorem splices_of_isTerminal (h : Generated g m t) (hProper : g.Proper) {symbol : Nat}
    (hTerminal : t.isTerminal symbol = true) : t.isHidden symbol = false ∧ symbol ≠ t.start := by
  have hLess : symbol < g.terminalCount := by
    rw [h.isTerminal_iff] at hTerminal
    simpa [Grammar.isTerminal] using hTerminal
  refine ⟨?_, ?_⟩
  · unfold isHidden symbolTraits
    rw [h.symbols]
    split
    · rename_i info hInfo
      exact hProper.shown symbol info hInfo hLess
    · rfl
  · rw [h.start]
    exact Nat.ne_of_lt (Nat.lt_of_lt_of_le hLess hProper.start.1)

/-- A target is a state. -/
theorem target_lt (h : Generated g m t) {state next : StateId} {symbol : SymbolId}
    (hMove : (symbol, next) ∈ m.transitions.getD state []) : next < t.stateCount := by
  obtain ⟨source, target, -, hTarget, -⟩ := h.explored.transition hMove
  rw [h.stateCount]
  exact (Array.getElem?_eq_some_iff.mp hTarget).1

/-- The slots of a rule, as an item of the automaton sees them. -/
theorem rule_of_rules (h : Generated g m t) {rule : RuleId} {info : Production}
    (hRule : t.rules[rule]? = some info) :
    ∃ source, g.rules[rule]? = some source ∧ source.toProduction = info := by
  rw [h.rules, Array.getElem?_map] at hRule
  exact Option.map_eq_some_iff.mp hRule

/-- Rules are for nonterminals. -/
theorem lhs_of_rule (h : Generated g m t) (hProper : g.Proper) {rule : RuleId} {info : Production}
    (hRule : t.rules[rule]? = some info) :
    g.terminalCount ≤ info.lhs ∧ info.lhs < g.symbols.size := by
  obtain ⟨source, hSource, rfl⟩ := h.rule_of_rules hRule
  exact hProper.lhs source (Array.mem_of_getElem? hSource)

/-- A reduction is by a rule of the grammar. -/
theorem rule_lt (h : Generated g m t) {state : StateId} {symbol : SymbolId} {rule : Nat}
    (hReduce : t.action state symbol = .reduce rule) : rule < t.rules.size := by
  obtain ⟨item, hHolds, rfl, hRule, -⟩ := h.named hReduce
  rw [h.rules, Array.size_map]
  exact Nat.lt_of_le_of_lt (Nat.mod_le _ _) (Nat.lt_of_le_of_ne (h.explored.rule_le hHolds) hRule)

end Tables.Generated

namespace Tables.Faithful
variable {g : Grammar} {m : Automaton} {t : Tables}

/-- Every rule has its own number in the cells. -/
theorem cellRule_eq (h : Faithful g m t) {rule : RuleId} (hLess : rule < g.rules.size) :
    cellRule rule = rule :=
  Nat.mod_eq_of_lt (Nat.lt_of_lt_of_le hLess h.fits)

/-- A reduction completes an item of its state. -/
theorem reduce (h : Faithful g m t) {state : StateId} {symbol : SymbolId} {rule : RuleId}
    (hReduce : t.action state symbol = .reduce rule) :
    ∃ item, m.Holds (.ofGrammar g) state item ∧ item.rule = rule ∧ rule ≠ g.rules.size
      ∧ (Augmented.ofGrammar g).next? item = none := by
  obtain ⟨item, hHolds, hNamed, hRule, hComplete⟩ := h.named hReduce
  rw [h.cellRule_eq (Nat.lt_of_le_of_ne (h.explored.rule_le hHolds) hRule)] at hNamed
  exact ⟨item, hHolds, hNamed, hNamed ▸ hRule, hComplete⟩

end Tables.Faithful
/-- The tables come from a description that passed its check. -/
def Tables.Built (t : Tables) : Prop :=
  ∃ b g, GrammarDraft.Described b ∧ b.build = .ok g ∧ Tables.ofGrammar g = .ok t

theorem Tables.Built.generated {t : Tables} (h : t.Built) :
    ∃ g m, t.Generated g m ∧ g.Proper := by
  obtain ⟨b, g, hDescribed, hBuild, hTables⟩ := h
  obtain ⟨m, hGenerated⟩ := Tables.generated_ofGrammar hTables
  exact ⟨g, m, hGenerated, hDescribed.proper hBuild⟩

/-- With no more rules than a cell can tell apart, the tables are faithful. -/
theorem Tables.Built.faithful {t : Tables} (h : t.Built) (hFits : t.rules.size ≤ ruleBound) :
    ∃ g m, t.Faithful g m ∧ g.Proper := by
  obtain ⟨g, m, hGenerated, hProper⟩ := h.generated
  exact ⟨g, m, hGenerated.faithful hFits, hProper⟩

/-- Only terminals behind the reserved ones are error tokens. -/
theorem Tables.Built.of_isErrorToken {t : Tables} (h : t.Built) {symbol : SymbolId}
    (hToken : t.isErrorToken symbol = true) :
    errorSymbol < symbol ∧ t.isTerminal symbol = true := by
  obtain ⟨b, g, hDescribed, hBuild, hTables⟩ := h
  obtain ⟨m, hGenerated⟩ := Tables.generated_ofGrammar hTables
  obtain ⟨start, -, -, -, rfl⟩ := GrammarDraft.build_eq_ok hBuild
  unfold Tables.isErrorToken Tables.symbolTraits at hToken
  rw [hGenerated.symbols] at hToken
  split at hToken
  · rename_i info hInfo
    obtain ⟨hBehind, hTerminal⟩ := hDescribed.counted.errorTokens symbol info hInfo hToken
    rw [hDescribed.wellFormed.terminal symbol info hInfo] at hTerminal
    refine ⟨hBehind, ?_⟩
    rw [Tables.isTerminal, hGenerated.terminalCount]
    exact hTerminal
  · exact absurd hToken Bool.false_ne_true

/-- The end of the input is never a transition. -/
theorem Tables.Generated.stops {t : Tables} {g : Grammar} {m : Automaton} (h : t.Generated g m)
    (hProper : g.Proper) (state next : StateId) : t.action state endSymbol ≠ .shift next :=
  fun hShift => (h.symbol_of_transition hProper (h.shift hShift)).2.1 rfl

end IncrementalParsing
