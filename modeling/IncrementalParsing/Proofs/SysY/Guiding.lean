import IncrementalParsing.Proofs.SysY.Operators
import IncrementalParsing.Proofs.SysY.States

/-! The tables of SysY lead every program to its end. Where they were left a choice, a sentence that
goes on in one way also goes on in the other, or the tables took the only one. -/
namespace IncrementalParsing.SysY
open Grammar

/-- How deep the least tree of a nonterminal is at most. -/
def height : Nonterminal → Nat
  | .sourceFile | .primitiveType | .parameterList | .varDefinition | .initializerList | .block
  | .expressionStatement | .breakStatement | .continueStatement | .returnStatement | .expression | .lvalue
  | .argumentList => 0
  | .functionDefinition | .parameter | .dimensions | .initializer | .varDefinitions | .statement
  | .assignmentStatement | .indices | .callExpression | .arguments | .unaryExpression
  | .binaryExpression | .parenthesizedExpression => 1
  | .parameters | .constDefinition | .initializers | .varDeclaration | .blockItem | .ifStatement
  | .whileStatement => 2
  | .item | .constDefinitions | .blockItems => 3
  | .items | .constDeclaration => 4

theorem productive_theGrammar : theGrammar.Productive := by
  have hRules : ∀ k < symbols.length, theGrammar.isTerminal k = true ∨ ∃ r ∈ rules, r.lhs = k
      ∧ ∀ other ∈ r.symbols, theGrammar.isTerminal other = true
        ∨ (Nonterminal.all[other - theGrammar.terminalCount]?).elim 0 height
          < (Nonterminal.all[k - theGrammar.terminalCount]?).elim 0 height := by
    decide +kernel
  refine @productive_of_height _
    (fun k => (Nonterminal.all[k - theGrammar.terminalCount]?).elim 0 height) proper_theGrammar ?_
  intro k hLess hNonterminal
  rcases hRules k hLess with hTerminal | ⟨r, hMem, hLhs, hLower⟩
  · rw [hNonterminal] at hTerminal
    simp at hTerminal
  · exact ⟨r, by simpa [theGrammar] using hMem, hLhs, hLower⟩

/-- What is disputed: an operation in front of a binary operator, or an if statement without an
alternative in front of one. -/
theorem disputed_cases {info : Rule} (hMem : info ∈ theGrammar.rules) {token : SymbolId}
    (hDisputed : disputed info token = true) :
    (∃ front, info.symbols = front ++ [Nonterminal.expression.id] ∧ isOperation info.lhs front = true
        ∧ ∃ t ∈ binaryTerminals, t.kind = token)
      ∨ (info.lhs = Nonterminal.ifStatement.id ∧ info.symbols = ifSymbols
        ∧ info.precedence = some elsePrecedence ∧ token = Terminal.elseKeyword.kind) := by
  have hOperations : ∀ r ∈ rules, r.lhs = Nonterminal.unaryExpression.id
      ∨ r.lhs = Nonterminal.binaryExpression.id →
        r.symbols = r.symbols.dropLast ++ [Nonterminal.expression.id]
          ∧ isOperation r.lhs r.symbols.dropLast = true := by
    decide +kernel
  have hShort : ∀ r ∈ rules, r.lhs = Nonterminal.ifStatement.id → r.precedence = some elsePrecedence →
      r.symbols = ifSymbols := by
    decide +kernel
  simp only [disputed, Bool.or_eq_true, Bool.and_eq_true, beq_iff_eq, List.any_eq_true] at hDisputed
  rcases hDisputed with ⟨hLhs, hOperator⟩ | ⟨⟨hLhs, hPrecedence⟩, hElse⟩
  · obtain ⟨hSymbols, hOperation⟩ := of_rules hOperations info hMem hLhs
    exact .inl ⟨_, hSymbols, hOperation, hOperator⟩
  · exact .inr ⟨hLhs, of_rules hShort info hMem hLhs hPrecedence, hPrecedence, hElse⟩

/-- Behind an expression, a binary operator is awaited within a binary expression. -/
theorem exists_operand {t : Terminal} (hOperator : t ∈ binaryTerminals) {below rest : List SymbolId}
    (h : theGrammar.Awaits (Nonterminal.expression.id :: below) t.kind rest) :
    ∃ inner after, rest = inner ++ after ∧ theGrammar.StandsFor [Nonterminal.expression.id] inner
      ∧ theGrammar.Awaits below Nonterminal.binaryExpression.id after := by
  have hPlaces : ∀ t ∈ binaryTerminals, t.kind ≠ theGrammar.start ∧ ∀ place ∈ theGrammar.places t.kind,
      place = (Nonterminal.binaryExpression.id, [Nonterminal.expression.id], [Nonterminal.expression.id])
        ∨ (theGrammar.isTerminal place.1 = false ∧ place.2.1 = []) := by
    decide +kernel
  obtain ⟨hStart, hOnly⟩ := hPlaces t hOperator
  obtain ⟨place, hPlace, under, inner, after, hStack, rfl, hUnder, hInner⟩ := h.exists_place hStart
  rcases hOnly place hPlace with rfl | ⟨hNonterminal, hFirst⟩
  · obtain rfl : below = under := by simpa using hStack
    exact ⟨inner, after, rfl, hInner, hUnder⟩
  · rw [hFirst, List.reverse_nil, List.nil_append] at hStack
    rw [← hStack] at hUnder
    rw [isTerminal_behind_expression hUnder] at hNonterminal
    simp at hNonterminal

section Tables
variable {m : Automaton} {t : Tables} {steps above below : List (SymbolId × StateId)}
  {token : SymbolId} {tokens : List SymbolId} {next : StateId} {rule : RuleId} {info : Rule}

theorem fits_theGrammar : theGrammar.rules.size ≤ ruleBound := by decide

/-- Where an alternative may be shifted, an if statement without one is not reduced. -/
theorem shifts_alternative (h : Tables.Faithful theGrammar m t) {state : StateId}
    (hRule : theGrammar.rules[rule]? = some info) (hPrecedence : info.precedence = some elsePrecedence)
    (hShift : .shift next ∈ m.candidates theGrammar state Terminal.elseKeyword.kind) :
    t.action state Terminal.elseKeyword.kind ≠ .reduce rule := by
  intro hReduce
  have hBeats := h.arbitrate_of_reduce associates following (disputes h.states) hReduce hShift
  exact Nat.lt_irrefl _ ((levels_of_reduce hRule hPrecedence (by decide +kernel) hBeats).2 rfl)

/-- On every path that makes up a sentence with the rest, the tables go on with it. -/
theorem guided (h : Tables.Faithful theGrammar m t) (hPath : m.Path steps) {rest : List SymbolId}
    (hContinues : theGrammar.Continues (steps.map (·.1)) rest) : t.Guided theGrammar steps rest := by
  rcases h.guided_or_disputed proper_theGrammar associates following (disputes h.states) hPath
    hContinues with hGuided | ⟨token, tokens, next, rule, info, above, below, rfl, hDisputed, hAction⟩
  · exact hGuided
  obtain ⟨hRule, rfl, hSymbols, -, hReduce, hPlace⟩ := id hDisputed
  have hMem := Array.mem_of_getElem? hRule
  have hAbove : above.map (·.1) = info.symbols.reverse := by rw [← hSymbols, List.reverse_reverse]
  rcases disputed_cases hMem hPlace with
    ⟨front, hForm, hOperation, operator, hOperator, rfl⟩ | ⟨hLhs, hForm, hPrecedence, rfl⟩
  · have hSteps : (above ++ below).map (·.1)
        = Nonterminal.expression.id :: (front.reverse ++ below.map (·.1)) := by
      rw [List.map_append, hAbove, hForm]
      simp
    have hExpressions : info.lhs ∈ expressions := by
      rcases isOperation_iff.mp hOperation with ⟨hLhs, -⟩ | ⟨hLhs, -⟩ <;> rw [hLhs] <;> decide
    rcases hAction with ⟨hShift, hBelow⟩ | ⟨hReduced, hAwaits⟩
    · obtain ⟨inner, after, rfl, hInner, hAfter⟩ := absorb_operator hOperator hExpressions hBelow
      refine .shift _ _ next rfl hShift ?_
      rw [hSteps]
      exact awaits_operator hOperator (by decide) (hAfter.last hMem hForm) hInner
    · rw [hSteps] at hAwaits
      obtain ⟨inner, after, rfl, hInner, hAfter⟩ := exists_operand hOperator hAwaits
      refine .reduce rule info above below hRule rfl hSymbols hReduced ?_
      have hLhs := h.exists_awaits_of_candidate proper_theGrammar productive_theGrammar following hPath
        hRule hSymbols hReduce
      exact awaits_longer hOperator hExpressions (awaits_around hOperation hLhs hAfter (.inr rfl)) hInner
  · rcases hAction with ⟨hShift, hBelow⟩ | ⟨hReduced, -⟩
    · rw [hLhs] at hBelow
      obtain ⟨inner, after, rfl, hInner, hAfter⟩ := absorb_alternative (by decide) hBelow
      refine .shift _ _ next rfl hShift ?_
      rw [List.map_append, hAbove, hForm]
      exact awaits_alternative hAfter hInner
    · exact absurd hReduced (shifts_alternative h hRule hPrecedence hDisputed.shift)

end Tables
end IncrementalParsing.SysY
