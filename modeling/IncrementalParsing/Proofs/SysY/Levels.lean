import IncrementalParsing.Proofs.SysY.Guiding

/-! What the tables of SysY decide by level. An operator is shifted only behind an operand that the
operator in front of it leaves to it, and reduced only in front of an operator that does not bind
tighter. An alternative is never left for an outer if statement. -/
namespace IncrementalParsing.SysY
open Grammar

/-- The level of a binary operator. -/
def operatorLevel? (kind : SymbolId) : Option Nat :=
  (binaryOperators.find? fun operator => operator.1.kind == kind).map (·.2)

/-- What an operand on top of some symbols has to exceed, the last symbol first: the level of the
operator that it is the last operand of. -/
def bound : (symbols : List SymbolId) → Nat
  | [] => 0
  | operator :: below =>
      if below.head? = some Nonterminal.expression.id then (operatorLevel? operator).getD 0
      else if unaryOperators.any (·.kind == operator) then unaryPrecedence.level else 0

theorem operatorLevel?_kind {t : Terminal} {level : Nat} (hOperator : (t, level) ∈ binaryOperators) :
    operatorLevel? t.kind = some level := by
  have hAll : ∀ operator ∈ binaryOperators, operatorLevel? operator.1.kind = some operator.2 := by decide
  exact hAll _ hOperator

theorem exists_operator {kind : SymbolId} {level : Nat} (hLevel : operatorLevel? kind = some level) :
    ∃ t, (t, level) ∈ binaryOperators ∧ t.kind = kind := by
  obtain ⟨⟨t, other⟩, hFound, rfl⟩ := Option.map_eq_some_iff.mp hLevel
  exact ⟨t, List.mem_of_find?_eq_some hFound, by simpa using List.find?_some hFound⟩

theorem mem_binaryTerminals {t : Terminal} {level : Nat} (hOperator : (t, level) ∈ binaryOperators) :
    t ∈ binaryTerminals := List.mem_map_of_mem (f := (·.1)) hOperator

/-- Levels of binary operators lie below that of unary ones. -/
theorem level_between {t : Terminal} {level : Nat} (hOperator : (t, level) ∈ binaryOperators) :
    0 < level ∧ level < unaryPrecedence.level := by
  have hAll : ∀ operator ∈ binaryOperators, 0 < operator.2 ∧ operator.2 < unaryPrecedence.level := by
    decide
  exact hAll _ hOperator

theorem tokenPrecedence_operator {t : Terminal} {level : Nat} (hOperator : (t, level) ∈ binaryOperators) :
    theGrammar.tokenPrecedence[t.kind]?.join = some ⟨level, .left⟩ := by
  have hAll : ∀ operator ∈ binaryOperators,
      theGrammar.tokenPrecedence[operator.1.kind]?.join = some ⟨operator.2, .left⟩ := by
    decide +kernel
  exact hAll _ hOperator

theorem exists_unary_rule {t : Terminal} (hOperator : t ∈ unaryOperators) :
    ∃ (rule : RuleId) (info : Rule), theGrammar.rules[rule]? = some info
      ∧ info.lhs = Nonterminal.unaryExpression.id
      ∧ info.symbols = [t.kind, Nonterminal.expression.id]
      ∧ info.precedence = some unaryPrecedence := by
  have hRules : ∀ t ∈ unaryOperators, ∃ info ∈ rules, info.lhs = Nonterminal.unaryExpression.id
      ∧ info.symbols = [t.kind, Nonterminal.expression.id]
      ∧ info.precedence = some unaryPrecedence := by
    decide +kernel
  obtain ⟨info, hMem, hInfo⟩ := hRules t hOperator
  obtain ⟨rule, hRule⟩ := List.mem_iff_getElem?.mp hMem
  exact ⟨rule, info, by simpa [theGrammar] using hRule, hInfo⟩

theorem exists_leveled_rule {t : Terminal} {level : Nat} (hOperator : (t, level) ∈ binaryOperators) :
    ∃ (rule : RuleId) (info : Rule), theGrammar.rules[rule]? = some info
      ∧ info.lhs = Nonterminal.binaryExpression.id
      ∧ info.symbols = [Nonterminal.expression.id, t.kind, Nonterminal.expression.id]
      ∧ info.precedence = some ⟨level, .left⟩ := by
  have hRules : ∀ operator ∈ binaryOperators, ∃ info ∈ rules,
      info.lhs = Nonterminal.binaryExpression.id
      ∧ info.symbols = [Nonterminal.expression.id, operator.1.kind, Nonterminal.expression.id]
      ∧ info.precedence = some ⟨operator.2, .left⟩ := by
    decide +kernel
  obtain ⟨info, hMem, hInfo⟩ := hRules _ hOperator
  obtain ⟨rule, hRule⟩ := List.mem_iff_getElem?.mp hMem
  exact ⟨rule, info, by simpa [theGrammar] using hRule, hInfo⟩

/-- Behind other symbols than operators, every operand is allowed. -/
theorem bound_eq_zero {top : SymbolId} (hTop : ¬∃ t ∈ unaryOperators ++ binaryTerminals, t.kind = top)
    (below : List SymbolId) : bound (top :: below) = 0 := by
  have hNone : operatorLevel? top = none := by
    cases hLevel : operatorLevel? top with
    | none => rfl
    | some found =>
        obtain ⟨t, hMem, hKind⟩ := exists_operator hLevel
        exact absurd ⟨t, List.mem_append_right _ (mem_binaryTerminals hMem), hKind⟩ hTop
  have hPlain : unaryOperators.any (·.kind == top) = false := by
    refine Bool.eq_false_iff.mpr fun hAny => hTop ?_
    obtain ⟨t, hMem, hKind⟩ := List.any_eq_true.mp hAny
    exact ⟨t, List.mem_append_left _ hMem, by simpa using hKind⟩
  rw [bound, hNone, hPlain]
  simp

/-- Behind the left operand and the operator of a binary expression, operands exceed the operator. -/
theorem bound_operator {t : Terminal} {level : Nat} (hOperator : (t, level) ∈ binaryOperators)
    (below : List SymbolId) : bound (t.kind :: Nonterminal.expression.id :: below) = level := by
  rw [bound, List.head?_cons, if_pos rfl, operatorLevel?_kind hOperator, Option.getD_some]

section Tables
variable {m : Automaton} {t : Tables} (h : Tables.Faithful theGrammar m t)
include h

/-- An operator that is shifted behind an operation has won against the reduction of the operation. -/
theorem arbitrate_behind_operation {state next : StateId} {above below : List (SymbolId × StateId)}
    (hPath : m.Path ((Nonterminal.expression.id, state) :: above ++ below)) {operator : Terminal}
    (hOperator : operator ∈ binaryTerminals) (hShift : t.action state operator.kind = .shift next)
    {rule : RuleId} {info : Rule} (hRule : theGrammar.rules[rule]? = some info)
    (hSymbols : info.symbols = (above.map (·.1)).reverse ++ [Nonterminal.expression.id])
    (hLhs : info.lhs ∈ expressions) {inner after : List SymbolId}
    (hInner : theGrammar.StandsFor [Nonterminal.expression.id] inner)
    (hBelow : theGrammar.Awaits (below.map (·.1)) info.lhs after) :
    theGrammar.arbitrate operator.kind (.shift next) rule = .shift next :=
  h.arbitrate_of_shift proper_theGrammar associates hPath hRule (by rw [hSymbols]; simp)
    (awaits_longer hOperator hLhs hBelow hInner) hShift

/-- An operator is shifted only behind an operand that it may take from the operator in front. -/
theorem bound_lt_of_shift {state next : StateId} {below : List (SymbolId × StateId)}
    (hPath : m.Path ((Nonterminal.expression.id, state) :: below)) {operator : Terminal} {level : Nat}
    (hOperator : (operator, level) ∈ binaryOperators)
    (hShift : t.action state operator.kind = .shift next) : bound (below.map (·.1)) < level := by
  have hBinary := mem_binaryTerminals hOperator
  have hToken := tokenPrecedence_operator hOperator
  obtain ⟨hPositive, hLow⟩ := level_between hOperator
  obtain ⟨rest, hAwaits⟩ := h.exists_awaits_of_move proper_theGrammar productive_theGrammar hPath
    (h.shift hShift)
  obtain ⟨inner, after, rfl, hInner, hWithin⟩ := exists_operand hBinary hAwaits
  cases hBelow : below.map (·.1) with
  | nil => exact hPositive
  | cons top others =>
      by_cases hTop : ∃ front ∈ unaryOperators ++ binaryTerminals, front.kind = top
      · obtain ⟨front, hFront, rfl⟩ := hTop
        rw [hBelow] at hWithin
        obtain ⟨lhs, symbols, under, hOperation, hSame, hUnder⟩ :=
          exists_operation hFront hWithin (.inr rfl)
        obtain ⟨above, rest, rfl, hAbove, rfl⟩ := List.map_eq_append_iff.mp (hBelow.trans hSame)
        -- The operation in front might be reduced here, and the shift has won against that.
        rcases isOperation_iff.mp hOperation with ⟨rfl, t, hUnary, rfl⟩ | ⟨rfl, t, hOther, rfl⟩
        · obtain ⟨rule, info, hRule, hLhs, hSymbols, hPrecedence⟩ := exists_unary_rule hUnary
          have hWins := arbitrate_behind_operation h hPath hBinary hShift hRule
            (by rw [hSymbols, hAbove]; rfl) (by rw [hLhs]; decide) hInner (hLhs ▸ hUnder)
          exact absurd hLow (Nat.not_lt.mpr (levels_of_shift hRule hPrecedence hToken hWins).1)
        · obtain ⟨⟨t, other⟩, hMem, rfl⟩ := List.mem_map.mp hOther
          obtain ⟨rule, info, hRule, hLhs, hSymbols, hPrecedence⟩ := exists_leveled_rule hMem
          have hWins := arbitrate_behind_operation h hPath hBinary hShift hRule
            (by rw [hSymbols, hAbove]; rfl) (by rw [hLhs]; decide) hInner (hLhs ▸ hUnder)
          rw [hSame]
          exact (bound_operator hMem _).trans_lt ((levels_of_shift hRule hPrecedence hToken hWins).2 rfl)
      · exact (bound_eq_zero hTop others).trans_lt hPositive

section Reductions
variable {above below : List (SymbolId × StateId)} (hPath : m.Path (above ++ below)) {rule : RuleId}
  {info : Rule} (hRule : theGrammar.rules[rule]? = some info)
  (hSymbols : (above.map (·.1)).reverse = info.symbols)
include hPath hRule hSymbols

/-- A rule that is reduced by is awaited below its symbols. -/
theorem exists_awaits_of_reduce {token : SymbolId}
    (hReduce : t.action (Automaton.endOf (above ++ below)) token = .reduce rule) :
    ∃ rest, theGrammar.Awaits (below.map (·.1)) info.lhs rest :=
  h.exists_awaits_of_candidate proper_theGrammar productive_theGrammar following hPath hRule hSymbols
    (h.reduce_mem_candidates associates hReduce)

/-- A binary expression is reduced only in front of an operator that does not bind tighter. -/
theorem level_le_of_reduce {operator : SymbolId}
    (hForm : info.symbols = [Nonterminal.expression.id, operator, Nonterminal.expression.id])
    {level : Nat} (hPrecedence : info.precedence = some ⟨level, .left⟩) {other : Terminal} {limit : Nat}
    (hOther : (other, limit) ∈ binaryOperators)
    (hReduce : t.action (Automaton.endOf (above ++ below)) other.kind = .reduce rule) :
    limit ≤ level := by
  obtain ⟨rest, hAwaits⟩ := exists_awaits_of_reduce h hPath hRule hSymbols hReduce
  obtain ⟨inner, hInner⟩ := productive_theGrammar Nonterminal.expression.id (by decide)
  have hLast := hAwaits.last (Array.mem_of_getElem? hRule)
    (show info.symbols = [Nonterminal.expression.id, operator] ++ [Nonterminal.expression.id] from hForm)
  have hBehind := awaits_operator (mem_binaryTerminals hOther) (by decide) hLast hInner
  have hSteps : (above ++ below).map (·.1) = Nonterminal.expression.id
      :: ([Nonterminal.expression.id, operator].reverse ++ below.map (·.1)) := by
    rw [List.map_append, ← List.reverse_reverse (above.map _), hSymbols, hForm]
    rfl
  obtain ⟨next, -, hShift⟩ := h.exists_shift_candidate proper_theGrammar hPath
    (hSteps ▸ hBehind) (isTerminal_kind other)
  have hBeats := h.arbitrate_of_reduce associates following (disputes h.states) hReduce hShift
  exact (levels_of_reduce hRule hPrecedence (tokenPrecedence_operator hOther) hBeats).1

/-- An if statement without an alternative is not reduced in front of one. -/
theorem not_reduced_at_alternative (hLhs : info.lhs = Nonterminal.ifStatement.id)
    (hForm : info.symbols = ifSymbols) (hPrecedence : info.precedence = some elsePrecedence) :
    t.action (Automaton.endOf (above ++ below)) Terminal.elseKeyword.kind ≠ .reduce rule := by
  intro hReduce
  obtain ⟨rest, hAwaits⟩ := exists_awaits_of_reduce h hPath hRule hSymbols hReduce
  obtain ⟨inner, hInner⟩ := productive_theGrammar Nonterminal.statement.id (by decide)
  have hBehind := awaits_alternative (hLhs ▸ hAwaits) hInner
  have hSteps : (above ++ below).map (·.1) = ifSymbols.reverse ++ below.map (·.1) := by
    rw [List.map_append, ← List.reverse_reverse (above.map _), hSymbols, hForm]
  obtain ⟨next, -, hShift⟩ := h.exists_shift_candidate proper_theGrammar hPath
    (hSteps ▸ hBehind) (isTerminal_kind _)
  exact shifts_alternative h hRule hPrecedence hShift hReduce

/-- A unary expression does not follow an expression. -/
theorem ne_expression_of_unary {token : SymbolId} (hLhs : info.lhs = Nonterminal.unaryExpression.id)
    (hReduce : t.action (Automaton.endOf (above ++ below)) token = .reduce rule) :
    (below.map (·.1)).head? ≠ some Nonterminal.expression.id := by
  intro hHead
  obtain ⟨rest, hAwaits⟩ := exists_awaits_of_reduce h hPath hRule hSymbols hReduce
  obtain ⟨under, hUnder⟩ := List.head?_eq_some_iff.mp hHead
  rw [hUnder, hLhs] at hAwaits
  exact absurd (isTerminal_behind_expression hAwaits) (by decide)

end Reductions
end Tables
end IncrementalParsing.SysY
