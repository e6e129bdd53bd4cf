import IncrementalParsing.Proofs.SysY.Followers

/-! Operations in other shapes. Behind the symbols of an operation a binary operator may go on in two
ways, with the operation as its left operand or inside its right one. Both stand for the same tokens, so
a sentence that goes on in one way goes on in the other. The same holds of an alternative behind nested
if statements. -/
namespace IncrementalParsing.SysY
open Grammar

/-- An operation and what it has in front of its last operand. -/
def isOperation (lhs : SymbolId) (front : List SymbolId) : Bool :=
  (lhs == Nonterminal.unaryExpression.id && unaryOperators.any fun t => front == [t.kind])
    || (lhs == Nonterminal.binaryExpression.id
      && binaryTerminals.any fun t => front == [Nonterminal.expression.id, t.kind])

/-- What an operator may have right behind it, apart from terminals. -/
def operands : List SymbolId := [
  Nonterminal.expression.id, Nonterminal.lvalue.id, Nonterminal.callExpression.id,
  Nonterminal.unaryExpression.id, Nonterminal.binaryExpression.id,
  Nonterminal.parenthesizedExpression.id]

/-- Expressions and operations, which a binary operator may follow. -/
def expressions : List SymbolId :=
  [Nonterminal.expression.id, Nonterminal.unaryExpression.id, Nonterminal.binaryExpression.id]

/-- Statements that may end with a statement, which an alternative may follow. -/
def statements : List SymbolId :=
  [Nonterminal.statement.id, Nonterminal.ifStatement.id, Nonterminal.whileStatement.id]

variable {stack below rest : List SymbolId} {symbol : SymbolId}

theorem exists_rule {lhs : SymbolId} {symbols : List SymbolId}
    (hRule : (rules.any fun r => r.lhs == lhs && r.symbols == symbols) = true) :
    ∃ info ∈ theGrammar.rules, info.lhs = lhs ∧ info.symbols = symbols := by
  obtain ⟨info, hMem, hIs⟩ := List.any_eq_true.mp hRule
  rw [Bool.and_eq_true, beq_iff_eq, beq_iff_eq] at hIs
  exact ⟨info, by simpa [theGrammar] using hMem, hIs⟩

theorem of_rules {P : Rule → Prop} (h : ∀ info ∈ rules, P info) : ∀ info ∈ theGrammar.rules, P info :=
  fun info hMem => h info (by simpa [theGrammar] using hMem)

section Around

/-- Only terminals are awaited right behind an expression. -/
theorem isTerminal_behind_expression
    (h : theGrammar.Awaits (Nonterminal.expression.id :: below) symbol rest) :
    theGrammar.isTerminal symbol = true := by
  have hPlaces : ∀ place ∈ theGrammar.places Nonterminal.expression.id, ∀ next ∈ place.2.2.head?,
      theGrammar.isTerminal next = true := by
    decide +kernel
  have hLhs : ∀ info ∈ rules, theGrammar.isTerminal info.lhs = false := by decide +kernel
  refine h.succeeds (P := fun symbol => theGrammar.isTerminal symbol = true) ?_ ?_ rfl
  · intro info hMem front symbol back hSymbols
    exact hPlaces _ (mem_places hMem hSymbols) symbol rfl
  · intro info hMem hIs
    rw [of_rules hLhs info hMem] at hIs
    simp at hIs

/-- Only operands are awaited right behind an operator. -/
theorem operand_behind_operator {t : Terminal} (hOperator : t ∈ unaryOperators ++ binaryTerminals)
    (h : theGrammar.Awaits (t.kind :: below) symbol rest) :
    theGrammar.isTerminal symbol = true ∨ symbol ∈ operands := by
  have hPlaces : ∀ t ∈ unaryOperators ++ binaryTerminals, ∀ place ∈ theGrammar.places t.kind,
      ∀ next ∈ place.2.2.head?, next ∈ operands := by
    decide +kernel
  have hRules : ∀ info ∈ rules, info.lhs ∈ operands → ∀ first ∈ info.symbols.head?,
      theGrammar.isTerminal first = true ∨ first ∈ operands := by
    decide +kernel
  have hLhs : ∀ info ∈ rules, theGrammar.isTerminal info.lhs = false := by decide +kernel
  refine h.succeeds (P := fun symbol => theGrammar.isTerminal symbol = true ∨ symbol ∈ operands) ?_ ?_ rfl
  · intro info hMem front symbol back hSymbols
    exact .inr (hPlaces t hOperator _ (mem_places hMem hSymbols) symbol rfl)
  · rintro info hMem (hIs | hIs)
    · rw [of_rules hLhs info hMem] at hIs
      simp at hIs
    · exact of_rules hRules info hMem hIs

end Around

section Operations

/-- An operation is awaited as an expression. -/
theorem awaits_expression (hSymbol : symbol ∈ expressions) (h : theGrammar.Awaits stack symbol rest) :
    theGrammar.Awaits stack Nonterminal.expression.id rest := by
  have hPlaces : ∀ symbol ∈ [Nonterminal.unaryExpression.id, Nonterminal.binaryExpression.id],
      symbol ≠ theGrammar.start
        ∧ ∀ place ∈ theGrammar.places symbol, place = (Nonterminal.expression.id, [], []) := by
    decide +kernel
  rcases List.mem_cons.mp hSymbol with rfl | hOperation
  · exact h
  · obtain ⟨hStart, hOnly⟩ := hPlaces symbol hOperation
    obtain ⟨place, hPlace, below, tokens, after, rfl, rfl, hBelow, hTokens⟩ := h.exists_place hStart
    rw [hOnly place hPlace] at hBelow hTokens ⊢
    obtain rfl := hTokens.eq_nil
    exact hBelow

/-- Where an expression is awaited, so is an operation. -/
theorem awaits_operation (hSymbol : symbol ∈ expressions)
    (h : theGrammar.Awaits stack Nonterminal.expression.id rest) : theGrammar.Awaits stack symbol rest := by
  have hRules : ∀ symbol ∈ [Nonterminal.unaryExpression.id, Nonterminal.binaryExpression.id],
      (rules.any fun r => r.lhs == Nonterminal.expression.id && r.symbols == [symbol]) = true := by
    decide +kernel
  rcases List.mem_cons.mp hSymbol with rfl | hOperation
  · exact h
  · obtain ⟨info, hMem, hLhs, hSymbols⟩ := exists_rule (hRules symbol hOperation)
    exact Awaits.first (hLhs ▸ h) hMem hSymbols .nil

theorem exists_binary_rule {t : Terminal} (hOperator : t ∈ binaryTerminals) :
    ∃ info ∈ theGrammar.rules, info.lhs = Nonterminal.binaryExpression.id
      ∧ info.symbols = [Nonterminal.expression.id, t.kind, Nonterminal.expression.id] := by
  have hRules : ∀ t ∈ binaryTerminals, (rules.any fun r => r.lhs == Nonterminal.binaryExpression.id
      && r.symbols == [Nonterminal.expression.id, t.kind, Nonterminal.expression.id]) = true := by
    decide +kernel
  exact exists_rule (hRules t hOperator)

theorem isTerminal_kind (t : Terminal) : theGrammar.isTerminal t.kind = true := by
  cases t <;> decide

/-- An expression may be the left operand of one more operation. -/
theorem awaits_longer {t : Terminal} (hOperator : t ∈ binaryTerminals) (hSymbol : symbol ∈ expressions)
    (h : theGrammar.Awaits stack symbol rest) {inner : List SymbolId}
    (hInner : theGrammar.StandsFor [Nonterminal.expression.id] inner) :
    theGrammar.Awaits stack symbol (t.kind :: (inner ++ rest)) := by
  obtain ⟨info, hMem, hLhs, hSymbols⟩ := exists_binary_rule hOperator
  have hBinary := awaits_operation (by decide : Nonterminal.binaryExpression.id ∈ expressions)
    (awaits_expression hSymbol h)
  have hBack := (StandsFor.terminal (isTerminal_kind t)).append hInner
  exact awaits_operation hSymbol (Awaits.first (hLhs ▸ hBinary) hMem hSymbols hBack)

/-- Behind an expression, a binary operator is awaited with an operand. -/
theorem awaits_operator {t : Terminal} (hOperator : t ∈ binaryTerminals) (hSymbol : symbol ∈ expressions)
    (h : theGrammar.Awaits stack symbol rest) {inner : List SymbolId}
    (hInner : theGrammar.StandsFor [Nonterminal.expression.id] inner) :
    theGrammar.Awaits (Nonterminal.expression.id :: stack) t.kind (inner ++ rest) := by
  obtain ⟨info, hMem, hLhs, hSymbols⟩ := exists_binary_rule hOperator
  have hBinary := awaits_operation (by decide : Nonterminal.binaryExpression.id ∈ expressions)
    (awaits_expression hSymbol h)
  exact @Awaits.within _ _ _ info [Nonterminal.expression.id] _ _ _ (hLhs ▸ hBinary) hMem hSymbols hInner

/-- A binary operator that follows an expression follows it with an operand of its own. -/
theorem absorb_operator {t : Terminal} (hOperator : t ∈ binaryTerminals) (hSymbol : symbol ∈ expressions)
    (h : theGrammar.Awaits stack symbol (t.kind :: rest)) :
    ∃ inner after, rest = inner ++ after ∧ theGrammar.StandsFor [Nonterminal.expression.id] inner
      ∧ theGrammar.Awaits stack symbol after := by
  have hPlaces : ∀ symbol ∈ expressions, ∀ place ∈ theGrammar.places symbol, ∀ t ∈ binaryTerminals,
      (place.2.2 = [] ∧ (place.1 ∈ expressions ∨ (follow place.1).contains t.kind = false))
        ∨ ((place.2.2 = [t.kind, Nonterminal.expression.id] ∧ symbol = Nonterminal.expression.id)
          ∧ place.1 = Nonterminal.binaryExpression.id ∧ place.2.1 = [])
        ∨ ∃ first ∈ place.2.2.head?, theGrammar.isTerminal first = true ∧ first ≠ t.kind := by
    decide +kernel
  refine h.absorb proper_theGrammar following (K := (· ∈ expressions)) (isTerminal_kind t) (by decide)
    ?_ hSymbol
  intro info hMem front symbol back hSymbols hIn
  rcases hPlaces symbol hIn _ (mem_places hMem hSymbols) t hOperator with
    hLast | ⟨⟨hBack, hIs⟩, hLhs, hFront⟩ | ⟨first, hFirst, hTerminal, hOther⟩
  · exact .inl hLast
  · refine .inr (.inl ⟨hBack, fun below after hBelow => ?_⟩)
    replace hFront : front = [] := hFront
    replace hLhs : info.lhs = Nonterminal.binaryExpression.id := hLhs
    rw [hFront, hIs]
    exact awaits_expression (by rw [hLhs]; decide) hBelow
  · cases back with
    | nil => simp at hFirst
    | cons head back =>
        obtain rfl : head = first := by simpa using hFirst
        exact .inr (.inr ⟨head, back, rfl, hTerminal, hOther⟩)

theorem isOperation_iff {lhs : SymbolId} {front : List SymbolId} : isOperation lhs front = true ↔
    (lhs = Nonterminal.unaryExpression.id ∧ ∃ t ∈ unaryOperators, front = [t.kind])
      ∨ (lhs = Nonterminal.binaryExpression.id
        ∧ ∃ t ∈ binaryTerminals, front = [Nonterminal.expression.id, t.kind]) := by
  simp [isOperation]

example : isOperation Nonterminal.unaryExpression.id [Terminal.minus.kind] = true := by decide +kernel

/-- An expression that is awaited right behind an operator is within an operation with this operator, and
what follows it follows the operation. -/
theorem exists_operation {t : Terminal} (hOperator : t ∈ unaryOperators ++ binaryTerminals)
    {others : List SymbolId} (h : theGrammar.Awaits (t.kind :: others) symbol rest)
    (hSymbol : symbol = Nonterminal.expression.id ∨ symbol = Nonterminal.binaryExpression.id) :
    ∃ lhs front below, isOperation lhs front = true ∧ t.kind :: others = front.reverse ++ below
      ∧ theGrammar.Awaits below lhs rest := by
  have hBinaryPlaces : ∀ place ∈ theGrammar.places Nonterminal.binaryExpression.id,
      place = (Nonterminal.expression.id, [], []) := by
    decide +kernel
  -- An expression begins an operation, or is the last operand of one, or stands behind no operator.
  have hPlaces : ∀ place ∈ theGrammar.places Nonterminal.expression.id,
      (place.2.1 = [] ∧ (theGrammar.isTerminal place.1 = false ∧ place.1 ∉ operands
        ∨ place.1 = Nonterminal.binaryExpression.id
          ∧ ∃ t ∈ binaryTerminals, place.2.2 = [t.kind, Nonterminal.expression.id]))
      ∨ (isOperation place.1 place.2.1 = true ∧ place.2.2 = [])
      ∨ ∃ last ∈ place.2.1.getLast?, ∀ t ∈ unaryOperators ++ binaryTerminals, last ≠ t.kind := by
    decide +kernel
  generalize hStack : t.kind :: others = stack at h
  induction h with
  | start => simp at hStack
  | @within under after info front' back symbol tokens hUnder hMem hSymbols hBack ih =>
      have hPlace := mem_places hMem hSymbols
      rcases hSymbol with rfl | rfl
      · rcases hPlaces _ hPlace with ⟨hFirst, hKind⟩ | ⟨hOther, hNone⟩ | ⟨last, hLast, hNot⟩
        · replace hFirst : front' = [] := hFirst
          subst hFirst
          have hHere : t.kind :: others = under := hStack
          rcases hKind with ⟨hNonterminal, hNot⟩ | ⟨hBinary, other, hOther, hRest⟩
          · rw [← hHere] at hUnder
            rcases operand_behind_operator hOperator hUnder with hTerminal | hOperand
            · rw [hNonterminal] at hTerminal
              simp at hTerminal
            · exact absurd hOperand hNot
          · replace hRest : back = [other.kind, Nonterminal.expression.id] := hRest
            rw [hRest] at hBack
            obtain ⟨inner, rfl, hInner⟩ := hBack.of_terminal proper_theGrammar (isTerminal_kind other)
            obtain ⟨lhs, front, below, hOperation, hSame, hAfter⟩ := ih (.inr hBinary) hHere
            have hExpressions : lhs ∈ expressions := by
              rcases isOperation_iff.mp hOperation with ⟨rfl, -⟩ | ⟨rfl, -⟩ <;> decide
            exact ⟨lhs, front, below, hOperation, hSame,
              awaits_longer hOther hExpressions hAfter hInner⟩
        · replace hNone : back = [] := hNone
          subst hNone
          obtain rfl := hBack.eq_nil
          exact ⟨info.lhs, front', under, hOther, rfl, hUnder⟩
        · exfalso
          obtain ⟨init, hInit⟩ := List.getLast?_eq_some_iff.mp hLast
          replace hInit : front' = init ++ [last] := hInit
          rw [hInit] at hStack
          simp only [List.reverse_append, List.reverse_singleton, List.cons_append,
            List.cons.injEq] at hStack
          exact hNot t hOperator hStack.1.symm
      · have hOnly := hBinaryPlaces _ hPlace
        obtain ⟨hLhs, rfl, rfl⟩ : info.lhs = Nonterminal.expression.id ∧ front' = [] ∧ back = [] := by
          simpa using hOnly
        obtain rfl := hBack.eq_nil
        exact ih (.inl hLhs) hStack

/-- What is awaited inside the last operand of an operation is awaited behind the operation. -/
theorem awaits_around {lhs : SymbolId} {front : List SymbolId} (hOperation : isOperation lhs front = true)
    (hLhs : ∃ after, theGrammar.Awaits below lhs after)
    (h : theGrammar.Awaits (front.reverse ++ below) symbol rest)
    (hSymbol : symbol = Nonterminal.expression.id ∨ symbol = Nonterminal.binaryExpression.id) :
    theGrammar.Awaits below lhs rest := by
  have hShape := isOperation_iff.mp hOperation
  obtain ⟨t, hOperator, others, hFront⟩ : ∃ t ∈ unaryOperators ++ binaryTerminals, ∃ others,
      front.reverse ++ below = t.kind :: others := by
    rcases hShape with ⟨-, t, hMem, rfl⟩ | ⟨-, t, hMem, rfl⟩
    · exact ⟨t, List.mem_append_left _ hMem, below, rfl⟩
    · exact ⟨t, List.mem_append_right _ hMem, _, rfl⟩
  obtain ⟨lhs', front', below', hOther, hSame, hAfter⟩ := exists_operation hOperator (hFront ▸ h) hSymbol
  rw [← hFront] at hSame
  -- Both operations end with this operand, so they are the same one.
  rcases hShape with ⟨rfl, t, -, rfl⟩ | ⟨rfl, t, -, rfl⟩ <;>
    rcases isOperation_iff.mp hOther with ⟨rfl, u, -, rfl⟩ | ⟨rfl, u, -, rfl⟩
  · obtain ⟨-, rfl⟩ : _ ∧ below = below' := by simpa using hSame
    exact hAfter
  · obtain ⟨-, rfl⟩ : _ ∧ below = Nonterminal.expression.id :: below' := by simpa using hSame
    obtain ⟨after', hAfter'⟩ := hLhs
    exact absurd (isTerminal_behind_expression hAfter') (by decide)
  · obtain ⟨-, rfl⟩ : _ ∧ Nonterminal.expression.id :: below = below' := by simpa using hSame
    exact absurd (isTerminal_behind_expression hAfter) (by decide)
  · obtain ⟨-, rfl⟩ : _ ∧ below = below' := by simpa using hSame
    exact hAfter

end Operations

section Alternatives

/-- What an if statement has in front of its alternative. -/
def ifSymbols : List SymbolId := [
  Terminal.ifKeyword.kind, Terminal.leftParen.kind, Nonterminal.expression.id, Terminal.rightParen.kind,
  Nonterminal.statement.id]

/-- An alternative that follows a statement is followed by a statement of its own. -/
theorem absorb_alternative (hSymbol : symbol ∈ statements)
    (h : theGrammar.Awaits stack symbol (Terminal.elseKeyword.kind :: rest)) :
    ∃ inner after, rest = inner ++ after ∧ theGrammar.StandsFor [Nonterminal.statement.id] inner
      ∧ theGrammar.Awaits stack symbol after := by
  have hPlaces : ∀ symbol ∈ statements, ∀ place ∈ theGrammar.places symbol,
      (place.2.2 = [] ∧ (place.1 ∈ statements
        ∨ (follow place.1).contains Terminal.elseKeyword.kind = false))
        ∨ (place.2.2 = [Terminal.elseKeyword.kind, Nonterminal.statement.id]
          ∧ place.1 = Nonterminal.ifStatement.id ∧ place.2.1 ++ [symbol] = ifSymbols)
        ∨ ∃ first ∈ place.2.2.head?, theGrammar.isTerminal first = true
          ∧ first ≠ Terminal.elseKeyword.kind := by
    decide +kernel
  obtain ⟨short, hShort, hShortLhs, hShortSymbols⟩ :=
    @exists_rule Nonterminal.ifStatement.id ifSymbols (by decide +kernel)
  refine h.absorb proper_theGrammar following (K := (· ∈ statements)) (isTerminal_kind _) (by decide)
    ?_ hSymbol
  intro info hMem front symbol back hSymbols hIn
  rcases hPlaces symbol hIn _ (mem_places hMem hSymbols) with
    hLast | ⟨hBack, hLhs, hFront⟩ | ⟨first, hFirst, hTerminal, hOther⟩
  · exact .inl hLast
  · refine .inr (.inl ⟨hBack, fun below after hBelow => ?_⟩)
    replace hLhs : info.lhs = Nonterminal.ifStatement.id := hLhs
    rw [hLhs, ← hShortLhs] at hBelow
    exact hBelow.last hShort (hShortSymbols.trans hFront.symm)
  · cases back with
    | nil => simp at hFirst
    | cons head back =>
        obtain rfl : head = first := by simpa using hFirst
        exact .inr (.inr ⟨head, back, rfl, hTerminal, hOther⟩)

/-- Behind an if statement without an alternative, an alternative is awaited. -/
theorem awaits_alternative (h : theGrammar.Awaits stack Nonterminal.ifStatement.id rest)
    {inner : List SymbolId} (hInner : theGrammar.StandsFor [Nonterminal.statement.id] inner) :
    theGrammar.Awaits (ifSymbols.reverse ++ stack) Terminal.elseKeyword.kind (inner ++ rest) := by
  obtain ⟨info, hMem, hLhs, hSymbols⟩ := @exists_rule Nonterminal.ifStatement.id
    (ifSymbols ++ [Terminal.elseKeyword.kind, Nonterminal.statement.id]) (by decide +kernel)
  exact .within (hLhs ▸ h) hMem hSymbols hInner

end Alternatives
end IncrementalParsing.SysY
