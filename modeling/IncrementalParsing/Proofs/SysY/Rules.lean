import IncrementalParsing.Proofs.Grammar.Grounded
import IncrementalParsing.Proofs.SysY.Operators

/-! What is read off the list of the rules of SysY: which symbols may lead to themselves or to nothing,
which are hidden, and some of the files that the rules make up. -/
namespace IncrementalParsing.SysY

theorem le_lhs : ∀ info ∈ theGrammar.rules, Terminal.all.length ≤ info.lhs := by
  have hRules : ∀ info ∈ rules, Terminal.all.length ≤ info.lhs := by decide +kernel
  exact of_rules hRules

/-- Symbols that are marked as invalid tokens are terminals, and not reserved. -/
theorem isTerminal_of_errorToken {symbol : SymbolId}
    (hToken : (symbols[symbol]?.elim SymbolTraits.none (·.traits)).errorToken = true) :
    errorSymbol < symbol ∧ theGrammar.isTerminal symbol = true := by
  have hAll : ∀ k < symbols.length, (symbols[k]?.elim SymbolTraits.none (·.traits)).errorToken = true →
      errorSymbol < k ∧ theGrammar.isTerminal k = true := by
    decide +kernel
  refine hAll symbol (Nat.lt_of_not_le fun hLarge => ?_) hToken
  rw [List.getElem?_eq_none hLarge] at hToken
  exact Bool.false_ne_true hToken

/-- Symbols by how many single symbols may lead to them. -/
def rank (symbol : SymbolId) : Nat :=
  match Nonterminal.all[symbol - theGrammar.terminalCount]? with
  | some n =>
      if symbol < theGrammar.terminalCount then 4
      else if n ∈ [.sourceFile, .initializers, .arguments, .blockItems, .parameters, .constDefinitions,
        .varDefinitions] then 0
      else if n ∈ [.items, .initializer, .blockItem] then 1
      else if n ∈ [.item, .expression, .statement] then 2
      else 3
  | none => 4

theorem grounded_theGrammar : theGrammar.Grounded := by
  have hSolid : ∀ info ∈ rules, ∀ symbol ∈ info.symbols, ∀ other ∈ rules, other.lhs = symbol →
      other.symbols ≠ [] := by
    decide +kernel
  have hRank : ∀ info ∈ rules, info.symbols.length = 1 → ∀ only ∈ info.symbols,
      rank info.lhs < rank only := by
    decide +kernel
  refine Grammar.grounded_of_rank (fun info hMem symbol hSymbol other hOther => ?_)
    (of_rules hRank)
  exact of_rules (hSolid info (by simpa [theGrammar] using hMem) symbol hSymbol) other hOther

/-- The start symbol stands in no rule, and is the only one that may be empty. -/
theorem start_theGrammar : (∀ info ∈ theGrammar.rules, info.symbols = [] → info.lhs = theGrammar.start)
    ∧ ∀ info ∈ theGrammar.rules, theGrammar.start ∉ info.symbols := by
  have hEmpty : ∀ info ∈ rules, info.symbols = [] → info.lhs = theGrammar.start := by decide +kernel
  have hAbsent : ∀ info ∈ rules, theGrammar.start ∉ info.symbols := by decide +kernel
  exact ⟨of_rules hEmpty, of_rules hAbsent⟩

/-- Hidden nodes over one node. -/
def wrappers : List SymbolId := [Nonterminal.expression.id, Nonterminal.statement.id]

/-- Operations, and the statements that may end with a statement. -/
def nesters : List SymbolId := [
  Nonterminal.unaryExpression.id, Nonterminal.binaryExpression.id, Nonterminal.ifStatement.id,
  Nonterminal.whileStatement.id]

/-- The symbols whose nodes have a shape to be told. -/
def shapely : List SymbolId := wrappers ++ nesters

theorem hidden_wrappers : ∀ kind ∈ wrappers,
    (symbols[kind]?.elim SymbolTraits.none (·.traits)).hidden = true := by
  decide +kernel

/-- Operations and statements that may end with a statement show, and all that is hidden in them wraps
one node. -/
theorem shown_nesters : ∀ info ∈ theGrammar.rules, info.lhs ∈ nesters →
    (symbols[info.lhs]?.elim SymbolTraits.none (·.traits)).hidden = false
      ∧ ∀ symbol ∈ info.symbols,
        (symbols[symbol]?.elim SymbolTraits.none (·.traits)).hidden = true → symbol ∈ wrappers := by
  have hRules : ∀ info ∈ rules, info.lhs ∈ nesters →
      (symbols[info.lhs]?.elim SymbolTraits.none (·.traits)).hidden = false
        ∧ ∀ symbol ∈ info.symbols,
          (symbols[symbol]?.elim SymbolTraits.none (·.traits)).hidden = true → symbol ∈ wrappers := by
    decide +kernel
  exact of_rules hRules

/-- The rules of SysY, told apart by the shapes they make. -/
inductive Form : Rule → Prop
  | binary {operator : Terminal} {level : Nat} (hOperator : (operator, level) ∈ binaryOperators) :
      Form { plainRule .binaryExpression [as .left (sub .expression), as .operator (tok operator),
        as .right (sub .expression)] with precedence := some ⟨level, .left⟩ }
  | unary {operator : Terminal} (hOperator : operator ∈ unaryOperators) :
      Form { plainRule .unaryExpression [as .operator (tok operator), as .argument (sub .expression)]
        with precedence := some unaryPrecedence }
  | bare : Form { plainRule .ifStatement ifHead with precedence := some elsePrecedence }
  | alternative :
      Form (plainRule .ifStatement (ifHead ++ [tok .elseKeyword, as .alternative (sub .statement)]))
  | loop : Form (plainRule .whileStatement [tok .whileKeyword, tok .leftParen,
      as .condition (sub .expression), tok .rightParen, as .body (sub .statement)])
  | wrapper {info : Rule} {only : SymbolId} (hLhs : info.lhs ∈ wrappers)
      (hSymbols : info.rhs = [.plain only])
      (hShown : (symbols[only]?.elim SymbolTraits.none (·.traits)).hidden = false) : Form info
  | other {info : Rule} (hLhs : info.lhs ∉ shapely) : Form info

theorem form_of_mem {info : Rule} (hMem : info ∈ theGrammar.rules) : Form info := by
  have hRules : ∀ info ∈ rules,
      (∃ operator ∈ binaryOperators, info = { plainRule .binaryExpression [as .left (sub .expression),
        as .operator (tok operator.1), as .right (sub .expression)] with
          precedence := some ⟨operator.2, .left⟩ })
      ∨ (∃ operator ∈ unaryOperators, info = { plainRule .unaryExpression [as .operator (tok operator),
        as .argument (sub .expression)] with precedence := some unaryPrecedence })
      ∨ info = { plainRule .ifStatement ifHead with precedence := some elsePrecedence }
      ∨ info = plainRule .ifStatement (ifHead ++ [tok .elseKeyword, as .alternative (sub .statement)])
      ∨ info = plainRule .whileStatement [tok .whileKeyword, tok .leftParen,
        as .condition (sub .expression), tok .rightParen, as .body (sub .statement)]
      ∨ (info.lhs ∈ wrappers ∧ ∃ slot ∈ info.rhs, info.rhs = [.plain slot.symbol]
        ∧ (symbols[slot.symbol]?.elim SymbolTraits.none (·.traits)).hidden = false)
      ∨ info.lhs ∉ shapely := by
    decide +kernel
  rcases of_rules hRules info hMem with
    ⟨⟨operator, level⟩, hOperator, rfl⟩ | ⟨operator, hOperator, rfl⟩ | rfl | rfl
    | rfl | ⟨hLhs, slot, -, hSymbols, hShown⟩ | hLhs
  · exact .binary hOperator
  · exact .unary hOperator
  · exact .bare
  · exact .alternative
  · exact .loop
  · exact .wrapper hLhs hSymbols hShown
  · exact .other hLhs

theorem standsFor_of_rule {lhs : SymbolId} {form tokens : List SymbolId}
    (hRule : (rules.any fun r => r.lhs == lhs && r.symbols == form) = true)
    (hForm : theGrammar.StandsFor form tokens) : theGrammar.StandsFor [lhs] tokens := by
  obtain ⟨info, hMem, rfl, rfl⟩ := exists_rule hRule
  exact .rule hMem hForm

/-- A declaration is a source file. -/
theorem derives_declaration : theGrammar.Derives [Nonterminal.sourceFile.id]
    [Terminal.intKeyword.kind, Terminal.identifier.kind, Terminal.semicolon.kind] := by
  have hType : theGrammar.StandsFor [Nonterminal.primitiveType.id] [Terminal.intKeyword.kind] :=
    standsFor_of_rule (by decide +kernel) (.terminal (isTerminal_kind _))
  have hDefinition : theGrammar.StandsFor [Nonterminal.varDefinition.id] [Terminal.identifier.kind] :=
    standsFor_of_rule (by decide +kernel) (.terminal (isTerminal_kind _))
  have hDefinitions : theGrammar.StandsFor [Nonterminal.varDefinitions.id] [Terminal.identifier.kind] :=
    standsFor_of_rule (by decide +kernel) hDefinition
  have hDeclaration : theGrammar.StandsFor [Nonterminal.varDeclaration.id] _ :=
    standsFor_of_rule (by decide +kernel)
      (hType.append (hDefinitions.append (.terminal (isTerminal_kind .semicolon))))
  have hItem : theGrammar.StandsFor [Nonterminal.item.id] _ :=
    standsFor_of_rule (by decide +kernel) hDeclaration
  have hItems : theGrammar.StandsFor [Nonterminal.items.id] _ :=
    standsFor_of_rule (by decide +kernel) hItem
  have hFile : theGrammar.StandsFor [Nonterminal.sourceFile.id] _ :=
    standsFor_of_rule (by decide +kernel) hItems
  obtain ⟨_, hYields⟩ := hFile
  exact hYields.derives

/-- A sum of a number and a product is an initial value. -/
theorem standsFor_sum : theGrammar.StandsFor [Nonterminal.sourceFile.id]
    ([.intKeyword, .identifier, .assign, .decimalLiteral, .plus, .decimalLiteral, .star, .decimalLiteral,
      .semicolon].map Terminal.kind) := by
  have hType : theGrammar.StandsFor [Nonterminal.primitiveType.id] [Terminal.intKeyword.kind] :=
    standsFor_of_rule (by decide +kernel) (.terminal (isTerminal_kind _))
  have hNumber : theGrammar.StandsFor [Nonterminal.expression.id] [Terminal.decimalLiteral.kind] :=
    standsFor_of_rule (by decide +kernel) (.terminal (isTerminal_kind _))
  have hOperation : ∀ operator ∈ [Terminal.plus, Terminal.star], ∀ tokens,
      theGrammar.StandsFor [Nonterminal.expression.id] tokens → theGrammar.StandsFor
        [Nonterminal.expression.id] (Terminal.decimalLiteral.kind :: operator.kind :: tokens) := by
    have hRules : ∀ operator ∈ [Terminal.plus, Terminal.star], (rules.any fun r =>
        r.lhs == Nonterminal.binaryExpression.id && r.symbols
          == [Nonterminal.expression.id, operator.kind, Nonterminal.expression.id]) = true := by
      decide +kernel
    intro operator hMem tokens hTokens
    exact standsFor_of_rule (by decide +kernel) (standsFor_of_rule (hRules operator hMem)
      (hNumber.append ((Grammar.StandsFor.terminal (isTerminal_kind operator)).append hTokens)))
  have hValue : theGrammar.StandsFor [Nonterminal.initializer.id] _ :=
    standsFor_of_rule (by decide +kernel)
      (hOperation .plus (by decide) _ (hOperation .star (by decide) _ hNumber))
  have hDefinition : theGrammar.StandsFor [Nonterminal.varDefinition.id] _ :=
    standsFor_of_rule (by decide +kernel) ((Grammar.StandsFor.terminal (isTerminal_kind .identifier)).append
      ((Grammar.StandsFor.terminal (isTerminal_kind .assign)).append hValue))
  have hDefinitions : theGrammar.StandsFor [Nonterminal.varDefinitions.id] _ :=
    standsFor_of_rule (by decide +kernel) hDefinition
  have hDeclaration : theGrammar.StandsFor [Nonterminal.varDeclaration.id] _ :=
    standsFor_of_rule (by decide +kernel)
      (hType.append (hDefinitions.append (.terminal (isTerminal_kind .semicolon))))
  have hItem : theGrammar.StandsFor [Nonterminal.item.id] _ :=
    standsFor_of_rule (by decide +kernel) hDeclaration
  have hItems : theGrammar.StandsFor [Nonterminal.items.id] _ :=
    standsFor_of_rule (by decide +kernel) hItem
  exact standsFor_of_rule (by decide +kernel) hItems

end IncrementalParsing.SysY
