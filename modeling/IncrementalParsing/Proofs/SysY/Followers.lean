import IncrementalParsing.Proofs.SysY.Description
import IncrementalParsing.Proofs.Tables.Disputes

/-! What may follow the symbols of SysY, and where its tables were left a choice: at binary operators
behind an operation, and at the alternative of an if statement. -/
namespace IncrementalParsing.SysY

/-- The binary operators. -/
def binaryTerminals : List Terminal := binaryOperators.map (·.1)

/-- What an expression may begin with. -/
def expressionStarts : List Terminal :=
  [.leftParen, .plus, .minus, .bang, .identifier, .decimalLiteral, .octalLiteral, .hexLiteral]

/-- What a statement may begin with. -/
def statementStarts : List Terminal :=
  [.semicolon, .leftBrace, .ifKeyword, .whileKeyword, .breakKeyword, .continueKeyword, .returnKeyword]
    ++ expressionStarts

/-- What an item of a file may begin with. -/
def itemStarts : List Terminal := [.constKeyword, .intKeyword, .voidKeyword]

/-- What a nonterminal may begin with. -/
def starters : Nonterminal → List Terminal
  | .sourceFile | .items | .item => itemStarts
  | .primitiveType | .functionDefinition | .parameters | .parameter | .varDeclaration =>
      [.intKeyword, .voidKeyword]
  | .parameterList | .argumentList | .parenthesizedExpression => [.leftParen]
  | .dimensions | .indices => [.leftBracket]
  | .constDeclaration => [.constKeyword]
  | .constDefinitions | .constDefinition | .varDefinitions | .varDefinition | .lvalue
  | .callExpression | .assignmentStatement => [.identifier]
  | .initializer | .initializers => .leftBrace :: expressionStarts
  | .initializerList | .block => [.leftBrace]
  | .blockItems | .blockItem => itemStarts ++ statementStarts
  | .statement => statementStarts
  | .expressionStatement => .semicolon :: expressionStarts
  | .ifStatement => [.ifKeyword]
  | .whileStatement => [.whileKeyword]
  | .breakStatement => [.breakKeyword]
  | .continueStatement => [.continueKeyword]
  | .returnStatement => [.returnKeyword]
  | .expression | .arguments | .binaryExpression => expressionStarts
  | .unaryExpression => [.plus, .minus, .bang]

/-- What may stand behind an item of a block. -/
def blockEnds : List Terminal := .rightBrace :: (itemStarts ++ statementStarts)

/-- What may stand behind an expression. -/
def expressionEnds : List Terminal :=
  [.semicolon, .rightParen, .rightBracket, .rightBrace, .comma] ++ binaryTerminals

/-- What may stand behind a nonterminal. -/
def followers : Nonterminal → List Terminal
  | .sourceFile => [.endOfInput]
  | .items | .item | .functionDefinition => .endOfInput :: itemStarts
  | .primitiveType => [.identifier]
  | .parameterList => [.leftBrace]
  | .parameters | .parameter | .arguments => [.rightParen, .comma]
  | .dimensions => [.semicolon, .rightParen, .comma, .leftBracket, .assign]
  | .constDeclaration | .varDeclaration => .endOfInput :: blockEnds
  | .constDefinitions | .constDefinition | .varDefinitions | .varDefinition => [.semicolon, .comma]
  | .initializer | .initializerList => [.semicolon, .rightBrace, .comma]
  | .initializers => [.rightBrace, .comma]
  | .block => .endOfInput :: .elseKeyword :: blockEnds
  | .blockItems | .blockItem => blockEnds
  | .statement | .assignmentStatement | .expressionStatement | .ifStatement | .whileStatement
  | .breakStatement | .continueStatement | .returnStatement => .elseKeyword :: blockEnds
  | .expression | .callExpression | .argumentList | .unaryExpression | .binaryExpression
  | .parenthesizedExpression => expressionEnds
  | .lvalue => .assign :: expressionEnds
  | .indices => .assign :: .leftBracket :: expressionEnds

/-- Terminals as a set of numbers. -/
def setOf (ts : List Terminal) : IdSet := ts.foldl (fun set t => set.insert t.kind) .empty

/-- What nonterminals begin with, as sets. Only a file may be empty. -/
def first : FirstSets where
  terminalCount := theGrammar.terminalCount
  nullable := (Array.replicate theGrammar.symbols.size false).setIfInBounds theGrammar.start true
  nonterminals := (Nonterminal.all.map fun n => setOf (starters n)).toArray

/-- What follows symbols, as sets. What follows a terminal is left open. -/
def follow (symbol : SymbolId) : IdSet :=
  if symbol < theGrammar.terminalCount then .below theGrammar.terminalCount
  else match Nonterminal.all[symbol - theGrammar.terminalCount]? with
    | some n => setOf (followers n)
    | none => .empty

/-- Where a shift and a reduction meet. An operation may be reduced in front of another operator, and
an if statement without an alternative in front of one. -/
def disputed (info : Rule) (terminal : SymbolId) : Bool :=
  ((info.lhs == Nonterminal.unaryExpression.id || info.lhs == Nonterminal.binaryExpression.id)
      && binaryTerminals.any (·.kind == terminal))
    || (info.lhs == Nonterminal.ifStatement.id && info.precedence == some elsePrecedence
      && terminal == Terminal.elseKeyword.kind)

/-- The written sets are those that the rules of the grammar ask for. -/
theorem following : theGrammar.Following follow :=
  @Grammar.following_of_check _ first _ (by decide +kernel) (by decide +kernel) (by decide +kernel)

example : (follow Nonterminal.ifStatement.id).contains Terminal.elseKeyword.kind = true := by
  decide +kernel

/-- Every precedence of the grammar takes a side. -/
theorem associates : theGrammar.Associates := by
  have hRules : ∀ info ∈ rules, ∀ precedence ∈ info.precedence, precedence.assoc ≠ .nonAssoc := by
    decide +kernel
  intro info hMem precedence hPrecedence
  exact hRules info (by simpa [theGrammar] using hMem) precedence hPrecedence

end IncrementalParsing.SysY
