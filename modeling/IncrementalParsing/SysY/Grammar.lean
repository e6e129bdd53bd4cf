import IncrementalParsing.Grammar.Draft
import IncrementalParsing.SysY.Terminal

/-!
The grammar of SysY. Nonterminals whose names start with an underscore are hidden, so lists and
alternatives do not make tree levels. Binary operators and the dangling alternative of an if
statement are settled by precedence.
-/
namespace IncrementalParsing.SysY

/-- The nonterminals in the order of their numbers, which follow those of the terminals. -/
inductive Nonterminal where
  | sourceFile
  | items
  | item
  | primitiveType
  | functionDefinition
  | parameterList
  | parameters
  | parameter
  | dimensions
  | constDeclaration
  | constDefinitions
  | constDefinition
  | varDeclaration
  | varDefinitions
  | varDefinition
  | initializer
  | initializerList
  | initializers
  | block
  | blockItems
  | blockItem
  | statement
  | assignmentStatement
  | expressionStatement
  | ifStatement
  | whileStatement
  | breakStatement
  | continueStatement
  | returnStatement
  | expression
  | lvalue
  | indices
  | callExpression
  | argumentList
  | arguments
  | unaryExpression
  | binaryExpression
  | parenthesizedExpression
deriving DecidableEq, Repr, Inhabited

namespace Nonterminal

/-- All nonterminals in the order of their numbers. -/
def all : List Nonterminal := [
  sourceFile, items, item, primitiveType, functionDefinition, parameterList, parameters,
  parameter, dimensions, constDeclaration, constDefinitions, constDefinition, varDeclaration,
  varDefinitions, varDefinition, initializer, initializerList, initializers, block, blockItems,
  blockItem, statement, assignmentStatement, expressionStatement, ifStatement, whileStatement,
  breakStatement, continueStatement, returnStatement, expression, lvalue, indices,
  callExpression, argumentList, arguments, unaryExpression, binaryExpression,
  parenthesizedExpression]

/-- The name of a nonterminal. -/
def name : Nonterminal → String
  | sourceFile => "source_file"
  | items => "_items"
  | item => "_item"
  | primitiveType => "primitive_type"
  | functionDefinition => "function_definition"
  | parameterList => "parameter_list"
  | parameters => "_parameters"
  | parameter => "parameter"
  | dimensions => "_dimensions"
  | constDeclaration => "const_declaration"
  | constDefinitions => "_const_definitions"
  | constDefinition => "const_definition"
  | varDeclaration => "var_declaration"
  | varDefinitions => "_var_definitions"
  | varDefinition => "var_definition"
  | initializer => "_initializer"
  | initializerList => "initializer_list"
  | initializers => "_initializers"
  | block => "block"
  | blockItems => "_block_items"
  | blockItem => "_block_item"
  | statement => "_statement"
  | assignmentStatement => "assignment_statement"
  | expressionStatement => "expression_statement"
  | ifStatement => "if_statement"
  | whileStatement => "while_statement"
  | breakStatement => "break_statement"
  | continueStatement => "continue_statement"
  | returnStatement => "return_statement"
  | expression => "_expression"
  | lvalue => "lvalue"
  | indices => "_indices"
  | callExpression => "call_expression"
  | argumentList => "argument_list"
  | arguments => "_arguments"
  | unaryExpression => "unary_expression"
  | binaryExpression => "binary_expression"
  | parenthesizedExpression => "parenthesized_expression"

/-- The number of a nonterminal. -/
def id (n : Nonterminal) : SymbolId := Terminal.all.length + n.ctorIdx

end Nonterminal

/-- The parts that nodes play, in the order of their numbers. -/
inductive Field where
  | type
  | name
  | parameters
  | body
  | dimension
  | value
  | left
  | right
  | operator
  | argument
  | condition
  | consequence
  | alternative
  | index
  | function
  | arguments
deriving DecidableEq, Repr, Inhabited

namespace Field

/-- All fields in the order of their numbers. -/
def all : List Field := [
  type, name, parameters, body, dimension, value, left, right, operator, argument, condition,
  consequence, alternative, index, function, arguments]

/-- How a field is called. -/
def label : Field → String
  | type => "type"
  | name => "name"
  | parameters => "parameters"
  | body => "body"
  | dimension => "dimension"
  | value => "value"
  | left => "left"
  | right => "right"
  | operator => "operator"
  | argument => "argument"
  | condition => "condition"
  | consequence => "consequence"
  | alternative => "alternative"
  | index => "index"
  | function => "function"
  | arguments => "arguments"

/-- The number of a field. -/
def id (f : Field) : FieldId := f.ctorIdx + 1

end Field

/-- A slot with a terminal. -/
def tok (t : Terminal) : Slot := .plain t.kind

/-- A slot with a nonterminal. -/
def sub (n : Nonterminal) : Slot := .plain n.id

/-- A slot in a field. -/
def as (f : Field) (slot : Slot) : Slot := { slot with field := some f.id }

/-- The binary operators with their levels, loosest first. -/
def binaryOperators : List (Terminal × Nat) := [
  (.orOr, 1), (.andAnd, 2), (.equal, 3), (.notEqual, 3), (.less, 4), (.greater, 4),
  (.lessEqual, 4), (.greaterEqual, 4), (.plus, 5), (.minus, 5), (.star, 6), (.slash, 6),
  (.percent, 6)]

/-- The unary operators, which bind tighter than the binary ones. -/
def unaryOperators : List Terminal := [.plus, .minus, .bang]

/-- Unary operators bind tightest. -/
def unaryPrecedence : Precedence := ⟨7, .right⟩

/-- An alternative belongs to the nearest if. -/
def elsePrecedence : Precedence := ⟨0, .right⟩

/-- A rule without precedence. -/
def plainRule (lhs : Nonterminal) (rhs : List Slot) : Rule := ⟨⟨lhs.id, rhs⟩, none⟩

/-- One rule for each of several slots. -/
def alternatives (lhs : Nonterminal) (slots : List Slot) : List Rule :=
  slots.map fun slot => plainRule lhs [slot]

/-- Files and their items. -/
def fileRules : List Rule := [
    plainRule .sourceFile [],
    plainRule .sourceFile [sub .items],
    plainRule .items [sub .items, sub .item],
    plainRule .items [sub .item]]
  ++ alternatives .item [sub .functionDefinition, sub .constDeclaration, sub .varDeclaration]
  ++ alternatives .primitiveType [tok .intKeyword, tok .voidKeyword]

/-- What a parameter starts with. -/
def parameterHead : List Slot :=
  [as .type (sub .primitiveType), as .name (tok .identifier)]

/-- Functions and their parameters. -/
def functionRules : List Rule := [
  plainRule .functionDefinition [
    as .type (sub .primitiveType), as .name (tok .identifier),
    as .parameters (sub .parameterList), as .body (sub .block)],
  plainRule .parameterList [tok .leftParen, tok .rightParen],
  plainRule .parameterList [tok .leftParen, sub .parameters, tok .rightParen],
  plainRule .parameters [sub .parameters, tok .comma, sub .parameter],
  plainRule .parameters [sub .parameter],
  plainRule .parameter parameterHead,
  plainRule .parameter (parameterHead ++ [tok .leftBracket, tok .rightBracket]),
  plainRule .parameter
    (parameterHead ++ [tok .leftBracket, tok .rightBracket, sub .dimensions]),
  plainRule .dimensions [
    sub .dimensions, tok .leftBracket, as .dimension (sub .expression), tok .rightBracket],
  plainRule .dimensions [
    tok .leftBracket, as .dimension (sub .expression), tok .rightBracket]]

/-- Declarations of constants and variables. -/
def declarationRules : List Rule := [
  plainRule .constDeclaration [
    tok .constKeyword, as .type (sub .primitiveType), sub .constDefinitions, tok .semicolon],
  plainRule .constDefinitions [sub .constDefinitions, tok .comma, sub .constDefinition],
  plainRule .constDefinitions [sub .constDefinition],
  plainRule .constDefinition [
    as .name (tok .identifier), tok .assign, as .value (sub .initializer)],
  plainRule .constDefinition [
    as .name (tok .identifier), sub .dimensions, tok .assign, as .value (sub .initializer)],
  plainRule .varDeclaration [
    as .type (sub .primitiveType), sub .varDefinitions, tok .semicolon],
  plainRule .varDefinitions [sub .varDefinitions, tok .comma, sub .varDefinition],
  plainRule .varDefinitions [sub .varDefinition],
  plainRule .varDefinition [as .name (tok .identifier)],
  plainRule .varDefinition [as .name (tok .identifier), sub .dimensions],
  plainRule .varDefinition [
    as .name (tok .identifier), tok .assign, as .value (sub .initializer)],
  plainRule .varDefinition [
    as .name (tok .identifier), sub .dimensions, tok .assign, as .value (sub .initializer)],
  plainRule .initializer [sub .expression],
  plainRule .initializer [sub .initializerList],
  plainRule .initializerList [tok .leftBrace, tok .rightBrace],
  plainRule .initializerList [tok .leftBrace, sub .initializers, tok .rightBrace],
  plainRule .initializers [sub .initializers, tok .comma, sub .initializer],
  plainRule .initializers [sub .initializer]]

/-- What an if statement has in any case. -/
def ifHead : List Slot := [
  tok .ifKeyword, tok .leftParen, as .condition (sub .expression), tok .rightParen,
  as .consequence (sub .statement)]

/-- Blocks and statements. -/
def statementRules : List Rule := [
    plainRule .block [tok .leftBrace, tok .rightBrace],
    plainRule .block [tok .leftBrace, sub .blockItems, tok .rightBrace],
    plainRule .blockItems [sub .blockItems, sub .blockItem],
    plainRule .blockItems [sub .blockItem]]
  ++ alternatives .blockItem [sub .constDeclaration, sub .varDeclaration, sub .statement]
  ++ alternatives .statement [
    sub .assignmentStatement, sub .expressionStatement, sub .block, sub .ifStatement,
    sub .whileStatement, sub .breakStatement, sub .continueStatement, sub .returnStatement]
  ++ [
    plainRule .assignmentStatement [
      as .left (sub .lvalue), tok .assign, as .right (sub .expression), tok .semicolon],
    plainRule .expressionStatement [sub .expression, tok .semicolon],
    plainRule .expressionStatement [tok .semicolon],
    { plainRule .ifStatement ifHead with precedence := some elsePrecedence },
    plainRule .ifStatement (ifHead ++ [tok .elseKeyword, as .alternative (sub .statement)]),
    plainRule .whileStatement [
      tok .whileKeyword, tok .leftParen, as .condition (sub .expression), tok .rightParen,
      as .body (sub .statement)],
    plainRule .breakStatement [tok .breakKeyword, tok .semicolon],
    plainRule .continueStatement [tok .continueKeyword, tok .semicolon],
    plainRule .returnStatement [
      tok .returnKeyword, as .value (sub .expression), tok .semicolon],
    plainRule .returnStatement [tok .returnKeyword, tok .semicolon]]

/-- Expressions. -/
def expressionRules : List Rule :=
  alternatives .expression [
    sub .binaryExpression, sub .unaryExpression, sub .callExpression, sub .lvalue,
    sub .parenthesizedExpression, tok .decimalLiteral, tok .octalLiteral, tok .hexLiteral]
  ++ [
    plainRule .lvalue [as .name (tok .identifier)],
    plainRule .lvalue [as .name (tok .identifier), sub .indices],
    plainRule .indices [
      sub .indices, tok .leftBracket, as .index (sub .expression), tok .rightBracket],
    plainRule .indices [tok .leftBracket, as .index (sub .expression), tok .rightBracket],
    plainRule .callExpression [
      as .function (tok .identifier), as .arguments (sub .argumentList)],
    plainRule .argumentList [tok .leftParen, tok .rightParen],
    plainRule .argumentList [tok .leftParen, sub .arguments, tok .rightParen],
    plainRule .arguments [sub .arguments, tok .comma, sub .expression],
    plainRule .arguments [sub .expression]]
  ++ unaryOperators.map (fun t =>
    { plainRule .unaryExpression [as .operator (tok t), as .argument (sub .expression)] with
      precedence := some unaryPrecedence })
  ++ binaryOperators.map (fun (t, level) =>
    { plainRule .binaryExpression [
        as .left (sub .expression), as .operator (tok t), as .right (sub .expression)] with
      precedence := some ⟨level, .left⟩ })
  ++ [plainRule .parenthesizedExpression [tok .leftParen, sub .expression, tok .rightParen]]

/-- All rules in the order of their numbers. -/
def rules : List Rule :=
  fileRules ++ functionRules ++ declarationRules ++ statementRules ++ expressionRules

/-- The name of the language. -/
def languageName : String := "sysy"

open GrammarDraft in
/-- The description of the grammar, step by step. -/
def description : Describe Unit := do
  for t in Terminal.all.drop 2 do
    let _ ← if t.isInvalid then errorTerminal t.name else terminal t.name t.isNamed
  for n in Nonterminal.all do
    let _ ← nonterminal n.name
  for f in Field.all do
    let _ ← field f.label
  for (t, level) in binaryOperators do
    setPrecedence t.kind ⟨level, .left⟩
  setPrecedence Terminal.elseKeyword.kind elsePrecedence
  for r in rules do
    rule r.lhs r.rhs r.precedence
  setStart Nonterminal.sourceFile.id

/-- The grammar. -/
def grammar : Except GrammarFault Grammar := GrammarDraft.describe languageName description

end IncrementalParsing.SysY
