import IncrementalParsing.Symbol

/-!
A checked grammar: the input of table construction. Its symbols, fields and rules are numbered by
their place in the arrays that hold them.
-/
namespace IncrementalParsing

/-- A production that may carry the precedence of the operator it stands for. -/
structure Rule extends Production where
  precedence : Option Precedence
deriving DecidableEq, Repr, Inhabited

/-- A grammar with terminals first among its symbols and one precedence slot per terminal. -/
structure Grammar where
  name : String
  symbols : Array SymbolEntry
  fields : Array String
  terminalCount : Nat
  start : SymbolId
  rules : Array Rule
  tokenPrecedence : Array (Option Precedence)
deriving DecidableEq, Repr

/-- Why a description is not a grammar, or has no tables. -/
inductive GrammarFault where
  | duplicateSymbol (name : String)
  | terminalAfterNonterminal (name : String)
  | tooManySymbols (limit : Nat)
  | unknownSymbol (id : SymbolId)
  | unknownField (id : FieldId)
  | terminalRule (name : String)
  | reservedSymbol (name : String)
  | noRules (name : String)
  | missingStart
  | tooManyStates (limit : Nat)
deriving DecidableEq, Repr

/-- The report a user reads. -/
def GrammarFault.message : GrammarFault → String
  | duplicateSymbol name => s!"symbol `{name}` is declared twice"
  | terminalAfterNonterminal name => s!"terminal `{name}` declared after the first nonterminal"
  | tooManySymbols limit => s!"grammar declares more than {limit} symbols"
  | unknownSymbol id => s!"unknown symbol id {id}"
  | unknownField id => s!"unknown field id {id}"
  | terminalRule name => s!"`{name}` is a terminal and cannot appear on the left of a rule"
  | reservedSymbol name => s!"reserved symbol `{name}` cannot appear in a rule"
  | noRules name => s!"nonterminal `{name}` has no rules"
  | missingStart => "no start symbol was set"
  | tooManyStates limit => s!"automaton has more than {limit} states"

end IncrementalParsing
