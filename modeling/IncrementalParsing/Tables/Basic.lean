import IncrementalParsing.Symbol

/-!
Parse tables: for every state and terminal what to do, for every state and nonterminal where to go
after a reduction, and what trees need to know about symbols and fields.
-/
namespace IncrementalParsing

/-- What a state does at a terminal. -/
inductive Action where
  | error
  | shift (state : StateId)
  | reduce (rule : RuleId)
  | accept
deriving DecidableEq, Repr, Inhabited

/-- Tables of a language. The actions of a state stand together, one for each terminal, and so do
its transitions on nonterminals. -/
structure Tables where
  name : String
  symbols : Array SymbolEntry
  fields : Array String
  terminalCount : Nat
  start : SymbolId
  rules : Array Production
  tokenPrecedence : Array (Option Precedence)
  stateCount : Nat
  actions : Array Action
  gotos : Array (Option StateId)
deriving DecidableEq, Repr

namespace Tables

def symbolCount (t : Tables) : Nat := t.symbols.size

def nonterminalCount (t : Tables) : Nat := t.symbols.size - t.terminalCount

def isTerminal (t : Tables) (symbol : SymbolId) : Bool := symbol < t.terminalCount

/-- A symbol without an entry has no properties. -/
def symbolTraits (t : Tables) (symbol : SymbolId) : SymbolTraits :=
  match t.symbols[symbol]? with
  | some info => info.traits
  | none => .none

/-- A symbol without an entry has an empty name. -/
def symbolName (t : Tables) (symbol : SymbolId) : String :=
  match t.symbols[symbol]? with
  | some info => info.name
  | none => ""

def isHidden (t : Tables) (symbol : SymbolId) : Bool := (t.symbolTraits symbol).hidden

def isNamed (t : Tables) (symbol : SymbolId) : Bool := (t.symbolTraits symbol).named

def isErrorToken (t : Tables) (symbol : SymbolId) : Bool := (t.symbolTraits symbol).errorToken

/-- Fields are counted from one. -/
def fieldName? (t : Tables) (field : FieldId) : Option String :=
  if field = 0 then none else t.fields[field - 1]?

/-- The precedence of a terminal. -/
def precedence? (t : Tables) (terminal : SymbolId) : Option Precedence :=
  t.tokenPrecedence[terminal]?.join

/-- What `state` does at `symbol`. Anything that is not a terminal is an error, and so is a cell
outside the table. -/
def action (t : Tables) (state : StateId) (symbol : SymbolId) : Action :=
  if t.isTerminal symbol then t.actions.getD (state * t.terminalCount + symbol) .error else .error

/-- Where `state` goes after a reduction to `symbol`. -/
def goto (t : Tables) (state : StateId) (symbol : SymbolId) : Option StateId :=
  if symbol < t.terminalCount then none
  else t.gotos[state * t.nonterminalCount + (symbol - t.terminalCount)]?.join

end Tables
end IncrementalParsing
