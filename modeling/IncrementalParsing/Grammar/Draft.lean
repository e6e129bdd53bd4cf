import Std.Data.HashMap
import IncrementalParsing.Grammar.Basic

/-!
Step by step description of a grammar. Each step either extends the description or says why it
cannot, and a last check turns the description into a grammar.
-/
namespace IncrementalParsing

/-- A grammar under construction. -/
structure GrammarDraft where
  name : String
  symbols : Array SymbolEntry
  ids : Std.HashMap String SymbolId
  fields : Array String
  rules : Array Rule
  tokenPrecedence : Std.HashMap SymbolId Precedence
  start : Option SymbolId
  /-- Set by the first nonterminal; no terminal may follow. -/
  terminalCount : Option Nat

/-- A step of a description. A step that fails keeps what it had already recorded. -/
abbrev Describe := ExceptT GrammarFault (StateM GrammarDraft)

namespace GrammarDraft

/-- The largest number of symbols of a grammar. -/
def maxSymbols : Nat := 0x7FFF

/-- A description that holds only the two reserved terminals. -/
def empty (name : String) : GrammarDraft where
  name := name
  symbols := #[
    ⟨"end", { SymbolTraits.none with terminal := true }⟩,
    ⟨"ERROR", { SymbolTraits.none with terminal := true, named := true }⟩]
  ids := (Std.HashMap.emptyWithCapacity.insert "end" endSymbol).insert "ERROR" errorSymbol
  fields := #[]
  rules := #[]
  tokenPrecedence := .emptyWithCapacity
  start := none
  terminalCount := none

/-- The symbol declared under a name. -/
def symbol? (b : GrammarDraft) (name : String) : Option SymbolId :=
  b.ids[name]?

/-- Gives the next number to a new name. -/
def declare (name : String) (traits : SymbolTraits) : Describe SymbolId := do
  let b ← get
  if b.ids.contains name then throw (.duplicateSymbol name)
  if maxSymbols ≤ b.symbols.size then throw (.tooManySymbols maxSymbols)
  modify fun b =>
    { b with symbols := b.symbols.push ⟨name, traits⟩, ids := b.ids.insert name b.symbols.size }
  return b.symbols.size

/-- Terminals must all be declared before the first nonterminal. -/
def declareTerminal (name : String) (traits : SymbolTraits) : Describe SymbolId := do
  if (← get).terminalCount.isSome then throw (.terminalAfterNonterminal name)
  declare name traits

/-- Declares a terminal, which appears in S-expressions if it is named. -/
def terminal (name : String) (named : Bool) : Describe SymbolId :=
  declareTerminal name ⟨true, named, false, false⟩

/-- Declares a terminal for input the lexer cannot classify. -/
def errorTerminal (name : String) : Describe SymbolId :=
  declareTerminal name ⟨true, true, false, true⟩

/-- Declares a nonterminal, hidden if its name starts with an underscore. The set of terminals is
closed from then on, whether or not the name can be declared. -/
def nonterminal (name : String) : Describe SymbolId := do
  modify fun b => { b with terminalCount := some (b.terminalCount.getD b.symbols.size) }
  let hidden := name.startsWith "_"
  declare name ⟨false, !hidden, hidden, false⟩

/-- The number of a field, which is declared by its first use. -/
def field (name : String) : Describe FieldId := do
  let b ← get
  match b.fields.findIdx? (· == name) with
  | some index => return index + 1
  | none =>
      set { b with fields := b.fields.push name }
      return b.fields.size + 1

/-- Gives a terminal the precedence that decides its conflicts. -/
def setPrecedence (terminal : SymbolId) (precedence : Precedence) : Describe Unit :=
  modify fun b => { b with tokenPrecedence := b.tokenPrecedence.insert terminal precedence }

/-- Sets the start symbol, replacing an earlier choice. -/
def setStart (start : SymbolId) : Describe Unit :=
  modify fun b => { b with start := some start }

/-- What is wrong with one slot of a new rule, if anything. -/
def slotError? (b : GrammarDraft) (slot : Slot) : Option GrammarFault :=
  match b.symbols[slot.symbol]? with
  | none => some (.unknownSymbol slot.symbol)
  | some info =>
      if slot.symbol = endSymbol ∨ slot.symbol = errorSymbol then some (.reservedSymbol info.name)
      else match slot.field with
        | some field =>
            if field = 0 ∨ b.fields.size < field then some (.unknownField field) else none
        | none => none

/-- What is wrong with a new rule, if anything: first its left-hand side, then its slots in
order. -/
def ruleError? (b : GrammarDraft) (lhs : SymbolId) (rhs : List Slot) : Option GrammarFault :=
  match b.symbols[lhs]? with
  | none => some (.unknownSymbol lhs)
  | some info =>
      if info.traits.terminal then some (.terminalRule info.name)
      else rhs.findSome? b.slotError?

/-- Adds a rule, with the precedence that decides its conflicts if it has one. -/
def rule (lhs : SymbolId) (rhs : List Slot) (precedence : Option Precedence) : Describe Unit := do
  match (← get).ruleError? lhs rhs with
  | some error => throw error
  | none => modify fun b => { b with rules := b.rules.push ⟨⟨lhs, rhs⟩, precedence⟩ }

/-- The first nonterminal that no rule derives anything from. -/
def unproductive? (b : GrammarDraft) (terminalCount : Nat) : Option SymbolEntry :=
  (List.range' terminalCount (b.symbols.size - terminalCount)).findSome? fun id =>
    if b.rules.any (·.lhs == id) then none else b.symbols[id]?

/-- Checks the description. It must have a start symbol that is a nonterminal, and a rule for
every nonterminal. -/
def build (b : GrammarDraft) : Except GrammarFault Grammar := do
  let some start := b.start | throw .missingStart
  let terminalCount := b.terminalCount.getD b.symbols.size
  let some info := b.symbols[start]? | throw (.unknownSymbol start)
  if start < terminalCount then throw (.terminalRule info.name)
  if let some info := b.unproductive? terminalCount then throw (.noRules info.name)
  return {
    name := b.name
    symbols := b.symbols
    fields := b.fields
    terminalCount
    start
    rules := b.rules
    tokenPrecedence := (Array.range terminalCount).map (b.tokenPrecedence[·]?) }

/-- Runs a description from the beginning and checks its result. -/
def describe (name : String) (steps : Describe Unit) : Except GrammarFault Grammar :=
  match steps.run.run (empty name) with
  | (.error error, _) => .error error
  | (.ok _, b) => b.build

end GrammarDraft
end IncrementalParsing
