import IncrementalParsing.Grammar.First

/-!
Items of the LR automaton: a rule with a mark in its right-hand side. The grammar gets one more
rule, which derives its start symbol and whose completion accepts the input.
-/
namespace IncrementalParsing

/-- A rule of which the first `dot` symbols have been seen. -/
structure Item where
  rule : RuleId
  dot : Nat
deriving DecidableEq, Repr, Inhabited, Hashable

/-- The items that a state is made from, in increasing order. -/
abbrev Kernel := List Item

namespace Item

/-- By rule, then by how far the item has come. -/
def le (a b : Item) : Bool :=
  a.rule < b.rule || (a.rule == b.rule && a.dot ≤ b.dot)

/-- The item after one more symbol. -/
def advance (item : Item) : Item := ⟨item.rule, item.dot + 1⟩

end Item

/-- A grammar prepared for the construction of its automaton. The right-hand sides are indexed by
rule, with that of the added rule last, and the rules are listed by left-hand side. -/
structure Augmented where
  terminalCount : Nat
  symbolCount : Nat
  first : FirstSets
  rhs : Array (Array SymbolId)
  rulesOf : Array (Array RuleId)

namespace Augmented

def ofGrammar (g : Grammar) : Augmented where
  terminalCount := g.terminalCount
  symbolCount := g.symbols.size
  first := g.firstSets
  rhs := (g.rules.map (·.symbols.toArray)).push #[g.start]
  rulesOf := (g.rules.zipIdx).foldl (fun lists (rule, index) => lists.modify rule.lhs (·.push index))
    (Array.replicate g.symbols.size #[])

/-- The added rule. -/
def startRule (a : Augmented) : RuleId := a.rhs.size - 1

def isTerminal (a : Augmented) (symbol : SymbolId) : Bool := symbol < a.terminalCount

def symbolsOf (a : Augmented) (rule : RuleId) : Array SymbolId := a.rhs.getD rule #[]

/-- The symbol behind the mark. -/
def next? (a : Augmented) (item : Item) : Option SymbolId := (a.symbolsOf item.rule)[item.dot]?

/-- The symbols behind the next one. -/
def rest (a : Augmented) (item : Item) : List SymbolId :=
  ((a.symbolsOf item.rule).extract (item.dot + 1)).toList

/-- Nothing is left behind the mark. -/
def isComplete (a : Augmented) (item : Item) : Bool := (a.next? item).isNone

/-- The rules of a symbol, from their beginning. -/
def expansions (a : Augmented) (symbol : SymbolId) : List Item :=
  ((a.rulesOf.getD symbol #[]).map (⟨·, 0⟩)).toList

end Augmented
end IncrementalParsing
