import IncrementalParsing.IdSet
import IncrementalParsing.Grammar.Basic

/-!
Which symbols derive the empty string, and which terminals can begin what a symbol derives. Both
are least fixed points over the rules: the analyses of a grammar all repeat one pass until it changes
nothing.
-/
namespace IncrementalParsing

/-- Applies `pass` until it changes nothing, at most `limit` times. -/
def saturate {α : Type} [DecidableEq α] (pass : α → α) : (limit : Nat) → α → α
  | 0, a => a
  | limit + 1, a =>
      let b := pass a
      if b = a then a else saturate pass limit b

/-- What holds at the beginning and survives a pass holds at the end. -/
theorem saturate_induction {α : Type} [DecidableEq α] {pass : α → α} {P : α → Prop}
    (hPass : ∀ a, P a → P (pass a)) (limit : Nat) (a : α) (hStart : P a) :
    P (saturate pass limit a) := by
  induction limit generalizing a with
  | zero => exact hStart
  | succ limit ih =>
      simp only [saturate]
      split
      · exact hStart
      · exact ih _ (hPass a hStart)

/-- Nullable symbols, and the FIRST sets of the nonterminals. -/
structure FirstSets where
  terminalCount : Nat
  nullable : Array Bool
  nonterminals : Array IdSet
deriving DecidableEq, Repr

namespace FirstSets

def isNullable (f : FirstSets) (symbol : SymbolId) : Bool :=
  f.nullable.getD symbol false

/-- The terminals that begin what a symbol derives. A terminal begins itself. -/
def ofSymbol (f : FirstSets) (symbol : SymbolId) : IdSet :=
  if symbol < f.terminalCount then .singleton symbol
  else f.nonterminals.getD (symbol - f.terminalCount) .empty

/-- The terminals that begin what a sequence derives, where `tail` stands behind the sequence. -/
def ofSequence (f : FirstSets) : List SymbolId → (tail : IdSet) → IdSet
  | [], tail => tail
  | symbol :: rest, tail =>
      if f.isNullable symbol then (f.ofSymbol symbol).union (f.ofSequence rest tail)
      else f.ofSymbol symbol

end FirstSets

namespace Grammar

def isTerminal (g : Grammar) (symbol : SymbolId) : Bool :=
  symbol < g.terminalCount

def nonterminalCount (g : Grammar) : Nat :=
  g.symbols.size - g.terminalCount

/-- Marks the left-hand sides of the rules whose symbols are all marked. -/
def nullablePass (g : Grammar) (nullable : Array Bool) : Array Bool :=
  g.rules.foldl (fun nullable rule =>
    if rule.symbols.all (nullable.getD · false) then nullable.setIfInBounds rule.lhs true
    else nullable) nullable

/-- Every pass but the last marks a symbol, so one pass more than there are symbols is enough. -/
def nullable (g : Grammar) : Array Bool :=
  saturate g.nullablePass (g.symbols.size + 1) (Array.replicate g.symbols.size false)

/-- Adds to each left-hand side what the right-hand sides can begin with. -/
def firstPass (g : Grammar) (f : FirstSets) : FirstSets :=
  g.rules.foldl (fun f rule =>
    { f with
      nonterminals := f.nonterminals.modify (rule.lhs - f.terminalCount) fun set =>
        set.union (f.ofSequence rule.symbols .empty) }) f

/-- Every pass but the last adds a terminal to some set. -/
def firstSets (g : Grammar) : FirstSets :=
  saturate g.firstPass (g.nonterminalCount * g.terminalCount + 1)
    ⟨g.terminalCount, g.nullable, Array.replicate g.nonterminalCount .empty⟩

end Grammar
end IncrementalParsing
