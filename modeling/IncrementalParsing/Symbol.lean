/-!
Symbols of a grammar and what is known about them. Symbols are numbered densely, terminals first.
The first two terminals are the same in every grammar: the end of the input and the kind of the
nodes that wrap skipped input.
-/
namespace IncrementalParsing

/-- Number of a symbol in its grammar, and so the kind of a node. -/
abbrev SymbolId := Nat

/-- Number of a field, counted from one. -/
abbrev FieldId := Nat

/-- Number of a rule in its grammar. -/
abbrev RuleId := Nat

/-- Number of a state of the automaton. The automaton starts in state zero. -/
abbrev StateId := Nat

/-- The end of the input. -/
def endSymbol : SymbolId := 0

/-- The kind of nodes that wrap input the grammar has no place for. -/
def errorSymbol : SymbolId := 1

/-- Static properties of a symbol. -/
structure SymbolTraits where
  /-- The lexer produces it. -/
  terminal : Bool
  /-- It shows in S-expressions and counts as a named child. -/
  named : Bool
  /-- A nonterminal whose nodes are replaced by their children. -/
  hidden : Bool
  /-- The lexer's kind for input it cannot classify. No state accepts it. -/
  errorToken : Bool
deriving DecidableEq, Repr, Inhabited

namespace SymbolTraits

/-- No property at all. -/
def none : SymbolTraits := ⟨false, false, false, false⟩

/-- The properties as bits, terminal lowest. -/
def toBits (f : SymbolTraits) : Nat :=
  f.terminal.toNat + 2 * f.named.toNat + 4 * f.hidden.toNat + 8 * f.errorToken.toNat

/-- Reads the bits back. A number that sets any higher bit is refused. -/
def ofBits? (bits : Nat) : Option SymbolTraits :=
  if bits < 16 then
    some ⟨bits.testBit 0, bits.testBit 1, bits.testBit 2, bits.testBit 3⟩
  else Option.none

theorem ofBits?_toBits (f : SymbolTraits) : ofBits? f.toBits = some f := by
  obtain ⟨a, b, c, d⟩ := f
  cases a <;> cases b <;> cases c <;> cases d <;> rfl

end SymbolTraits

/-- Name and properties of one symbol. -/
structure SymbolEntry where
  name : String
  traits : SymbolTraits
deriving DecidableEq, Repr, Inhabited

/-- How operators of one level group. -/
inductive Assoc where
  | left
  | right
  | nonAssoc
deriving DecidableEq, Repr, Inhabited

/-- Binding strength of an operator. Higher levels bind tighter. -/
structure Precedence where
  level : Nat
  assoc : Assoc
deriving DecidableEq, Repr, Inhabited

/-- One place on the right of a rule: a symbol and the field its node gets there. -/
structure Slot where
  symbol : SymbolId
  field : Option FieldId
deriving DecidableEq, Repr, Inhabited

/-- A slot without a field. -/
def Slot.plain (symbol : SymbolId) : Slot := ⟨symbol, none⟩

/-- `lhs` derives the symbols of `rhs`. -/
structure Production where
  lhs : SymbolId
  rhs : List Slot
deriving DecidableEq, Repr, Inhabited

/-- The symbols of the right-hand side. -/
def Production.symbols (p : Production) : List SymbolId :=
  p.rhs.map (·.symbol)

end IncrementalParsing
