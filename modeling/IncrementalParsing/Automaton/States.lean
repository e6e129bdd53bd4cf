import Std.Data.HashMap
import IncrementalParsing.Automaton.Item

/-!
The states of the automaton and the transitions between them, without lookahead. States are
numbered in the order in which they are found, the successors of one state by increasing symbol.
-/
namespace IncrementalParsing

/-- The states found so far. The transitions of the first states are known, by increasing symbol. -/
structure Automaton where
  kernels : Array Kernel
  numbers : Std.HashMap Kernel StateId
  transitions : Array (List (SymbolId × StateId))

namespace Augmented

/-- The items that a kernel stands for: itself and the expansions of every nonterminal behind a
mark. Each nonterminal is expanded once, so every item is visited at most once. -/
def closure (a : Augmented) (kernel : Kernel) : List Item :=
  go (kernel.length + a.rhs.size) .empty kernel []
where
  go : (limit : Nat) → (expanded : IdSet) → (todo found : List Item) → List Item
  | 0, _, _, found => found
  | _, _, [], found => found
  | limit + 1, expanded, item :: todo, found =>
      match a.next? item with
      | some symbol =>
          if a.isTerminal symbol || expanded.contains (symbol - a.terminalCount) then
            go limit expanded todo (item :: found)
          else
            go limit (expanded.insert (symbol - a.terminalCount)) (a.expansions symbol ++ todo)
              (item :: found)
      | none => go limit expanded todo (item :: found)

/-- By symbol, then by item. -/
def moveLe (x y : SymbolId × Item) : Bool :=
  x.1 < y.1 || (x.1 == y.1 && x.2.le y.2)

/-- Collects the items of each symbol of a sorted list, each item once. -/
def group : List (SymbolId × Item) → List (SymbolId × Kernel)
  | [] => []
  | (symbol, item) :: rest =>
      match group rest with
      | (other, kernel) :: more =>
          if symbol ≠ other then (symbol, [item]) :: (other, kernel) :: more
          else if kernel.head? = some item then (other, kernel) :: more
          else (symbol, item :: kernel) :: more
      | [] => [(symbol, [item])]

/-- The kernels reached from a kernel, by increasing symbol. -/
def successors (a : Augmented) (kernel : Kernel) : List (SymbolId × Kernel) :=
  group ((((a.closure kernel).filterMap fun item =>
    (a.next? item).map fun symbol => (symbol, item.advance))).mergeSort moveLe)

end Augmented

namespace Automaton

/-- The largest number of states, so that every state number fits its cell. -/
def maxStates : Nat := 65534

/-- The state before anything has been read. -/
def initial (a : Augmented) : Automaton :=
  let kernel := [⟨a.startRule, 0⟩]
  ⟨#[kernel], Std.HashMap.emptyWithCapacity.insert kernel 0, #[]⟩

/-- The number of a kernel, a new one if the kernel has not been seen. -/
def numberOf (m : Automaton) (kernel : Kernel) : StateId × Automaton :=
  match m.numbers[kernel]? with
  | some state => (state, m)
  | none =>
      (m.kernels.size,
        { m with
          kernels := m.kernels.push kernel
          numbers := m.numbers.insert kernel m.kernels.size })

/-- Finds the transitions of one more state. -/
def expand (a : Augmented) (m : Automaton) (kernel : Kernel) : Automaton :=
  let (row, m) := (a.successors kernel).foldl (fun (row, m) (symbol, target) =>
    let (state, m) := m.numberOf target
    ((symbol, state) :: row, m)) (([] : List (SymbolId × StateId)), m)
  { m with transitions := m.transitions.push row.reverse }

/-- Expands the states in order until all of them are expanded. It stops within `limit` states, or
reports that there are too many. -/
def explore (a : Augmented) : (limit : Nat) → Automaton → Except GrammarFault Automaton
  | 0, m => .ok m
  | limit + 1, m =>
      match m.kernels[m.transitions.size]? with
      | none => .ok m
      | some kernel =>
          let m := m.expand a kernel
          if maxStates < m.kernels.size then .error (.tooManyStates maxStates)
          else explore a limit m

/-- All states of a grammar. More than `maxStates` of them are an error. -/
def ofGrammar (a : Augmented) : Except GrammarFault Automaton :=
  explore a (maxStates + 1) (initial a)

/-- Where a symbol leads from a state. -/
def target? (m : Automaton) (state : StateId) (symbol : SymbolId) : Option StateId :=
  (m.transitions.getD state []).lookup symbol

end Automaton
end IncrementalParsing
