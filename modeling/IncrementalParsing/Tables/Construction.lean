import IncrementalParsing.Automaton.Lookahead
import IncrementalParsing.Tables.Basic

/-!
Tables from the automaton of a grammar. Each state shifts what its transitions allow and reduces
its complete items at their lookahead. Where two actions meet, precedence decides if both sides
have one, a shift wins over a reduction without it, and the earlier of two rules wins. Cells name
rules by numbers of sixteen bits.
-/
namespace IncrementalParsing

namespace Grammar

/-- The winner between the action a cell already holds and a reduction by `rule` at `terminal`. An
operator that does not associate leaves an error. -/
def arbitrate (g : Grammar) (terminal : SymbolId) (present : Action) (rule : RuleId) : Action :=
  match present with
  | .error => .reduce rule
  | .shift target =>
      match g.rules[rule]?.bind (·.precedence), g.tokenPrecedence[terminal]?.join with
      | some ours, some theirs =>
          if theirs.level < ours.level then .reduce rule
          else if ours.level < theirs.level then .shift target
          else match ours.assoc with
            | .left => .reduce rule
            | .right => .shift target
            | .nonAssoc => .error
      | _, _ => .shift target
  | .reduce other => .reduce (min other rule)
  | .accept => .accept

end Grammar

/-- All numbers of rules in cells lie below it. -/
def ruleBound : Nat := 0x10000

/-- The number that stands for a rule in a cell. Beyond the bound it is that of another rule. -/
def cellRule (rule : RuleId) : RuleId := rule % ruleBound

/-- The actions of one state under construction. No reduction enters a barred cell any more. -/
structure ActionRow where
  actions : Array Action
  barred : IdSet
deriving DecidableEq, Repr

namespace ActionRow

/-- Enters the reduction by `rule` at one terminal. -/
def reduce (g : Grammar) (rule : RuleId) (row : ActionRow) (terminal : SymbolId) : ActionRow :=
  if row.barred.contains terminal then row
  else
    let action := g.arbitrate terminal (row.actions.getD terminal .error) rule
    { actions := row.actions.setIfInBounds terminal action
      barred := if action = .error then row.barred.insert terminal else row.barred }

/-- Enters a complete item at its lookahead. The added rule accepts at the end of the input and
nowhere else. -/
def complete (g : Grammar) (row : ActionRow) (rule : RuleId) (lookahead : IdSet) : ActionRow :=
  if rule = g.rules.size then
    if lookahead.contains endSymbol then
      { row with actions := row.actions.setIfInBounds endSymbol .accept }
    else row
  else (lookahead.elements g.terminalCount).foldl (reduce g (cellRule rule)) row

end ActionRow

namespace Automaton

/-- The shifts of a state. -/
def shifts (m : Automaton) (g : Grammar) (state : StateId) : Array Action :=
  (m.transitions.getD state []).foldl (fun row (symbol, target) =>
    if g.isTerminal symbol then row.setIfInBounds symbol (.shift target) else row)
    (Array.replicate g.terminalCount .error)

/-- The transitions of a state on nonterminals. -/
def gotos (m : Automaton) (g : Grammar) (state : StateId) : Array (Option StateId) :=
  (m.transitions.getD state []).foldl (fun row (symbol, target) =>
    if g.isTerminal symbol then row
    else row.setIfInBounds (symbol - g.terminalCount) (some target))
    (Array.replicate g.nonterminalCount none)

/-- The complete items of a state with their lookahead, in the order in which they are entered. -/
def completions (a : Augmented) (m : Automaton) (offsets : Array Nat) (sets : Lookaheads)
    (state : StateId) : List LookaheadItem :=
  (a.closureWithLookahead (m.stateItems offsets sets state)).toList.filter
    fun entry => a.isComplete entry.1

/-- The actions of a state. -/
def actions (m : Automaton) (g : Grammar) (completions : List LookaheadItem) (state : StateId) :
    Array Action :=
  (completions.foldl (fun row (item, lookahead) => row.complete g item.rule lookahead)
    (⟨m.shifts g state, .empty⟩ : ActionRow)).actions

end Automaton

namespace Tables

/-- The tables of a grammar. Only a grammar with too many states has none. -/
def ofGrammar (g : Grammar) : Except GrammarFault Tables := do
  let a := Augmented.ofGrammar g
  let m ← Automaton.ofGrammar a
  let offsets := m.offsets
  let sets := m.lookaheads a
  let states := Array.range m.kernels.size
  return {
    name := g.name
    symbols := g.symbols
    fields := g.fields
    terminalCount := g.terminalCount
    start := g.start
    rules := g.rules.map (·.toProduction)
    tokenPrecedence := g.tokenPrecedence
    stateCount := m.kernels.size
    actions := states.flatMap fun state => m.actions g (m.completions a offsets sets state) state
    gotos := states.flatMap fun state => m.gotos g state }

end Tables
end IncrementalParsing
