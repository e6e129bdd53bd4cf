import IncrementalParsing.Tables.Basic
import IncrementalParsing.Text.Offset

/-!
Trying out continuations. Repair asks what the parser would do with other tokens, on its states
alone. A stack of states lies over the start state, its top first.
-/
namespace IncrementalParsing

namespace Tables

/-- The most actions that are tried out for one token. -/
def maxTrial : Nat := 10000

/-- Lets the states act on a terminal until it is shifted or accepted, and gives the states
afterwards. -/
def act (t : Tables) (terminal : SymbolId) : (limit : Nat) → List StateId → Option (List StateId)
  | 0, _ => none
  | limit + 1, states =>
      match t.action (states.headD 0) terminal with
      | .shift next => some (next :: states)
      | .accept => some states
      | .reduce rule =>
          match t.rules[rule]? with
          | none => none
          | some info =>
              let states := states.drop info.rhs.length
              match t.goto (states.headD 0) info.lhs with
              | none => none
              | some next => act t terminal limit (next :: states)
      | .error => none

/-- The states after a terminal, if it can be shifted or accepted. -/
def after? (t : Tables) (states : List StateId) (terminal : SymbolId) : Option (List StateId) :=
  t.act terminal maxTrial states

/-- A terminal can be shifted or accepted. -/
def takes (t : Tables) (states : List StateId) (terminal : SymbolId) : Bool :=
  (t.after? states terminal).isSome

/-- The terminals that may be inserted: neither the reserved ones nor those of invalid tokens. -/
def insertable (t : Tables) : List SymbolId :=
  (List.range' 2 (t.terminalCount - 2)).filter fun terminal => !t.isErrorToken terminal

/-- The first sequence of `length` terminals, in the order of their numbers, after which
`lookahead` is viable. -/
def bridge? (t : Tables) (lookahead : SymbolId) : (length : Nat) → List StateId →
    Option (List SymbolId)
  | 0, states => if t.takes states lookahead then some [] else none
  | length + 1, states =>
      t.insertable.findSome? fun terminal =>
        match t.after? states terminal with
        | none => none
        | some next => (t.bridge? lookahead length next).map (terminal :: ·)

/-- The first of the shortest sequences after which `lookahead` is viable, with `length` terminals
and up to `more` beyond them. -/
def bridgeFrom? (t : Tables) (lookahead : SymbolId) (states : List StateId) :
    (more length : Nat) → Option (List SymbolId)
  | 0, _ => none
  | more + 1, length =>
      match t.bridge? lookahead length states with
      | some sequence => some sequence
      | none => t.bridgeFrom? lookahead states more (length + 1)

/-- The first of the shortest sequences of one to `maxLength` terminals after which `lookahead` is
viable. -/
def bridgeOf? (t : Tables) (states : List StateId) (lookahead : SymbolId)
    (maxLength : Nat) : Option (List SymbolId) :=
  t.bridgeFrom? lookahead states maxLength 1

end Tables

/-- A way to go on: skip some tokens, pop some entries, at a cost. -/
structure ResumePoint where
  cost : Nat
  skipped : Nat
  popped : Nat
deriving DecidableEq, Repr

namespace ResumePoint

/-- What it costs to skip one token. Popping costs one for each token that is popped. -/
def skipCost : Nat := 3

/-- The lower cost comes first, then the fewer skipped tokens, then the fewer popped entries. -/
def before (a b : ResumePoint) : Bool :=
  a.cost < b.cost || (a.cost == b.cost
    && (a.skipped < b.skipped || (a.skipped == b.skipped && a.popped < b.popped)))

/-- Puts a point at its place in a list in order. -/
def enqueue (p : ResumePoint) : List ResumePoint → List ResumePoint
  | [] => [p]
  | q :: rest => if p.before q then p :: q :: rest else q :: enqueue p rest

/-- The point that skips and pops so much, if popping alone costs `popCost`. Costs are counted as offsets
are. -/
def priced (skipped popped popCost : Nat) : ResumePoint :=
  ⟨Offset.add (skipCost * skipped) popCost, skipped, popped⟩

/-- The queue after its first point has not been accepted. It makes room for the one with one more
popped entry. -/
def advance (popCosts : Array Nat) (p : ResumePoint) (queue : List ResumePoint) :
    List ResumePoint :=
  match popCosts[p.popped + 1]? with
  | some cost => enqueue (priced p.skipped (p.popped + 1) cost) queue
  | none => queue

section
variable {m : Type → Type} [Monad m]

/-- Takes points from the front of the queue until one passes the test, at most `limit` of them. The
test may have effects. -/
def searchM (popCosts : Array Nat) (test : Nat → Nat → m Bool) : (limit : Nat) →
    List ResumePoint → m (Option (Nat × Nat))
  | 0, _ => pure none
  | _ + 1, [] => pure none
  | limit + 1, p :: queue => do
      if ← test p.skipped p.popped then return some (p.skipped, p.popped)
      searchM popCosts test limit (advance popCosts p queue)

/-- The cheapest pair of a number of skipped tokens and a number of popped entries that passes the
test, which may have effects. The cost of popping `d` entries is `popCosts[d]`, and the last token is never skipped. -/
def bestM (popCosts : Array Nat) (tokenCount : Nat) (test : Nat → Nat → m Bool) :
    m (Option (Nat × Nat)) :=
  match popCosts[0]? with
  | none => pure none
  | some base =>
      searchM popCosts test (tokenCount * popCosts.size)
        ((List.range tokenCount).map fun skipped => priced skipped 0 base)

end

/-- The cheapest pair that is accepted, by a test that has no effects. -/
def best? (popCosts : Array Nat) (tokenCount : Nat) (accept : Nat → Nat → Bool) :
    Option (Nat × Nat) :=
  Id.run (bestM popCosts tokenCount fun skipped popped => pure (accept skipped popped))

end ResumePoint
end IncrementalParsing
