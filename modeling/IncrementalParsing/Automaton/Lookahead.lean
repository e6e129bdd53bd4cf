import IncrementalParsing.Automaton.States

/-!
Lookahead sets. Each item of a kernel gets the terminals that may follow it. Some arise where the
item is made, the others are passed on from the items it comes from, until nothing changes.
-/
namespace IncrementalParsing

/-- An item and the terminals that may follow it. -/
abbrev LookaheadItem := Item × IdSet

namespace Augmented

/-- The closure under construction: its items in the order of their discovery, and the places that
have to be looked at again, the next one first. -/
structure Spread where
  items : Array LookaheadItem
  work : List Nat
deriving DecidableEq, Repr

/-- Adds one expansion with what follows it. New and grown items must be looked at. -/
def Spread.add (s : Spread) (item : Item) (follow : IdSet) : Spread :=
  match s.items.findIdx? (·.1 == item) with
  | some place =>
      let old := (s.items.getD place (item, .empty)).2
      let new := old.union follow
      if new = old then s
      else ⟨s.items.setIfInBounds place (item, new), place :: s.work⟩
  | none => ⟨s.items.push (item, follow), s.items.size :: s.work⟩

/-- Expands the item at one place. -/
def Spread.visit (a : Augmented) (s : Spread) (place : Nat) : Spread :=
  match s.items[place]? with
  | none => s
  | some (item, set) =>
      match a.next? item with
      | none => s
      | some symbol =>
          if a.isTerminal symbol then s
          else
            let follow := a.first.ofSequence (a.rest item) set
            (a.expansions symbol).foldl (fun s expansion => s.add expansion follow) s

/-- Visits places until none is left, at most `limit` of them. -/
def Spread.run (a : Augmented) : (limit : Nat) → Spread → Array LookaheadItem
  | 0, s => s.items
  | limit + 1, s =>
      match s.work with
      | [] => s.items
      | place :: work => Spread.run a limit (Spread.visit a { s with work } place)

/-- The closure of items with their lookahead. An item is visited when it is found and each time
its set grows, which bounds the number of visits. -/
def closureWithLookahead (a : Augmented) (seed : List LookaheadItem) : Array LookaheadItem :=
  Spread.run a ((seed.length + a.rhs.size) * (a.terminalCount + 3))
    ⟨seed.toArray, (List.range seed.length).reverse⟩

/-- A mark that no terminal has. It stands for whatever follows the item a closure starts from. -/
def mark (a : Augmented) : Nat := a.terminalCount

end Augmented

namespace Automaton

/-- The lookahead sets of the kernel items of every state. -/
abbrev Lookaheads := Array IdSet

/-- Where the items of each state begin in one list of all kernel items. -/
def offsets (m : Automaton) : Array Nat :=
  (m.kernels.foldl (fun (offsets, next) kernel => (offsets.push next, next + kernel.length))
    ((#[] : Array Nat), 0)).1

/-- The number of an item among all kernel items. -/
def place? (m : Automaton) (offsets : Array Nat) (state : StateId) (item : Item) : Option Nat :=
  ((m.kernels.getD state []).findIdx? (· == item)).map (offsets.getD state 0 + ·)

/-- What the closure of single kernel items yields: the sets that arise on the spot, and the links
along which sets are passed on. -/
structure Flow where
  sets : Lookaheads
  links : Array (Nat × Nat)
deriving DecidableEq, Repr

/-- Adds what follows from one item of the closure of the kernel item at `source`. -/
def Flow.add (a : Augmented) (m : Automaton) (offsets : Array Nat) (state : StateId)
    (source : Nat) (flow : Flow) (entry : LookaheadItem) : Flow :=
  let (item, set) := entry
  let found := do
    let symbol ← a.next? item
    let target ← m.target? state symbol
    m.place? offsets target item.advance
  match found, flow with
  | none, flow => flow
  | some place, ⟨sets, links⟩ =>
      let spontaneous := set.inter (.below a.terminalCount)
      ⟨sets.modify place (·.union spontaneous),
        if set.contains a.mark then links.push (source, place) else links⟩

/-- Takes the closure of every kernel item by itself, with the mark as its only follower. -/
def flow (a : Augmented) (m : Automaton) : Flow :=
  let offsets := m.offsets
  let count := m.kernels.foldl (fun n kernel => n + kernel.length) 0
  let start : Flow := ⟨(Array.replicate count .empty).setIfInBounds 0 (.singleton endSymbol), #[]⟩
  m.kernels.zipIdx.foldl (fun flow (kernel, state) =>
    kernel.zipIdx.foldl (fun flow (item, slot) =>
      (a.closureWithLookahead [(item, .singleton a.mark)]).foldl
        (Flow.add a m offsets state (offsets.getD state 0 + slot)) flow) flow) start

/-- Passes every set on along every link once. -/
def propagatePass (links : Array (Nat × Nat)) (sets : Lookaheads) : Lookaheads :=
  links.foldl (fun sets (source, target) =>
    let incoming := sets.getD source .empty
    sets.modify target (·.union incoming)) sets

/-- The lookahead sets of all kernel items. Every pass but the last adds a terminal to some set. -/
def lookaheads (a : Augmented) (m : Automaton) : Lookaheads :=
  let flow := m.flow a
  saturate (propagatePass flow.links) (flow.sets.size * a.terminalCount + 1) flow.sets

/-- The kernel items of a state with their lookahead sets. -/
def stateItems (m : Automaton) (offsets : Array Nat) (sets : Lookaheads) (state : StateId) :
    List LookaheadItem :=
  (m.kernels.getD state []).zipIdx.map fun (item, slot) =>
    (item, sets.getD (offsets.getD state 0 + slot) .empty)

end Automaton
end IncrementalParsing
