import IncrementalParsing.Subtree.Unwrap
import IncrementalParsing.Tables.Basic

/-!
The stack of the parser. Its entries are states with the subtrees that led to them, over the start
state. Skipped input lies between them as extra entries, which repeat the state below.
-/
namespace IncrementalParsing

/-- A subtree on the stack and the state after it. -/
structure StackEntry where
  state : StateId
  subtree : Subtree
  /-- An error node, which does not count as part of any rule. -/
  extra : Bool
  /-- Where the subtree ends in the text. -/
  stop : Nat
  /-- The number of entries up to this one. -/
  level : Nat

/-- A stack, its top entry first. The error node on top stays open while input is skipped, so that
a long run of skipped input is not built again for every token. -/
structure ParseStack where
  entries : List StackEntry
  /-- The children of the open error node. -/
  openError : Array Subtree
  /-- Where the open error node ends. -/
  openStop : Nat
  /-- The entries up to this level were there when error recovery last made a decision. Nodes made
  from them are fragile. -/
  decidedLevel : Nat
  /-- The identity of the next subtree. -/
  nextSerial : Nat

namespace ParseStack

def empty (nextSerial : Nat) : ParseStack := ⟨[], #[], 0, 0, nextSerial⟩

/-- The state on top of some entries. -/
def topState : List StackEntry → StateId
  | [] => 0
  | entry :: _ => entry.state

/-- Where the topmost of some entries ends. -/
def topStop : List StackEntry → Nat
  | [] => 0
  | entry :: _ => entry.stop

/-- The number of entries. -/
def topLevel : List StackEntry → Nat
  | [] => 0
  | entry :: _ => entry.level

def state (s : ParseStack) : StateId := topState s.entries

/-- The number of entries, with the open error node. -/
def height (s : ParseStack) : Nat :=
  topLevel s.entries + if s.openError.isEmpty then 0 else 1

/-- Where the next token starts. -/
def stop (s : ParseStack) : Nat :=
  if s.openError.isEmpty then topStop s.entries else s.openStop

/-- The states of the entries that are not extra, the top one first. -/
def states (s : ParseStack) : List StateId :=
  (s.entries.filter fun entry => !entry.extra).map (·.state)

/-- What it costs to pop each number of entries that are not extra, from none to all of them. An
entry costs the tokens in it, and at least one. -/
def popCosts (s : ParseStack) : Array Nat :=
  ((s.entries.filter fun entry => !entry.extra).foldl (fun (total, costs) entry =>
    let total := total + max entry.subtree.tokens 1
    (total, costs.push total)) (0, #[0])).2

/-- Remembers that recovery has made a decision here. -/
def noteDecision (s : ParseStack) : ParseStack :=
  { s with decidedLevel := topLevel s.entries }

/-- Puts a subtree on top of some entries. -/
def stacked (entries : List StackEntry) (state : StateId) (t : Subtree) (extra : Bool) :
    List StackEntry :=
  ⟨state, t, extra, topStop entries + t.total, topLevel entries + 1⟩ :: entries

/-- Puts an extra subtree on top. -/
def pushAside (s : ParseStack) (t : Subtree) : ParseStack :=
  { s with entries := stacked s.entries s.state t true }

/-- Turns the open error node into an entry. -/
def closeError (s : ParseStack) : ParseStack :=
  if s.openError.isEmpty then s
  else
    let node :=
      Subtree.branch s.nextSerial errorSymbol (some s.state) s.openError.toList 0 false
    ({ s with openError := #[], nextSerial := s.nextSerial + 1 } : ParseStack).pushAside node

/-- Puts a subtree on top with the state it leads to. -/
def push (s : ParseStack) (state : StateId) (t : Subtree) : ParseStack :=
  let s := s.closeError
  { s with entries := stacked s.entries state t false }

/-- Nodes that dissolve in an error node: hidden ones and error nodes, if they have children. -/
def dissolves (tables : Tables) (t : Subtree) : Bool :=
  !t.isLeaf && (t.kind == errorSymbol || tables.isHidden t.kind)

/-- Adds skipped subtrees to the open error node. -/
def addToError (tables : Tables) (s : ParseStack) (pieces : List Subtree) : ParseStack :=
  let found := (Subtree.unwrap (dissolves tables) pieces #[]).map (·.withField none)
  { s with
    openError := s.openError ++ found
    openStop := s.openStop + Subtree.width found.toList }

/-- Adds skipped subtrees to the error node on top. An error node that is an entry is opened
again, and if there is none a new one is opened. -/
def pushSkipped (tables : Tables) (s : ParseStack) (pieces : List Subtree) : ParseStack :=
  let s :=
    if s.openError.isEmpty then
      match s.entries with
      | entry :: entries =>
          if entry.extra && entry.subtree.kind == errorSymbol then
            addToError tables { s with entries, openStop := topStop entries } [entry.subtree]
          else { s with openStop := entry.stop }
      | [] => { s with openStop := 0 }
    else s
  addToError tables s pieces

/-- Takes entries off the top until `depth` of them were not extra. The subtrees come in the order
of the text, in front of `popped`. -/
def popEntries : (depth : Nat) → List StackEntry → (popped : List Subtree) →
    List Subtree × List StackEntry
  | 0, entries, popped => (popped, entries)
  | _ + 1, [], popped => (popped, [])
  | depth + 1, entry :: entries, popped =>
      popEntries (if entry.extra then depth + 1 else depth) entries (entry.subtree :: popped)

/-- The stack over fewer entries. -/
def withEntries (s : ParseStack) (entries : List StackEntry) : ParseStack :=
  { s with entries, decidedLevel := min s.decidedLevel (topLevel entries) }

/-- Pops `depth` entries that are not extra, and the extra ones above and between them. -/
def pop (s : ParseStack) (depth : Nat) : List Subtree × ParseStack :=
  let s := s.closeError
  let (popped, entries) := popEntries depth s.entries []
  (popped, s.withEntries entries)

/-- Pops everything. -/
def popAll (s : ParseStack) : List Subtree × ParseStack :=
  let s := s.closeError
  ((s.entries.map (·.subtree)).reverse, s.withEntries [])

/-- Takes the children of a reduction off the top, in front of `taken`. The slots come last one
first. Extra entries between the children are taken along. -/
def takeChildren : List Slot → List StackEntry → (taken : List Subtree) →
    List Subtree × List StackEntry
  | [], entries, taken => (taken, entries)
  | _ :: _, [], taken => (taken, [])
  | slot :: slots, entry :: entries, taken =>
      if entry.extra then
        takeChildren (slot :: slots) entries (entry.subtree.withField none :: taken)
      else takeChildren slots entries (entry.subtree.withField slot.field :: taken)

/-- Reduces by a rule, where the decision to do so was made on the text up to `lookaheadStop`.
Extra entries on top stay on top of the new node. The answer is whether the tables lead on from
there. If they do not, the node is skipped as an error. -/
def reduce (tables : Tables) (s : ParseStack) (rule : Production) (lookaheadStop : Nat) :
    Bool × ParseStack :=
  let s := s.closeError
  let (trailing, entries) := s.entries.span (·.extra)
  let (children, entries) := takeChildren rule.rhs.reverse entries []
  let fragile :=
    topLevel entries < s.decidedLevel || children.any Subtree.isFragile
  let below := topState entries
  let children :=
    if tables.isHidden rule.lhs then children
    else (Subtree.unwrap (tables.isHidden ·.kind) children #[]).toList
  let node := Subtree.branch s.nextSerial rule.lhs (some below) children
    (lookaheadStop - topStop entries) fragile
  let s := { s.withEntries entries with nextSerial := s.nextSerial + 1 }
  let (pushed, s) :=
    match tables.goto below rule.lhs with
    | some next => (true, s.push next node)
    | none => (false, s.pushSkipped tables [node])
  (pushed, trailing.foldr (fun entry s => s.closeError.pushAside entry.subtree) s)

/-- The root over everything on the stack. Nodes of the start symbol are replaced by their
children. -/
def toRoot (tables : Tables) (s : ParseStack) (length : Nat) (accepted : Bool) :
    Subtree × Nat :=
  let s := s.closeError
  let children := s.entries.reverse.flatMap fun entry =>
    if !entry.extra && entry.subtree.kind == tables.start then entry.subtree.children
    else [entry.subtree.withField none]
  let children := (Subtree.unwrap (tables.isHidden ·.kind) children #[]).toList
  let node := Subtree.branch s.nextSerial tables.start none children 0 false
  (.mk { node.info with
      padding := 0
      size := length
      lookahead := 0
      hasError := node.hasError || !accepted } none children,
    s.nextSerial + 1)

end ParseStack
end IncrementalParsing
