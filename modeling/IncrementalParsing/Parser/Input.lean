import IncrementalParsing.Language
import IncrementalParsing.Parser.ReuseQueue
import IncrementalParsing.Parser.Stack

/-!
The state of a parse, its limits, and where its input comes from. The next input is a token that was read ahead,
a subtree of the previous tree, or a new token.
-/
namespace IncrementalParsing

/-- How far error recovery may look, how high the stack may grow, and whether a reparse takes over
subtrees of the previous tree. -/
structure ParserLimits where
  /-- Tokens that recovery may look past. At least one is looked at. -/
  maxSkipped : Nat := 32
  /-- Tokens that may be inserted together at the end of the input. Elsewhere one is tried. -/
  maxMissing : Nat := 3
  /-- A token that would make the stack higher is skipped as an error. -/
  maxHeight : Nat := 100000
  reuse : Bool := true
deriving DecidableEq, Repr, Inhabited

/-- What stays the same during a parse. -/
structure ParseJob where
  tables : Tables
  lexer : Lexer
  text : ByteArray
  limits : ParserLimits

/-- What changes during a parse. -/
structure ParseState where
  stack : ParseStack
  /-- Tokens behind the lookahead that have been read already. -/
  pending : List Subtree
  queue : Option ReuseQueue

/-- The next input: a token, or a subtree of the previous tree. -/
structure Lookahead where
  subtree : Subtree
  /-- The queue still stands in front of it. -/
  queued : Bool

namespace ParseJob

/-- Kinds that no state accepts. -/
def isInvalid (job : ParseJob) (kind : SymbolId) : Bool :=
  kind == errorSymbol || job.tables.isErrorToken kind

/-- The end of the input. It counts as one byte past the text, so that what was decided by it is
decided again when text is appended. -/
def endLeaf (serial padding : Nat) : Subtree := .leaf serial endSymbol padding 0 1 false

/-- Where a position is in the text. Positions are sums of widths, and wrap around like all offsets. -/
def locate (job : ParseJob) (position : Nat) : Nat := Offset.wrap job.text.size position

/-- The token at a position, or the end of the input. A token that has no width or runs past the
text makes all that is left one error. Where it ends is a sum of offsets too, so one that runs past all
offsets may seem to end in the text. -/
def readAt (job : ParseJob) (serial position : Nat) : Subtree :=
  let length := job.text.size
  let place := job.locate position
  match job.lexer.next job.text place with
  | some token =>
      if 0 < job.locate token.width ∧ job.locate (place + token.width) ≤ length then
        .leaf serial token.kind token.padding token.size token.lookahead
          (job.isInvalid token.kind)
      else if length ≤ place then endLeaf serial 0
      else .leaf serial errorSymbol 0 (length - place) 0 true
  | none => endLeaf serial (length - place)

/-- Reads a new token. -/
def readToken (job : ParseJob) (s : ParseState) (position : Nat) : Subtree × ParseState :=
  (job.readAt s.stack.nextSerial position,
    { s with stack := { s.stack with nextSerial := s.stack.nextSerial + 1 } })

/-- The next input. A token of the previous tree is taken from the queue at once, a larger
subtree only when it has been shifted. -/
def nextInput (job : ParseJob) (s : ParseState) : Lookahead × ParseState :=
  match s.pending with
  | t :: pending => (⟨t, false⟩, { s with pending })
  | [] =>
      let position := s.stack.stop
      match s.queue.map (·.offer position) with
      | some (some t, queue) =>
          if t.isLeaf then (⟨t, false⟩, { s with queue := some queue.pass })
          else (⟨t, true⟩, { s with queue := some queue })
      | some (none, queue) =>
          let (t, s) := job.readToken { s with queue := some queue } position
          (⟨t, false⟩, s)
      | none =>
          let (t, s) := job.readToken s position
          (⟨t, false⟩, s)

/-- Gives up a subtree of the previous tree and tries its children. -/
def breakUp (job : ParseJob) (s : ParseState) (lookahead : Lookahead) :
    Lookahead × ParseState :=
  if lookahead.queued then
    job.nextInput { s with queue := s.queue.map (·.enter) }
  else job.nextInput s

/-- Skips subtrees as an error. -/
def skip (job : ParseJob) (s : ParseState) (pieces : List Subtree) : ParseState :=
  { s with stack := s.stack.pushSkipped job.tables pieces }

end ParseJob
end IncrementalParsing
