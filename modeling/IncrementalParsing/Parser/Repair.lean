import IncrementalParsing.Parser.Input
import IncrementalParsing.Parser.Trial

/-!
Error recovery. When no action is left for a token, the parser tries four things in order. It skips
a token that is invalid by itself. It inserts tokens if that makes the lookahead acceptable. It
skips tokens and pops entries, as cheaply as it can, so that the next token is acceptable. And if
all fails it skips the token, or ends the parse at the end of the input.
-/
namespace IncrementalParsing

/-- The outcome of a recovery. -/
inductive Repair where
  | resume (lookahead : Lookahead) (state : ParseState)
  /-- Nothing accepts the end of the input. -/
  | finish (state : ParseState)

namespace ParseJob

/-- Reads tokens behind `position` until there are `count` of them or the input ends. They are
appended to `found`. -/
def readMore (job : ParseJob) (s : ParseState) (position : Nat) (found : Array Subtree) :
    (count : Nat) → Array Subtree × ParseState
  | 0 => (found, s)
  | count + 1 =>
      let (t, s) := job.readToken s position
      if t.kind == endSymbol then (found.push t, s)
      else job.readMore s (position + t.total) (found.push t) count

/-- The tokens up to the end of the input, with it. -/
def upToEnd : List Subtree → List Subtree
  | [] => []
  | t :: ts => if t.kind == endSymbol then [t] else t :: upToEnd ts

/-- The lookahead and up to `maxSkipped` tokens behind it, as far as the input goes. Tokens that
have not been read before are queued. -/
def lookPast (job : ParseJob) (s : ParseState) (lookahead : Subtree) : List Subtree × ParseState :=
  let limit := max job.limits.maxSkipped 1
  let known := lookahead :: s.pending.take limit
  let last := known.getLast?.getD lookahead
  let count := if last.kind == endSymbol then 0 else limit + 1 - known.length
  let (new, s) := job.readMore s (s.stack.stop + Subtree.width known) #[] count
  let new := new.toList
  (upToEnd (known ++ new), { s with pending := s.pending ++ new })

/-- The cheapest way to go on with one of the tokens. -/
def resumePoint? (job : ParseJob) (stack : ParseStack) (tokens : List Subtree) :
    Option (Nat × Nat) :=
  let kinds := (tokens.map (·.kind)).toArray
  let below := suffixes stack.states #[]
  ResumePoint.best? stack.popCosts tokens.length fun skipped popped =>
    let kind := kinds.getD skipped errorSymbol
    !job.isInvalid kind && job.tables.takes (below.getD popped []) kind
where
  /-- The states that are left after each number of pops. -/
  suffixes : List StateId → Array (List StateId) → Array (List StateId)
    | [], found => found.push []
    | state :: states, found => suffixes states (found.push (state :: states))

/-- Inserts terminals in front of the lookahead. -/
def insertMissing (s : ParseState) (first : SymbolId) (rest : List SymbolId)
    (lookahead : Subtree) : Repair :=
  let serial := s.stack.nextSerial
  let inserted := rest.zipIdx.map fun (terminal, i) => Subtree.inserted (serial + 1 + i) terminal
  .resume ⟨.inserted serial first, false⟩
    { s with
      stack := { s.stack.noteDecision with nextSerial := serial + 1 + rest.length }
      pending := inserted ++ lookahead :: s.pending }

/-- Goes on after `skipped` of the tokens, over `popped` fewer entries. What is lost goes into one
error node. The tokens behind the lookahead are all queued. -/
def resumeAt (job : ParseJob) (s : ParseState) (tokens : List Subtree) (skipped popped : Nat) :
    Repair :=
  let (pieces, stack) := s.stack.pop popped
  let s := { s with stack := stack.noteDecision }
  let pieces := pieces ++ tokens.take skipped
  let (next, pending) :=
    if skipped = 0 then (tokens.head?, s.pending)
    else (s.pending[skipped - 1]?, s.pending.drop skipped)
  let s := { s with pending }
  let s := if pieces.isEmpty then s else job.skip s pieces
  match next with
  | some t => .resume ⟨t, false⟩ s
  | none =>
      let (lookahead, s) := job.nextInput s
      .resume lookahead s

/-- Skips the lookahead alone and goes on behind it. -/
def skipOne (job : ParseJob) (s : ParseState) (token : Subtree) : Repair :=
  let (lookahead, s) := job.nextInput (job.skip s [token])
  .resume lookahead s

/-- Everything on the stack is damaged input. -/
def giveUp (job : ParseJob) (s : ParseState) : Repair :=
  let (pieces, stack) := s.stack.popAll
  let s := { s with stack }
  .finish (if pieces.isEmpty then s else job.skip s pieces)

/-- Recovers from a token for which there is no action. -/
def repair (job : ParseJob) (s : ParseState) (token : Subtree) : Repair :=
  let atEnd := token.kind == endSymbol
  if !atEnd && job.isInvalid token.kind then job.skipOne s token
  else
    let maxMissing := if atEnd then job.limits.maxMissing else min job.limits.maxMissing 1
    match job.tables.bridgeOf? s.stack.states token.kind maxMissing with
    | some (first :: rest) => insertMissing s first rest token
    | _ =>
        let (tokens, s) := job.lookPast s token
        match job.resumePoint? s.stack tokens with
        | some (skipped, popped) => job.resumeAt s tokens skipped popped
        | none =>
            if atEnd then job.giveUp s
            else job.skipOne { s with stack := s.stack.noteDecision } token

end ParseJob
end IncrementalParsing
