import IncrementalParsing.Parser.Repair
import IncrementalParsing.Tree

/-!
The parser. It acts on the lookahead by the tables, step by step, and makes a tree of whatever is
on the stack at the end. Damaged input never stops it. A reparse shifts whole subtrees of the
previous tree when they were built in the state at hand, and breaks them down otherwise.
-/
namespace IncrementalParsing

/-- What one step leads to. -/
inductive ParseStep where
  | next (lookahead : Lookahead) (state : ParseState)
  | done (accepted : Bool) (stack : ParseStack)

/-- Goes on with the outcome of a recovery. -/
def ParseStep.ofRepair : Repair → ParseStep
  | .resume lookahead s => .next lookahead s
  | .finish s => .done false s.stack

/-- Goes on with the next input. -/
def ParseStep.ofInput (input : Lookahead × ParseState) : ParseStep := .next input.1 input.2

namespace ParseJob

/-- No action is left: a subtree is broken down, a token is recovered from. -/
def stuck (job : ParseJob) (s : ParseState) (lookahead : Lookahead) : ParseStep :=
  if lookahead.subtree.isLeaf then .ofRepair (job.repair s lookahead.subtree)
  else .ofInput (job.breakUp s lookahead)

/-- Shifts a token. One that would make the stack too high is skipped, unless it has no width. -/
def shiftToken (job : ParseJob) (s : ParseState) (next : StateId) (token : Subtree) : ParseStep :=
  if job.limits.maxHeight ≤ s.stack.height ∧ 0 < token.total then
    .ofInput (job.nextInput (job.skip s [token]))
  else .ofInput (job.nextInput { s with stack := s.stack.push next token })

/-- The state after a whole subtree, if it can be shifted here. It was built in this state, and the
stack has room. -/
def reuseTarget? (job : ParseJob) (s : ParseState) (t : Subtree) : Option StateId :=
  if t.info.state = some s.stack.state ∧ s.stack.height < job.limits.maxHeight then
    job.tables.goto s.stack.state t.kind
  else none

/-- Shifts a subtree of the previous tree as a whole, or breaks it down. -/
def shiftSubtree (job : ParseJob) (s : ParseState) (lookahead : Lookahead) : ParseStep :=
  match job.reuseTarget? s lookahead.subtree with
  | some next =>
      let queue := if lookahead.queued then s.queue.map (·.pass) else s.queue
      .ofInput (job.nextInput
        { s with stack := s.stack.push next lookahead.subtree, queue })
  | none => .ofInput (job.breakUp s lookahead)

/-- Reduces by a rule. The decision was made on the text up to the end of the first token of the
lookahead and what was read to find it. -/
def reduceBy (job : ParseJob) (s : ParseState) (lookahead : Lookahead) (rule : RuleId)
    (lookaheadStop : Nat) : ParseStep :=
  match job.tables.rules[rule]? with
  | none => job.stuck s lookahead
  | some info =>
      let (reduced, stack) := s.stack.reduce job.tables info lookaheadStop
      let s := { s with stack }
      if reduced then .next lookahead s else job.stuck s lookahead

/-- One step of a parse. The first token of the lookahead decides on the action. -/
def step (job : ParseJob) (s : ParseState) (lookahead : Lookahead) : ParseStep :=
  let (leaf, leafStop) := lookahead.subtree.leftmost 0
  match job.tables.action s.stack.state leaf.kind with
  | .shift next =>
      if lookahead.subtree.isLeaf then job.shiftToken s next lookahead.subtree
      else job.shiftSubtree s lookahead
  | .reduce rule => job.reduceBy s lookahead rule (s.stack.stop + leafStop + leaf.lookahead)
  | .accept => .done true s.stack
  | .error => job.stuck s lookahead

/-- Steps until the parse is done, at most `limit` of them. -/
def run (job : ParseJob) : (limit : Nat) → ParseState → Lookahead → Option (Bool × ParseStack)
  | 0, _, _ => none
  | limit + 1, s, lookahead =>
      match job.step s lookahead with
      | .next lookahead s => job.run limit s lookahead
      | .done accepted stack => some (accepted, stack)

/-- The state before the first token. -/
def start (queue : Option ReuseQueue) (nextSerial : Nat) : ParseState :=
  ⟨.empty nextSerial, [], queue⟩

/-- Parses the whole text within `limit` steps. -/
def parseWithin (job : ParseJob) (limit : Nat) (queue : Option ReuseQueue) (nextSerial : Nat) :
    Option (Subtree × Nat) :=
  let (lookahead, s) := job.nextInput (start queue nextSerial)
  (job.run limit s lookahead).map fun (accepted, stack) =>
    stack.toRoot job.tables job.text.size accepted

end ParseJob

/-- A parser of a language. -/
structure Parser where
  language : Language
  limits : ParserLimits
  /-- The identity of the next subtree. -/
  nextSerial : Nat

/-- Why there is no new tree. -/
inductive ReparseError where
  | invalidEdit (cause : EditError)
  /-- The tables kept reducing without reading on. -/
  | unfinished
deriving DecidableEq, Repr

namespace Parser

def ofLanguage (language : Language) : Parser := ⟨language, {}, 0⟩

/-- The job of parsing a text. -/
def job (p : Parser) (text : ByteArray) : ParseJob :=
  ⟨p.language.tables, p.language.lexer, text, p.limits⟩

/-- Steps that are allowed for a text of `size` bytes and `nodes` nodes of a previous tree.
Reductions that come to an end never put a state above itself before more is read, so there are
fewer of them in a row than a power of the number of states. -/
def stepLimit (p : Parser) (size nodes : Nat) : Nat :=
  let states := p.language.stateCount
  (size + nodes + p.limits.maxMissing + states + 2).pow (states + 16)

/-- Parses a text. With a queue, subtrees of a previous tree are taken over. -/
def runWith (p : Parser) (text : ByteArray) (queue : Option ReuseQueue) (nextSerial : Nat) :
    Option Tree :=
  let nodes := match queue with
    | some queue => queue.weight
    | none => 0
  ((p.job text).parseWithin (p.stepLimit text.size nodes) queue nextSerial).map
    fun (root, nextSerial) =>
      { root, language := p.language, length := text.size, edit := none, nextSerial }

/-- Parses a text from scratch. A grammar whose reductions come to an end always yields a tree. -/
def parse (p : Parser) (text : ByteArray) : Option Tree := p.runWith text none p.nextSerial

/-- Parses the current text of an edited tree, and takes over what the edit has left alone. The tree
must be of the same language and describe a text of the same length. -/
def reparse (p : Parser) (edited : Tree) (text : ByteArray) : Except ReparseError Tree :=
  if edited.language.fingerprint ≠ p.language.fingerprint then
    .error (.invalidEdit (.languageMismatch p.language.name edited.language.name))
  else if edited.length ≠ text.size then
    .error (.invalidEdit (.lengthMismatch edited.length text.size))
  else
    let queue := if p.limits.reuse then some (ReuseQueue.ofRoot edited.root edited.edit) else none
    match p.runWith text queue (max p.nextSerial edited.nextSerial) with
    | some tree => .ok tree
    | none => .error .unfinished

/-- Parses the text that an edit made of the text of `previous`. -/
def parseIncremental (p : Parser) (previous : Tree) (edit : Edit) (text : ByteArray) :
    Except ReparseError Tree :=
  match previous.applyEdit edit with
  | .ok edited => p.reparse edited text
  | .error cause => .error (.invalidEdit cause)

/-- The parser after it has made a tree. What it makes next has other identities. -/
def after (p : Parser) (tree : Tree) : Parser :=
  { p with nextSerial := max p.nextSerial tree.nextSerial }

end Parser
end IncrementalParsing
