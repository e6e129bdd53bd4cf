import IncrementalParsing.Parser.Run
import IncrementalParsing.Node.Covering

/-!
Open files. A document keeps a text together with its lines and its tree. Every change splices the
text and parses it again, so that the three always go together.
-/
namespace IncrementalParsing

/-- Why a change was refused. -/
inductive ChangeError where
  | pointOutOfRange (point : Point)
  | invertedRange (start stop : Point)
  | invalidEdit (cause : EditError)
  /-- The tables kept reducing without reading on. -/
  | unfinished
deriving DecidableEq, Repr

/-- The report a user reads. -/
def ChangeError.message : ChangeError → String
  | pointOutOfRange point => "position " ++ point.render ++ " is outside the document"
  | invertedRange start stop =>
      "change starts at " ++ start.render ++ " after it ends at " ++ stop.render
  | invalidEdit cause => cause.message
  | unfinished => "the parser does not come to an end"

/-- A text with its lines, its tree and the parser that made the tree. -/
structure Document where
  text : ByteArray
  lines : LineMap
  tree : Tree
  parser : Parser

/-- A call that works on a document. One that fails keeps what it had already written. -/
abbrev Revise := ExceptT ChangeError (StateM Document)

namespace Document

/-- Opens a text, unless the parser does not come to an end. -/
def openText (parser : Parser) (text : ByteArray) : Option Document :=
  (parser.parse text).map fun tree => ⟨text, .ofText text, tree, parser.after tree⟩

/-- Replaces bytes by others. The edit must fit the text and the replacement, and nothing is written
before it has been parsed again. -/
def edit (edit : Edit) (replacement : ByteArray) : Revise Unit := do
  let d ← get
  match edit.apply d.text replacement with
  | .error cause => throw (.invalidEdit cause)
  | .ok text =>
      match d.parser.parseIncremental d.tree edit text with
      | .error (.invalidEdit cause) => throw (.invalidEdit cause)
      | .error .unfinished => throw .unfinished
      | .ok tree =>
          modify fun d => { d with parser := d.parser.after tree }
          modify fun d => { d with lines := .ofText text }
          modify fun d => { d with text }
          modify fun d => { d with tree }

/-- Replaces what lies between two points. -/
def change (start stop : Point) (replacement : String) : Revise Unit := do
  let some first := (← get).lines.offset start | throw (.pointOutOfRange start)
  let some last := (← get).lines.offset stop | throw (.pointOutOfRange stop)
  if last < first then throw (.invertedRange start stop)
  let bytes := replacement.toUTF8
  edit (.replace first last bytes.size) bytes

/-- Replaces the whole text and parses it from scratch. The text and its lines are written first. -/
def replace (text : ByteArray) : Revise Unit := do
  modify fun d => { d with text }
  modify fun d => { d with lines := .ofText text }
  let parser := (← get).parser
  match parser.parse text with
  | none => throw .unfinished
  | some tree => modify fun d => { d with tree, parser := parser.after tree }

/-- The document that a call leaves, or why it has failed. -/
def outcome (d : Document) (m : Revise Unit) : Except ChangeError Document :=
  match m.run.run d with
  | (.ok (), next) => .ok next
  | (.error cause, _) => .error cause

/-- The document after some bytes have been replaced. -/
def applyEdit (d : Document) (edit : Edit) (replacement : ByteArray) :
    Except ChangeError Document :=
  d.outcome (Document.edit edit replacement)

/-- The document after a change between two points. -/
def applyChange (d : Document) (start stop : Point) (replacement : String) :
    Except ChangeError Document :=
  d.outcome (change start stop replacement)

/-- The document after its whole text has been replaced, unless the parser does not come to an end. -/
def replaceAll (d : Document) (text : ByteArray) : Option Document :=
  (d.outcome (replace text)).toOption

/-- The smallest node at a point. Between two tokens the one that starts there is meant. -/
def nodeAt? (d : Document) (point : Point) : Option Node :=
  d.tree.rootNode.coveringPoints? d.lines point point

/-- The text of a node of the document's tree, if it is UTF-8. -/
def nodeText? (d : Document) (n : Node) : Option String := n.text? d.text

end Document
end IncrementalParsing
