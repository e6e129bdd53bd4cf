import IncrementalParsing.Automaton.Item
import IncrementalParsing.Automaton.Lookahead
import IncrementalParsing.Automaton.States
import IncrementalParsing.Blob.Bytes
import IncrementalParsing.Blob.Decode
import IncrementalParsing.Blob.Encode
import IncrementalParsing.Blob.Error
import IncrementalParsing.Document
import IncrementalParsing.Grammar.Basic
import IncrementalParsing.Grammar.Draft
import IncrementalParsing.Grammar.First
import IncrementalParsing.IdSet
import IncrementalParsing.Language
import IncrementalParsing.Node.Basic
import IncrementalParsing.Node.Covering
import IncrementalParsing.Node.Diagnostic
import IncrementalParsing.Node.Relatives
import IncrementalParsing.Node.SExpression
import IncrementalParsing.Node.Sharing
import IncrementalParsing.Node.Similar
import IncrementalParsing.Node.Walk
import IncrementalParsing.Parser.Input
import IncrementalParsing.Parser.Repair
import IncrementalParsing.Parser.ReuseQueue
import IncrementalParsing.Parser.Run
import IncrementalParsing.Parser.Stack
import IncrementalParsing.Parser.Trial
import IncrementalParsing.Subtree.Basic
import IncrementalParsing.Subtree.Unwrap
import IncrementalParsing.Symbol
import IncrementalParsing.SysY.Grammar
import IncrementalParsing.SysY.Language
import IncrementalParsing.SysY.Scanner
import IncrementalParsing.SysY.Terminal
import IncrementalParsing.Tables.Basic
import IncrementalParsing.Tables.Construction
import IncrementalParsing.Text.Edit
import IncrementalParsing.Text.Lines
import IncrementalParsing.Text.Offset
import IncrementalParsing.Text.Printable
import IncrementalParsing.Text.Scalar
import IncrementalParsing.Tree
import IncrementalParsing.Proofs.Automaton.Items
import IncrementalParsing.Proofs.Blob.Damage
import IncrementalParsing.Proofs.Document
import IncrementalParsing.Proofs.Grammar.Description
import IncrementalParsing.Proofs.Parser.Finishing
import IncrementalParsing.Proofs.Parser.LegalRun
import IncrementalParsing.Proofs.Parser.Promises
import IncrementalParsing.Proofs.Parser.Reuse
import IncrementalParsing.Proofs.SysY.Comments
import IncrementalParsing.Proofs.SysY.Description
import IncrementalParsing.Proofs.SysY.Sentences
import IncrementalParsing.Proofs.SysY.States
import IncrementalParsing.Proofs.SysY.Tokens
import IncrementalParsing.Proofs.Tables.Acceptance
import IncrementalParsing.Proofs.Tree.Edits
import IncrementalParsing.Proofs.Tree.Grammatical
import IncrementalParsing.Proofs.Tree.Hidden
import IncrementalParsing.Proofs.Tree.Navigation
import IncrementalParsing.Proofs.Tree.Ranges
import IncrementalParsing.Proofs.Tree.Reports
import IncrementalParsing.Proofs.Tree.Reused
import IncrementalParsing.Proofs.SysY.Levels
import IncrementalParsing.Proofs.SysY.Nesting
import IncrementalParsing.Proofs.SysY.Longest
import IncrementalParsing.Proofs.Tree.Marks
import IncrementalParsing.Proofs.Tree.Independence
import IncrementalParsing.Proofs.Parser.Cheapest
import IncrementalParsing.Proofs.Tables.Rivals
import IncrementalParsing.Proofs.Tables.Lookaheads
import IncrementalParsing.Proofs.Tree.Merging
import IncrementalParsing.Proofs.Parser.Bridging
import IncrementalParsing.Proofs.Tree.Untouched
import IncrementalParsing.Proofs.Tree.Covering
import IncrementalParsing.Proofs.Tree.Walk
import IncrementalParsing.Proofs.Tree.Moved
import IncrementalParsing.Proofs.Tree.Alike
import IncrementalParsing.Proofs.Text.Lines
import IncrementalParsing.Proofs.Text.Terminators
import IncrementalParsing.Proofs.Document.Changes
import IncrementalParsing.Proofs.Blob.Indexing
import IncrementalParsing.Proofs.Grammar.Checked
import IncrementalParsing.Proofs.SysY.Closers
import IncrementalParsing.Proofs.Grammar.Analyses
import IncrementalParsing.Proofs.Tree.Recorded
