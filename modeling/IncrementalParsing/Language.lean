import IncrementalParsing.Blob.Decode
import IncrementalParsing.Text.Printable

/-!
A language is a set of tables with the lexer that feeds them. The parser asks of a lexer a function of
the text and an offset, without memory, so that it can be resumed anywhere. The lexer must produce
exactly the terminals of the tables, under the same names and numbers.
-/
namespace IncrementalParsing

/-- A token behind an offset. It is preceded by `padding` bytes of blanks and comments, and the
lexer read `lookahead` bytes past its end to see that it ends there. -/
structure Token where
  kind : Nat
  padding : Nat
  size : Nat
  lookahead : Nat
deriving DecidableEq, Repr, Inhabited

/-- The width of a token with its padding. -/
def Token.width (t : Token) : Nat := t.padding + t.size

/-- A lexer and the names of the terminals it produces. It finds nothing when only blanks and
comments are left. -/
structure Lexer where
  names : Array String
  next : (text : ByteArray) → (offset : Nat) → Option Token

/-- Tables, their lexer, and the fingerprint that identifies the tables. -/
structure Language where
  tables : Tables
  lexer : Lexer
  fingerprint : Nat

namespace Language

/-- Stands in reports for a terminal that one side does not have. -/
def absentName : String := "<none>"

/-- The first number under which tables and lexer have different terminals. -/
def mismatch? (tables : Tables) (names : Array String) : Option LoadError :=
  (List.range (max names.size tables.terminalCount)).findSome? fun index =>
    let expected := names[index]?
    let found := if index < tables.terminalCount then some (tables.symbolName index) else none
    if expected.isSome && expected == found then none
    else some (.lexerMismatch index (expected.getD absentName) (found.getD absentName))

/-- Puts tables and a lexer together. -/
def ofTables (tables : Tables) (lexer : Lexer) : Except LoadError Language :=
  match mismatch? tables lexer.names with
  | some error => .error error
  | none => .ok ⟨tables, lexer, tables.fingerprint⟩

/-- Loads tables and puts them together with a lexer. -/
def ofBytes (bytes : List UInt8) (lexer : Lexer) : Except LoadError Language := do
  ofTables (← Tables.ofBytes bytes) lexer

def name (l : Language) : String := l.tables.name

def symbolCount (l : Language) : Nat := l.tables.symbolCount

def stateCount (l : Language) : Nat := l.tables.stateCount

def fieldCount (l : Language) : Nat := l.tables.fields.size

/-- The name of a symbol of the language. -/
def symbolName? (l : Language) (symbol : SymbolId) : Option String :=
  l.tables.symbols[symbol]?.map (·.name)

/-- The first symbol of a name. Hidden symbols cannot be addressed. -/
def symbolByName? (l : Language) (name : String) : Option SymbolId :=
  l.tables.symbols.findIdx? fun info => info.name == name && !info.traits.hidden

def fieldName? (l : Language) (field : FieldId) : Option String := l.tables.fieldName? field

/-- The number of a field. -/
def fieldByName? (l : Language) (name : String) : Option FieldId :=
  (l.tables.fields.findIdx? (· == name)).map (· + 1)

/-- An outline of the language: its name, its size and its fingerprint. -/
def outline (l : Language) : String :=
  "Language \x7b name: " ++ Text.quoted l.name ++ ", symbols: " ++ toString l.symbolCount
    ++ ", states: " ++ toString l.stateCount ++ ", fingerprint: " ++ hexWord l.fingerprint
    ++ " \x7d"

/-- Two languages are the same if their tables are. -/
def same (l m : Language) : Bool :=
  l.fingerprint == m.fingerprint && l.tables == m.tables

end Language
end IncrementalParsing
