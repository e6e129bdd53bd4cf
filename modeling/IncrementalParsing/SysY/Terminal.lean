import IncrementalParsing.Symbol

/-!
The terminals of SysY, the subset of C that is used to teach compilers. The number of a terminal is
its place in the list below, which starts with the two reserved ones.
-/
namespace IncrementalParsing.SysY

inductive Terminal where
  | endOfInput
  | error
  | semicolon
  | rightParen
  | rightBracket
  | rightBrace
  | comma
  | leftParen
  | leftBracket
  | leftBrace
  | assign
  | orOr
  | andAnd
  | equal
  | notEqual
  | less
  | greater
  | lessEqual
  | greaterEqual
  | plus
  | minus
  | star
  | slash
  | percent
  | bang
  | constKeyword
  | intKeyword
  | voidKeyword
  | ifKeyword
  | elseKeyword
  | whileKeyword
  | breakKeyword
  | continueKeyword
  | returnKeyword
  | identifier
  | decimalLiteral
  | octalLiteral
  | hexLiteral
  | unexpectedCharacter
  | malformedNumber
  | unterminatedComment
deriving DecidableEq, Repr, Inhabited

namespace Terminal

/-- All terminals in the order of their numbers. -/
def all : List Terminal := [
  endOfInput, error, semicolon, rightParen, rightBracket, rightBrace, comma, leftParen,
  leftBracket, leftBrace, assign, orOr, andAnd, equal, notEqual, less, greater, lessEqual,
  greaterEqual, plus, minus, star, slash, percent, bang, constKeyword, intKeyword, voidKeyword,
  ifKeyword, elseKeyword, whileKeyword, breakKeyword, continueKeyword, returnKeyword, identifier,
  decimalLiteral, octalLiteral, hexLiteral, unexpectedCharacter, malformedNumber,
  unterminatedComment]

/-- The name of a terminal in the grammar. Fixed tokens are named by their spelling. -/
def name : Terminal → String
  | endOfInput => "end"
  | error => "ERROR"
  | semicolon => ";"
  | rightParen => ")"
  | rightBracket => "]"
  | rightBrace => "\x7d"
  | comma => ","
  | leftParen => "("
  | leftBracket => "["
  | leftBrace => "\x7b"
  | assign => "="
  | orOr => "||"
  | andAnd => "&&"
  | equal => "=="
  | notEqual => "!="
  | less => "<"
  | greater => ">"
  | lessEqual => "<="
  | greaterEqual => ">="
  | plus => "+"
  | minus => "-"
  | star => "*"
  | slash => "/"
  | percent => "%"
  | bang => "!"
  | constKeyword => "const"
  | intKeyword => "int"
  | voidKeyword => "void"
  | ifKeyword => "if"
  | elseKeyword => "else"
  | whileKeyword => "while"
  | breakKeyword => "break"
  | continueKeyword => "continue"
  | returnKeyword => "return"
  | identifier => "identifier"
  | decimalLiteral => "decimal_literal"
  | octalLiteral => "octal_literal"
  | hexLiteral => "hex_literal"
  | unexpectedCharacter => "unexpected_character"
  | malformedNumber => "malformed_number"
  | unterminatedComment => "unterminated_comment"

/-- The number of a terminal. -/
def kind (t : Terminal) : SymbolId := t.ctorIdx

/-- The terminal of a number. -/
def ofKind? (kind : SymbolId) : Option Terminal := all[kind]?

theorem ofKind?_kind (t : Terminal) : ofKind? t.kind = some t := by
  cases t <;> rfl

/-- Terminals that show in S-expressions. -/
def isNamed : Terminal → Bool
  | identifier | decimalLiteral | octalLiteral | hexLiteral => true
  | _ => false

/-- Terminals for input that cannot be classified. -/
def isInvalid : Terminal → Bool
  | unexpectedCharacter | malformedNumber | unterminatedComment => true
  | _ => false

end Terminal

/-- Why input could not be classified. -/
inductive LexicalError where
  | unexpectedCharacter
  | malformedNumber
  | unterminatedComment
deriving DecidableEq, Repr

namespace LexicalError

def ofTerminal? : Terminal → Option LexicalError
  | .unexpectedCharacter => some .unexpectedCharacter
  | .malformedNumber => some .malformedNumber
  | .unterminatedComment => some .unterminatedComment
  | _ => none

/-- The report a user reads. -/
def message : LexicalError → String
  | unexpectedCharacter => "unexpected character"
  | malformedNumber => "malformed number literal"
  | unterminatedComment => "unterminated block comment"

end LexicalError
end IncrementalParsing.SysY
