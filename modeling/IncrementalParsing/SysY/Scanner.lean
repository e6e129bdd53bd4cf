import IncrementalParsing.Language
import IncrementalParsing.SysY.Terminal
import IncrementalParsing.Text.Scalar

/-!
The scanner of SysY. At every place the longest token wins, and a keyword wins over an identifier
of the same length. Blanks and comments are not tokens, they pad the token behind them. Nothing
fails: what is no token comes back as one of the terminals for invalid input.
-/
namespace IncrementalParsing.SysY
open Text

def isBlank (b : UInt8) : Bool := b = 0x20 || (0x09 ≤ b && b ≤ 0x0D)

def isDigit (b : UInt8) : Bool := 0x30 ≤ b && b ≤ 0x39

def isOctalDigit (b : UInt8) : Bool := 0x30 ≤ b && b ≤ 0x37

def isHexDigit (b : UInt8) : Bool :=
  isDigit b || (0x41 ≤ b && b ≤ 0x46) || (0x61 ≤ b && b ≤ 0x66)

def isLetter (b : UInt8) : Bool :=
  (0x41 ≤ b && b ≤ 0x5A) || (0x61 ≤ b && b ≤ 0x7A) || b = 0x5F

/-- The bytes of identifiers and numbers. -/
def isWordByte (b : UInt8) : Bool := isLetter b || isDigit b

/-- Tokens with a fixed spelling that is not a word. Of two that begin alike the longer one comes
first. -/
def operators : List Terminal := [
  .orOr, .andAnd, .equal, .notEqual, .lessEqual, .greaterEqual, .semicolon, .rightParen,
  .rightBracket, .rightBrace, .comma, .leftParen, .leftBracket, .leftBrace, .assign, .less,
  .greater, .plus, .minus, .star, .slash, .percent, .bang]

/-- Tokens with a fixed spelling that is a word. -/
def keywords : List Terminal := [
  .constKeyword, .intKeyword, .voidKeyword, .ifKeyword, .elseKeyword, .whileKeyword,
  .breakKeyword, .continueKeyword, .returnKeyword]

/-- The bytes that a fixed token is written with. -/
def spelling (t : Terminal) : List UInt8 := t.name.toUTF8.toList

/-- Fixed tokens with their spellings. -/
def spelled (ts : List Terminal) : List (List UInt8 × Terminal) :=
  ts.map fun t => (spelling t, t)

/-- The spellings of the operators. -/
def operatorSpellings : List (List UInt8 × Terminal) := spelled operators

/-- The spellings of the keywords. -/
def keywordSpellings : List (List UInt8 × Terminal) := spelled keywords

/-- The text goes on with some bytes. -/
def startsWith (text : ByteArray) (i : Nat) : List UInt8 → Bool
  | [] => true
  | b :: bs => byteAt? text i == some b && startsWith text (i + 1) bs

/-- Where a line comment ends: at a line feed, or at a byte that is no part of a character. -/
def lineCommentEnd (text : ByteArray) (i : Nat) : Nat :=
  if byteAt? text i = some 0x0A then i
  else match _h : scalarWidth? text i with
    | some w => lineCommentEnd text (i + w)
    | none => i
termination_by text.size - i
decreasing_by have := scalarWidth?_pos _h; omega

/-- How a block comment ends, from the first place behind its opening on. It is closed by the first
star with a slash behind it. It stays open if the text ends before that, or at a byte that is no
part of a character. -/
def blockCommentEnd (text : ByteArray) (i : Nat) : Bool × Nat :=
  if byteAt? text i = some 0x2A ∧ byteAt? text (i + 1) = some 0x2F then (true, i + 2)
  else match _h : scalarWidth? text i with
    | some w => blockCommentEnd text (i + w)
    | none => (false, i)
termination_by text.size - i
decreasing_by have := scalarWidth?_pos _h; omega

/-- Where the blanks or the comment at a place end, or the place itself if there are none. A block
comment that is not closed is not passed over. -/
def triviaEnd (text : ByteArray) (i : Nat) : Nat :=
  if startsWith text i [0x2F, 0x2F] then lineCommentEnd text (i + 2)
  else if startsWith text i [0x2F, 0x2A] then
    match blockCommentEnd text (i + 2) with
    | (true, stop) => stop
    | (false, _) => i
  else runEnd isBlank text i

/-- Passes over blanks and comments. -/
def skipTrivia (text : ByteArray) (i : Nat) : Nat :=
  if i < triviaEnd text i ∧ i < text.size then skipTrivia text (triviaEnd text i) else i
termination_by text.size - i

/-- The kind of a number, from all its bytes. -/
def numberKind : List UInt8 → Terminal
  | [] => .malformedNumber
  | first :: rest =>
      if first = 0x30 then
        match rest with
        | [] => .octalLiteral
        | second :: digits =>
            if (second = 0x78 || second = 0x58) && !digits.isEmpty && digits.all isHexDigit then
              .hexLiteral
            else if rest.all isOctalDigit then .octalLiteral
            else .malformedNumber
      else if rest.all isDigit then .decimalLiteral
      else .malformedNumber

/-- The kind of a word that starts with a letter. -/
def wordKind (word : List UInt8) : Terminal := (keywordSpellings.lookup word).getD .identifier

/-- The bytes of a text between two places. -/
def slice (text : ByteArray) (start stop : Nat) : List UInt8 := (text.extract start stop).toList

/-- The token that starts with a byte at a place, and where it ends. -/
def tokenAt (text : ByteArray) (i : Nat) (first : UInt8) : Terminal × Nat :=
  if isDigit first then
    let stop := runEnd isWordByte text i
    (numberKind (slice text i stop), stop)
  else if isLetter first then
    let stop := runEnd isWordByte text i
    (wordKind (slice text i stop), stop)
  else if startsWith text i [0x2F, 0x2A] then
    (.unterminatedComment, (blockCommentEnd text (i + 2)).2)
  else
    match operatorSpellings.find? fun entry => startsWith text i entry.1 with
    | some (bytes, t) => (t, i + bytes.length)
    | none => (.unexpectedCharacter, i + 1)

/-- The next token behind an offset. One byte past its end decides where it ends. -/
def nextToken (text : ByteArray) (offset : Nat) : Option Token :=
  let start := skipTrivia text offset
  (byteAt? text start).map fun first =>
    let (terminal, stop) := tokenAt text start first
    { kind := terminal.kind
      padding := start - offset
      size := stop - start
      lookahead := if stop < text.size then 1 else 0 }

end IncrementalParsing.SysY
