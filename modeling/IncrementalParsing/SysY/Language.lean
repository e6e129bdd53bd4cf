import IncrementalParsing.Parser.Run
import IncrementalParsing.SysY.Grammar
import IncrementalParsing.SysY.Scanner
import IncrementalParsing.Tables.Construction

/-!
The language SysY: its scanner as a lexer, the tables of its grammar, as they come back from a blob, and
the tokens of a text.
-/
namespace IncrementalParsing.SysY

/-- The scanner as a lexer. -/
def lexer : Lexer where
  names := (Terminal.all.map Terminal.name).toArray
  next := nextToken

/-- The tables of the grammar. -/
def tables : Except GrammarFault Tables := do Tables.ofGrammar (← grammar)

/-- The blob of the tables. -/
def blob : Except GrammarFault (List UInt8) := do return (← tables).toBytes

/-- The language, loaded from its blob. -/
def language : Except LoadError Language :=
  match blob with
  | .ok bytes => Language.ofBytes bytes lexer
  | .error cause => .error (.build cause)

/-- A token of a text without its padding. -/
structure PlacedToken where
  terminal : Terminal
  start : Nat
  stop : Nat
deriving DecidableEq, Repr

/-- The tokens behind an offset, at most `limit` of them, behind `found`. -/
def tokensFrom (text : ByteArray) : (limit : Nat) → (offset : Nat) → (found : Array PlacedToken) →
    Array PlacedToken
  | 0, _, found => found
  | limit + 1, offset, found =>
      match nextToken text offset with
      | none => found
      | some token =>
          let start := offset + token.padding
          let terminal := (Terminal.ofKind? token.kind).getD .unexpectedCharacter
          tokensFrom text limit (start + token.size)
            (found.push ⟨terminal, start, start + token.size⟩)

/-- All tokens of a text. Every token has a byte, so there are no more tokens than bytes. -/
def tokenize (text : ByteArray) : Array PlacedToken := tokensFrom text text.size 0 #[]

end IncrementalParsing.SysY
