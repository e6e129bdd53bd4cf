import IncrementalParsing.Grammar.Basic

/-!
Why a blob of tables does not load, and the parts of a blob that such reports name.
-/
namespace IncrementalParsing

/-- The parts of a blob. -/
inductive BlobPart where
  | grammarName
  | symbolCount
  | symbolTraits
  | symbolName
  | fieldCount
  | fieldName
  | terminalCount
  | startSymbol
  | ruleCount
  | ruleLhs
  | ruleLength
  | ruleSymbol
  | ruleField
  | precedence
  | precedenceLevel
  | associativity
  | stateCount
  | actionTable
  | actionCell
  | shiftTarget
  | reducedRule
  | gotoTable
  | gotoTarget
deriving DecidableEq, Repr

/-- What a part is called in reports. -/
def BlobPart.label : BlobPart → String
  | grammarName => "grammar name"
  | symbolCount => "symbol count"
  | symbolTraits => "symbol flags"
  | symbolName => "symbol name"
  | fieldCount => "field count"
  | fieldName => "field name"
  | terminalCount => "terminal count"
  | startSymbol => "start symbol"
  | ruleCount => "rule count"
  | ruleLhs => "rule lhs"
  | ruleLength => "rule length"
  | ruleSymbol => "rule symbol"
  | ruleField => "rule field"
  | precedence => "precedence"
  | precedenceLevel => "precedence level"
  | associativity => "associativity"
  | stateCount => "state count"
  | actionTable => "action table"
  | actionCell => "action"
  | shiftTarget => "shift target"
  | reducedRule => "reduced rule"
  | gotoTable => "goto table"
  | gotoTarget => "goto target"

/-- Contradictions between well-formed parts. -/
inductive BlobFault where
  | nameNotUtf8
  | reservedMissing
  | reservedRenamed
  | terminalFlags
  | startIsTerminal
  | lhsIsTerminal
  | noStates
deriving DecidableEq, Repr

/-- How a contradiction is described. -/
def BlobFault.label : BlobFault → String
  | nameNotUtf8 => "non UTF-8 name"
  | reservedMissing => "reserved symbols missing"
  | reservedRenamed => "reserved symbols renamed"
  | terminalFlags => "terminal flags disagree with terminal count"
  | startIsTerminal => "start symbol is a terminal"
  | lhsIsTerminal => "rule lhs is a terminal"
  | noStates => "no parse states"

/-- Why tables cannot be loaded, or do not go with a lexer. -/
inductive LoadError where
  | tooSmall (size : Nat)
  | invalidMagic (found : List UInt8)
  | versionMismatch (expected found : Nat)
  | sizeMismatch (header actual : Nat)
  | checksumMismatch (expected found : Nat)
  | truncated (part : BlobPart)
  | trailingBytes (count : Nat)
  | outOfRange (part : BlobPart) (value : Nat)
  | malformed (fault : BlobFault)
  | build (cause : GrammarFault)
  | lexerMismatch (index : Nat) (expected found : String)
deriving DecidableEq, Repr

/-- The four bytes that begin every blob. -/
def blobMagic : List UInt8 := [83, 89, 76, 82]

/-- The only version of the format. -/
def blobVersion : Nat := 1

/-- A number of 32 bits in hexadecimal, with all eight digits. -/
def hexWord (n : Nat) : String :=
  let digits := Nat.toDigits 16 (n % 0x100000000)
  "0x" ++ String.ofList (List.replicate (8 - digits.length) '0' ++ digits)

/-- Bytes as decimal numbers between brackets. -/
def byteListText (bytes : List UInt8) : String :=
  "[" ++ ", ".intercalate (bytes.map fun b => toString b.toNat) ++ "]"

/-- The report a user reads. -/
def LoadError.message : LoadError → String
  | tooSmall size => s!"grammar blob too small: {size} bytes"
  | invalidMagic found =>
      "invalid magic: expected " ++ byteListText blobMagic ++ ", found " ++ byteListText found
  | versionMismatch expected found =>
      s!"grammar format version mismatch: expected {expected}, found {found}"
  | sizeMismatch header actual =>
      s!"size mismatch: header says {header} payload bytes, got {actual}"
  | checksumMismatch expected found =>
      "checksum mismatch: header says " ++ hexWord expected ++ ", payload hashes to "
        ++ hexWord found
  | truncated part => "unexpected end of grammar data while reading " ++ part.label
  | trailingBytes count => s!"{count} trailing bytes after grammar data"
  | outOfRange part value => part.label ++ s!" out of range: {value}"
  | malformed fault => "malformed grammar data: " ++ fault.label
  | build cause => "grammar could not be compiled: " ++ cause.message
  | lexerMismatch index expected found =>
      s!"lexer expects terminal `{expected}` at id {index}, grammar declares `{found}`"

end IncrementalParsing
