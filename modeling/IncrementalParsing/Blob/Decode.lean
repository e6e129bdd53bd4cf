import IncrementalParsing.Blob.Encode

/-!
Tables from bytes. Whatever is read is checked against what has been read before it, so tables
that load can be used without further checks.
-/
namespace IncrementalParsing
namespace Blob

def readSymbol : Reader SymbolEntry := do
  let bits ← readByte .symbolTraits
  let some traits := SymbolTraits.ofBits? bits | throw (.outOfRange .symbolTraits bits)
  return ⟨← readName .symbolName, traits⟩

/-- The two reserved symbols must come first under their own names. -/
def checkReserved (symbols : Array SymbolEntry) : Reader Unit :=
  if (symbols[endSymbol]?.map (·.name)) = some "end"
      ∧ (symbols[errorSymbol]?.map (·.name)) = some "ERROR" then pure ()
  else throw (.malformed .reservedRenamed)

/-- Exactly the symbols below the terminal count are terminals. -/
def checkTerminals (symbols : Array SymbolEntry) (terminalCount : Nat) : Reader Unit :=
  if symbols.zipIdx.all fun (info, index) => info.traits.terminal == decide (index < terminalCount)
  then pure ()
  else throw (.malformed .terminalFlags)

def readSlot (symbolCount fieldCount : Nat) : Reader Slot := do
  let symbol ← readBelow .ruleSymbol symbolCount
  let field ← readBelow .ruleField (fieldCount + 1)
  return ⟨symbol, if field = 0 then none else some field⟩

def readProduction (symbolCount terminalCount fieldCount : Nat) : Reader Production := do
  let lhs ← readBelow .ruleLhs symbolCount
  if lhs < terminalCount then throw (.malformed .lhsIsTerminal)
  let length ← readWord16 .ruleLength
  let rhs ← readTimes length (readSlot symbolCount fieldCount)
  return ⟨lhs, rhs.toList⟩

def readPrecedence : Reader (Option Precedence) := do
  let assoc ← readByte .precedence
  let level ← readWord16 .precedenceLevel
  match assoc with
  | 0 => return none
  | 1 => return some ⟨level, .left⟩
  | 2 => return some ⟨level, .right⟩
  | 3 => return some ⟨level, .nonAssoc⟩
  | other => throw (.outOfRange .associativity other)

def readAction (stateCount ruleCount : Nat) : Reader Action := do
  let cell ← readWord32 .actionTable
  match Action.ofCell? cell with
  | none => throw (.outOfRange .actionCell cell)
  | some (.shift state) =>
      checkBelow .shiftTarget state stateCount
      return .shift state
  | some (.reduce rule) =>
      checkBelow .reducedRule rule ruleCount
      return .reduce rule
  | some action => return action

def readGoto (stateCount : Nat) : Reader (Option StateId) := do
  let target ← readWord16 .gotoTable
  if target = noGoto then return none
  checkBelow .gotoTarget target stateCount
  return some target

/-- Everything behind the header. Bytes that are left over are not accepted. -/
def readPayload : Reader Tables := do
  let name ← readName .grammarName
  let symbolCount ← readWord16 .symbolCount
  if symbolCount < 2 then throw (.malformed .reservedMissing)
  let symbols ← readTimes symbolCount readSymbol
  checkReserved symbols
  let fieldCount ← readWord16 .fieldCount
  let fields ← readTimes fieldCount (readName .fieldName)
  let terminalCount ← readWord16 .terminalCount
  if terminalCount < 2 ∨ symbolCount < terminalCount then
    throw (.outOfRange .terminalCount terminalCount)
  checkTerminals symbols terminalCount
  let start ← readBelow .startSymbol symbolCount
  if start < terminalCount then throw (.malformed .startIsTerminal)
  let ruleCount ← readWord16 .ruleCount
  let rules ← readTimes ruleCount (readProduction symbolCount terminalCount fieldCount)
  let tokenPrecedence ← readTimes terminalCount readPrecedence
  let stateCount ← readWord16 .stateCount
  if stateCount = 0 then throw (.malformed .noStates)
  let actions ← readTimes (stateCount * terminalCount) (readAction stateCount ruleCount)
  let gotos ← readTimes (stateCount * (symbolCount - terminalCount)) (readGoto stateCount)
  let rest ← get
  if rest ≠ [] then throw (.trailingBytes rest.length)
  return {
    name, symbols, fields, terminalCount, start, rules, tokenPrecedence, stateCount, actions,
    gotos }

end Blob

/-- Loads a blob. The header is checked first, from front to back, and the two bytes behind the
version are free. -/
def Tables.ofBytes : List UInt8 → Except LoadError Tables
  | m0 :: m1 :: m2 :: m3 :: v0 :: v1 :: _ :: _ :: c0 :: c1 :: c2 :: c3 ::
      l0 :: l1 :: l2 :: l3 :: payload => do
    let magic := [m0, m1, m2, m3]
    if magic ≠ blobMagic then throw (.invalidMagic magic)
    let version := Blob.ofBytes2 v0 v1
    if version ≠ blobVersion then throw (.versionMismatch blobVersion version)
    let length := Blob.ofBytes4 l0 l1 l2 l3
    if payload.length ≠ length then throw (.sizeMismatch length payload.length)
    let checksum := Blob.ofBytes4 c0 c1 c2 c3
    let actual := (Crc32.ofBytes payload).toNat
    if actual ≠ checksum then throw (.checksumMismatch checksum actual)
    return (← Blob.readPayload.run payload).1
  | bytes => .error (.tooSmall bytes.length)

end IncrementalParsing
