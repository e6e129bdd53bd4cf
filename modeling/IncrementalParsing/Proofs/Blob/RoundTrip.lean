import IncrementalParsing.Blob.Decode
import IncrementalParsing.Proofs.Text.Bytes

/-! Tables survive their blob. Every reader takes exactly what its writer has put in front of any
other bytes, as long as the numbers of the tables fit the cells they are written to. -/
namespace IncrementalParsing
namespace Blob

/-- A reader takes a value from the front of any bytes that begin with its form. -/
def Reads {α : Type} (read : Reader α) (form : List UInt8) (a : α) : Prop :=
  ∀ rest, read (form ++ rest) = .ok (a, rest)

/-- An answer that needs no bytes takes none. -/
theorem reads_pure {α : Type} (a : α) : Reads (pure a) [] a := fun _ => rfl

/-- One form behind another is read by one reader behind the other. -/
theorem Reads.bind {α β : Type} {read : Reader α} {next : α → Reader β} {form more : List UInt8}
    {a : α} {b : β} (hRead : Reads read form a) (hNext : Reads (next a) more b) :
    Reads (read >>= next) (form ++ more) b := by
  intro rest
  change (read (form ++ more ++ rest)).bind (fun found => next found.1 found.2) = _
  rw [List.append_assoc, hRead]
  exact hNext rest

/-- The last reader of a sequence takes all that is left. -/
theorem Reads.last {α β : Type} {read : Reader α} {next : α → Reader β} {form : List UInt8}
    {a : α} {b : β} (hRead : Reads read form a) (hNext : Reads (next a) [] b) :
    Reads (read >>= next) form b := by
  have hBind := hRead.bind hNext
  rwa [List.append_nil] at hBind

/-- A check takes nothing. -/
theorem Reads.after {α β : Type} {read : Reader α} {next : α → Reader β} {form : List UInt8}
    {a : α} {b : β} (hRead : Reads read [] a) (hNext : Reads (next a) form b) :
    Reads (read >>= next) form b :=
  hRead.bind hNext

theorem reads_byte (part : BlobPart) (b : UInt8) : Reads (readByte part) [b] b.toNat :=
  fun _ => rfl

/-- A number below 2¹⁶ is read from its two bytes. -/
theorem reads_word16 (part : BlobPart) {n : Nat} (hLess : n < 0x10000) :
    Reads (readWord16 part) (word16 n) n := by
  intro rest
  have hValue : ofBytes2 (.ofNat n) (.ofNat (n / 0x100)) = n := by
    simp only [ofBytes2, UInt8.toNat_ofNat']
    omega
  change Except.ok (ofBytes2 (.ofNat n) (.ofNat (n / 0x100)), rest) = _
  rw [hValue]

theorem ofBytes4_word32 {n : Nat} (hLess : n < 0x100000000) :
    ofBytes4 (.ofNat n) (.ofNat (n / 0x100)) (.ofNat (n / 0x10000)) (.ofNat (n / 0x1000000)) = n := by
  simp only [ofBytes4, UInt8.toNat_ofNat']
  omega

/-- A number below 2³² is read from its four bytes. -/
theorem reads_word32 (part : BlobPart) {n : Nat} (hLess : n < 0x100000000) :
    Reads (readWord32 part) (word32 n) n := by
  intro rest
  change Except.ok (ofBytes4 _ _ _ _, rest) = _
  rw [ofBytes4_word32 hLess]

theorem reads_bytes (part : BlobPart) (bytes : List UInt8) :
    Reads (readBytes part bytes.length) bytes bytes := by
  intro rest
  simp [readBytes]

theorem reads_checkBelow (part : BlobPart) {value bound : Nat} (hLess : value < bound) :
    Reads (checkBelow part value bound) [] () := by
  rw [checkBelow, if_pos hLess]
  exact reads_pure ()

/-- A number below a bound passes the check. -/
theorem reads_below (part : BlobPart) {n bound : Nat} (hLess : n < bound) (hWord : n < 0x10000) :
    Reads (readBelow part bound) (word16 n) n := by
  refine (reads_word16 part hWord).last ?_
  exact (reads_checkBelow part hLess).after (reads_pure n)

/-- Names up to the length they are cut to come back whole. -/
theorem reads_name (part : BlobPart) {s : String} (hShort : s.toUTF8.size ≤ maxName) :
    Reads (readName part) (name s) s := by
  have hLength : s.toUTF8.toList.length ≤ maxName := by
    rw [Text.length_toList]
    exact hShort
  have hWord : s.toUTF8.toList.length < 0x10000 := by
    simp only [maxName] at hLength
    omega
  have hText : String.fromUTF8? s.toUTF8.toList.toByteArray = some s := by
    rw [Text.toByteArray_toList]
    exact dif_pos s.isValidUTF8
  rw [name, List.take_of_length_le hLength]
  refine (reads_word16 part hWord).bind ((reads_bytes part _).last ?_)
  rw [hText]
  exact reads_pure s

/-- Forms side by side are read one by one. -/
theorem reads_many {α : Type} {read : Reader α} {form : α → List UInt8} (as : List α)
    (found : Array α) (hRead : ∀ a ∈ as, Reads read (form a) a) (rest : List UInt8) :
    readMany read as.length found (as.flatMap form ++ rest) = .ok (found ++ as.toArray, rest) := by
  induction as generalizing found with
  | nil => simp [readMany]
  | cons a as ih =>
      rw [List.length_cons, readMany, List.flatMap_cons, List.append_assoc,
        hRead a (by simp)]
      dsimp only
      rw [ih _ fun b hMem => hRead b (by simp [hMem])]
      simp

/-- An array is read from its forms if their number is known. -/
theorem reads_times {α : Type} {read : Reader α} {form : α → List UInt8} (as : Array α)
    {count : Nat} (hCount : as.size = count) (hRead : ∀ a ∈ as, Reads read (form a) a) :
    Reads (readTimes count read) (as.toList.flatMap form) as := by
  intro rest
  have hMany := reads_many as.toList #[] (fun a hMem => hRead a (by simpa using hMem)) rest
  rw [Array.length_toList, hCount] at hMany
  rw [readTimes, hMany]
  simp

end Blob

/-- A slot fits among so many symbols and fields. -/
def Slot.Fits (symbolCount fieldCount : Nat) (s : Slot) : Prop :=
  s.symbol < symbolCount ∧ ∀ field, s.field = some field → 0 < field ∧ field ≤ fieldCount

/-- A rule fits among so many symbols and fields. -/
structure Production.Fits (symbolCount terminalCount fieldCount : Nat) (p : Production) : Prop where
  lhs : p.lhs < symbolCount ∧ terminalCount ≤ p.lhs
  length : p.rhs.length < 0x10000
  slots : ∀ s ∈ p.rhs, s.Fits symbolCount fieldCount

/-- An action fits among so many states and rules. -/
def Action.Fits (stateCount ruleCount : Nat) : Action → Prop
  | .shift state => state < stateCount
  | .reduce rule => rule < ruleCount
  | _ => True

/-- Tables whose parts belong together and fit the cells of a blob. -/
structure Tables.Compact (t : Tables) : Prop where
  name : t.name.toUTF8.size ≤ Blob.maxName
  symbolCount : 2 ≤ t.symbols.size ∧ t.symbols.size < 0x10000
  symbols : ∀ info ∈ t.symbols, info.name.toUTF8.size ≤ Blob.maxName
  reserved : t.symbols[endSymbol]?.map (·.name) = some "end"
    ∧ t.symbols[errorSymbol]?.map (·.name) = some "ERROR"
  fieldCount : t.fields.size < 0x10000
  fields : ∀ field ∈ t.fields, field.toUTF8.size ≤ Blob.maxName
  terminalCount : 2 ≤ t.terminalCount ∧ t.terminalCount ≤ t.symbols.size
  terminals : ∀ (i : Nat) info, t.symbols[i]? = some info →
    info.traits.terminal = decide (i < t.terminalCount)
  start : t.start < t.symbols.size ∧ t.terminalCount ≤ t.start
  ruleCount : t.rules.size < 0x10000
  rules : ∀ r ∈ t.rules, r.Fits t.symbols.size t.terminalCount t.fields.size
  precedenceCount : t.tokenPrecedence.size = t.terminalCount
  precedences : ∀ p ∈ t.tokenPrecedence, ∀ q, p = some q → q.level < 0x10000
  stateCount : t.stateCount ≠ 0 ∧ t.stateCount ≤ Blob.maxName
  actionCount : t.actions.size = t.stateCount * t.terminalCount
  actions : ∀ action ∈ t.actions, action.Fits t.stateCount t.rules.size
  gotoCount : t.gotos.size = t.stateCount * (t.symbols.size - t.terminalCount)
  gotos : ∀ target ∈ t.gotos, ∀ state, target = some state → state < t.stateCount
  payload : (Blob.payload t).length < 0x100000000

namespace Blob

/-- A symbol is read from its form if its name is not too long. -/
theorem reads_symbol {info : SymbolEntry} (hShort : info.name.toUTF8.size ≤ maxName) :
    Reads readSymbol (symbol info) info := by
  have hBits : (UInt8.ofNat info.traits.toBits).toNat = info.traits.toBits := by
    obtain ⟨name, ⟨a, b, c, d⟩⟩ := info
    cases a <;> cases b <;> cases c <;> cases d <;> rfl
  refine (reads_byte .symbolTraits (.ofNat info.traits.toBits)).bind ?_
  rw [hBits, SymbolTraits.ofBits?_toBits]
  exact (reads_name .symbolName hShort).last (reads_pure info)

/-- So is a slot whose symbol and field are there. -/
theorem reads_slot {symbolCount fieldCount : Nat} {s : Slot} (hFits : s.Fits symbolCount fieldCount)
    (hSymbols : symbolCount ≤ 0x10000) (hFields : fieldCount < 0x10000) :
    Reads (readSlot symbolCount fieldCount) (slot s) s := by
  obtain ⟨hSymbol, hField⟩ := hFits
  have hBound : s.field.getD 0 < fieldCount + 1 := by
    cases hSome : s.field with
    | none => simp
    | some field => exact Nat.lt_succ_of_le (hField field hSome).2
  refine (reads_below .ruleSymbol hSymbol (Nat.lt_of_lt_of_le hSymbol hSymbols)).bind ?_
  refine (reads_below .ruleField hBound (Nat.lt_of_lt_of_le hBound hFields)).last ?_
  have hSame : (⟨s.symbol, if s.field.getD 0 = 0 then none else some (s.field.getD 0)⟩ : Slot) = s := by
    obtain ⟨symbol, _ | field⟩ := s
    · rfl
    · have hPositive := (hField field rfl).1
      simp [Nat.ne_of_gt hPositive]
  rw [hSame]
  exact reads_pure s

/-- So is a rule whose symbols and fields are there. -/
theorem reads_production {symbolCount terminalCount fieldCount : Nat} {p : Production}
    (hFits : p.Fits symbolCount terminalCount fieldCount) (hSymbols : symbolCount ≤ 0x10000)
    (hFields : fieldCount < 0x10000) :
    Reads (readProduction symbolCount terminalCount fieldCount) (production p) p := by
  rw [production, List.append_assoc]
  refine (reads_below .ruleLhs hFits.lhs.1 (Nat.lt_of_lt_of_le hFits.lhs.1 hSymbols)).bind ?_
  rw [if_neg (Nat.not_lt.mpr hFits.lhs.2)]
  refine (reads_word16 .ruleLength hFits.length).bind ?_
  have hSlots : Reads (readTimes p.rhs.length (readSlot symbolCount fieldCount)) (p.rhs.flatMap slot)
      p.rhs.toArray := by
    refine reads_times p.rhs.toArray (by simp) ?_
    intro s hMem
    exact reads_slot (hFits.slots s (by simpa using hMem)) hSymbols hFields
  exact hSlots.last (reads_pure p)

theorem reads_precedence {p : Option Precedence} (hLevel : ∀ q, p = some q → q.level < 0x10000) :
    Reads readPrecedence (precedence p) p := by
  cases p with
  | none =>
      refine (reads_byte .precedence 0).bind ?_
      exact (reads_word16 .precedenceLevel (n := 0) (by decide)).last (reads_pure none)
  | some q =>
      obtain ⟨level, assoc⟩ := q
      have hWord : level < 0x10000 := hLevel _ rfl
      refine (reads_byte .precedence (assocByte assoc)).bind
        ((reads_word16 .precedenceLevel hWord).last ?_)
      cases assoc <;> exact reads_pure _

theorem toCell_lt (action : Action) : action.toCell < 0x100000000 := by
  cases action <;> simp only [Action.toCell] <;> omega

theorem ofCell?_add {kind payload : Nat} (hPayload : payload < 0x10000) :
    (kind * 0x40000000 + payload) / 0x40000000 = kind ∧
    (kind * 0x40000000 + payload) % 0x40000000 = payload := by
  omega

/-- An action is what its cell means. -/
theorem ofCell?_toCell {stateCount ruleCount : Nat} {action : Action}
    (hFits : action.Fits stateCount ruleCount) (hStates : stateCount ≤ 0x10000)
    (hRules : ruleCount ≤ 0x10000) : Action.ofCell? action.toCell = some action := by
  cases action with
  | error => rfl
  | shift state =>
      have hState : state < 0x10000 := Nat.lt_of_lt_of_le hFits hStates
      obtain ⟨hKind, hRest⟩ := @ofCell?_add 1 _ hState
      rw [Nat.one_mul] at hKind hRest
      rw [Action.toCell, Nat.mod_eq_of_lt hState]
      simp only [Action.ofCell?, hKind, hRest, if_pos hState]
  | reduce rule =>
      have hRule : rule < 0x10000 := Nat.lt_of_lt_of_le hFits hRules
      obtain ⟨hKind, hRest⟩ := @ofCell?_add 2 _ hRule
      rw [Action.toCell, Nat.mod_eq_of_lt hRule]
      simp only [Action.ofCell?, hKind, hRest, if_pos hRule]
  | accept => rfl

/-- An action that is in range is read from its cell. -/
theorem reads_action {stateCount ruleCount : Nat} {action : Action}
    (hFits : action.Fits stateCount ruleCount) (hStates : stateCount ≤ 0x10000)
    (hRules : ruleCount ≤ 0x10000) :
    Reads (readAction stateCount ruleCount) (word32 action.toCell) action := by
  refine (reads_word32 .actionTable (toCell_lt action)).last ?_
  rw [ofCell?_toCell hFits hStates hRules]
  cases action with
  | error => exact reads_pure _
  | shift state => exact (reads_checkBelow .shiftTarget hFits).after (reads_pure _)
  | reduce rule => exact (reads_checkBelow .reducedRule hFits).after (reads_pure _)
  | accept => exact reads_pure _

/-- A goto that is in range is read from its cell. -/
theorem reads_goto {stateCount : Nat} {target : Option StateId}
    (hTarget : ∀ state, target = some state → state < stateCount) (hStates : stateCount ≤ maxName) :
    Reads (readGoto stateCount) (gotoCell target) target := by
  cases target with
  | none =>
      refine (reads_word16 .gotoTable (n := noGoto) (by decide)).last ?_
      rw [if_pos rfl]
      exact reads_pure none
  | some state =>
      have hState := hTarget state rfl
      have hBound : state < noGoto := Nat.lt_of_lt_of_le hState hStates
      refine (reads_word16 .gotoTable (n := state) (Nat.lt_trans hBound (by decide))).last ?_
      rw [if_neg (Nat.ne_of_lt hBound)]
      exact (reads_checkBelow .gotoTarget hState).after (reads_pure _)

/-- Symbols that begin with the end and the error pass the check. -/
theorem reads_checkReserved {symbols : Array SymbolEntry}
    (hReserved : symbols[endSymbol]?.map (·.name) = some "end"
      ∧ symbols[errorSymbol]?.map (·.name) = some "ERROR") :
    Reads (checkReserved symbols) [] () := by
  rw [checkReserved, if_pos hReserved]
  exact reads_pure ()

/-- Symbols of which the first ones are the terminals pass the check. -/
theorem reads_checkTerminals {symbols : Array SymbolEntry} {terminalCount : Nat}
    (hTerminals : ∀ (i : Nat) info, symbols[i]? = some info →
      info.traits.terminal = decide (i < terminalCount)) :
    Reads (checkTerminals symbols terminalCount) [] () := by
  rw [checkTerminals, if_pos]
  · exact reads_pure ()
  · rw [Array.all_eq_true]
    intro i hIndex
    have hLess : i < symbols.size := by simpa using hIndex
    simp [hTerminals i _ (Array.getElem?_eq_getElem hLess)]

/-- What is read behind a value, if that is all there is. -/
theorem Reads.run {α β : Type} {read : Reader α} {next : α → Reader β} {form more : List UInt8}
    {a : α} {found : Except LoadError (β × List UInt8)} (hRead : Reads read form a)
    (hNext : next a more = found) : (read >>= next) (form ++ more) = found := by
  change (read (form ++ more)).bind (fun found => next found.1 found.2) = _
  rw [hRead]
  exact hNext

theorem Reads.runCheck {α β : Type} {read : Reader α} {next : α → Reader β} {more : List UInt8}
    {a : α} {found : Except LoadError (β × List UInt8)} (hRead : Reads read [] a)
    (hNext : next a more = found) : (read >>= next) more = found :=
  hRead.run hNext

/-- The whole payload, with nothing behind it. -/
theorem readPayload_payload {t : Tables} (h : t.Compact) :
    readPayload (payload t) = .ok (t, []) := by
  have hStates : t.stateCount < 0x10000 := Nat.lt_of_le_of_lt h.stateCount.2 (by decide)
  have hTerminals : t.terminalCount < 0x10000 :=
    Nat.lt_of_le_of_lt h.terminalCount.2 h.symbolCount.2
  have hSymbols := Nat.le_of_lt h.symbolCount.2
  have hPayload : payload t = name t.name ++ (word16 t.symbols.size
      ++ (t.symbols.toList.flatMap symbol ++ (word16 t.fields.size
      ++ (t.fields.toList.flatMap name ++ (word16 t.terminalCount ++ (word16 t.start
      ++ (word16 t.rules.size ++ (t.rules.toList.flatMap production
      ++ (t.tokenPrecedence.toList.flatMap precedence ++ (word16 t.stateCount
      ++ (t.actions.toList.flatMap (fun action => word32 action.toCell)
      ++ (t.gotos.toList.flatMap gotoCell ++ [])))))))))))) := by
    simp only [payload, List.append_assoc, List.append_nil]
  rw [hPayload, readPayload]
  refine (reads_name .grammarName h.name).run ?_
  refine (reads_word16 .symbolCount h.symbolCount.2).run ?_
  rw [if_neg (Nat.not_lt.mpr h.symbolCount.1)]
  refine (reads_times t.symbols rfl fun info hMem => reads_symbol (h.symbols info hMem)).run ?_
  refine (reads_checkReserved h.reserved).runCheck ?_
  refine (reads_word16 .fieldCount h.fieldCount).run ?_
  refine (reads_times t.fields rfl fun field hMem =>
    reads_name .fieldName (h.fields field hMem)).run ?_
  refine (reads_word16 .terminalCount hTerminals).run ?_
  rw [if_neg (not_or.mpr ⟨Nat.not_lt.mpr h.terminalCount.1, Nat.not_lt.mpr h.terminalCount.2⟩)]
  refine (reads_checkTerminals h.terminals).runCheck ?_
  refine (reads_below .startSymbol h.start.1 (Nat.lt_trans h.start.1 h.symbolCount.2)).run ?_
  rw [if_neg (Nat.not_lt.mpr h.start.2)]
  refine (reads_word16 .ruleCount h.ruleCount).run ?_
  refine (reads_times t.rules rfl fun rule hMem =>
    reads_production (h.rules rule hMem) hSymbols h.fieldCount).run ?_
  refine (reads_times t.tokenPrecedence h.precedenceCount fun p hMem =>
    reads_precedence (h.precedences p hMem)).run ?_
  refine (reads_word16 .stateCount hStates).run ?_
  rw [if_neg h.stateCount.1]
  refine (reads_times t.actions h.actionCount fun action hMem =>
    reads_action (h.actions action hMem) (Nat.le_of_lt hStates) (Nat.le_of_lt h.ruleCount)).run ?_
  refine (reads_times t.gotos h.gotoCount fun target hMem =>
    reads_goto (h.gotos target hMem) h.stateCount.2).run ?_
  rfl

/-- A payload behind a header that goes with it. The two bytes behind the version are free. -/
def sealed (free : UInt8 × UInt8) (payload : List UInt8) : List UInt8 :=
  blobMagic ++ word16 blobVersion ++ [free.1, free.2] ++ word32 (Crc32.ofBytes payload).toNat
    ++ word32 payload.length ++ payload

end Blob

/-- A blob is a sealed payload. -/
theorem Tables.toBytes_eq_sealed (t : Tables) : t.toBytes = Blob.sealed (0, 0) (Blob.payload t) := rfl

/-- A sealed payload is read whatever its free bytes are. -/
theorem Tables.ofBytes_sealed (free : UInt8 × UInt8) {payload rest : List UInt8} {t : Tables}
    (hLength : payload.length < 0x100000000) (hRead : Blob.readPayload payload = .ok (t, rest)) :
    Tables.ofBytes (Blob.sealed free payload) = .ok t := by
  have hChecksum : (Crc32.ofBytes payload).toNat < 0x100000000 := UInt32.toNat_lt _
  have hSum := Blob.ofBytes4_word32 hChecksum
  have hSize := Blob.ofBytes4_word32 hLength
  have hVersion : Blob.ofBytes2 (.ofNat blobVersion) (.ofNat (blobVersion / 0x100)) = blobVersion :=
    rfl
  rw [Blob.sealed]
  simp only [blobMagic, Blob.word16, Blob.word32, List.cons_append, List.nil_append]
  rw [Tables.ofBytes]
  simp only [hVersion, hSize, hSum]
  have hMagic : ¬ [83, 89, 76, 82] ≠ blobMagic := not_not_intro rfl
  rw [if_neg hMagic]
  simp only [ne_eq, not_true_eq_false, if_false]
  have hRun : StateT.run Blob.readPayload payload = .ok (t, rest) := hRead
  rw [hRun]
  rfl

/-- Compact tables come back from their blob as they were. -/
theorem Tables.ofBytes_toBytes {t : Tables} (h : t.Compact) :
    Tables.ofBytes t.toBytes = .ok t := by
  rw [toBytes_eq_sealed]
  exact ofBytes_sealed _ h.payload (Blob.readPayload_payload h)

end IncrementalParsing
