import IncrementalParsing.Proofs.Blob.RoundTrip

/-! Only compact tables load. Every reader lets only fitting values pass, and takes as many bytes
for a value as the value is written with, so a payload that loads is as long as the payload of the
tables it holds. The bytes may differ: the level of a precedence that is not there is not kept. -/
namespace IncrementalParsing
namespace Blob
variable {α β : Type}

/-- A reader passes only values that fit, each for as many bytes as it is written with. -/
def Takes (read : Reader α) (form : α → List UInt8) (fits : α → Prop) : Prop :=
  ∀ bytes a rest, read bytes = .ok (a, rest) →
    fits a ∧ bytes.length = (form a).length + rest.length

/-- What two readers accept one behind the other, each of them accepts in turn. -/
theorem bind_eq_ok {read : Reader α} {next : α → Reader β} {bytes rest : List UInt8} {b : β}
    (hRead : (read >>= next) bytes = .ok (b, rest)) :
    ∃ a more, read bytes = .ok (a, more) ∧ next a more = .ok (b, rest) := by
  change (read bytes).bind (fun found => next found.1 found.2) = _ at hRead
  cases hFirst : read bytes with
  | error cause =>
      rw [hFirst] at hRead
      cases hRead
  | ok found =>
      rw [hFirst] at hRead
      exact ⟨found.1, found.2, rfl, hRead⟩

/-- What comes behind a check that has been passed. -/
theorem unless_eq_ok {c : Prop} [Decidable c] {refusal next : Reader β} {cause : LoadError}
    {bytes rest : List UInt8} {b : β} (hRefusal : ∀ bytes, refusal bytes = .error cause)
    (hRead : (if c then refusal else next) bytes = .ok (b, rest)) :
    ¬c ∧ next bytes = .ok (b, rest) := by
  by_cases hHolds : c
  · rw [if_pos hHolds, hRefusal] at hRead
    cases hRead
  · rw [if_neg hHolds] at hRead
    exact ⟨hHolds, hRead⟩

theorem pure_eq_ok {a b : α} {bytes rest : List UInt8}
    (hRead : (pure a : Reader α) bytes = .ok (b, rest)) : a = b ∧ bytes = rest :=
  Prod.mk.inj (Except.ok.inj hRead)

/-- A byte that is read is the form of its number. -/
theorem takes_byte (part : BlobPart) :
    Takes (readByte part) (fun n => [.ofNat n]) (· < 0x100) := by
  intro bytes n rest hRead
  match bytes with
  | [] => cases hRead
  | a :: bytes =>
      obtain ⟨rfl, rfl⟩ := Prod.mk.inj (Except.ok.inj hRead)
      exact ⟨UInt8.toNat_lt a, Nat.add_comm _ _⟩

/-- A number that is read from two bytes is below 2¹⁶, and these bytes are its form. -/
theorem takes_word16 (part : BlobPart) : Takes (readWord16 part) word16 (· < 0x10000) := by
  intro bytes n rest hRead
  match bytes with
  | [] | [_] => cases hRead
  | a :: b :: bytes =>
      obtain ⟨rfl, rfl⟩ := Prod.mk.inj (Except.ok.inj hRead)
      have hLow := UInt8.toNat_lt a
      have hHigh := UInt8.toNat_lt b
      refine ⟨?_, (Nat.add_comm _ 2)⟩
      change a.toNat + 0x100 * b.toNat < 0x10000
      omega

theorem takes_word32 (part : BlobPart) : Takes (readWord32 part) word32 fun _ => True := by
  intro bytes n rest hRead
  match bytes with
  | [] | [_] | [_, _] | [_, _, _] => cases hRead
  | a :: b :: c :: d :: bytes =>
      obtain ⟨rfl, rfl⟩ := Prod.mk.inj (Except.ok.inj hRead)
      exact ⟨trivial, Nat.add_comm _ 4⟩

/-- Bytes that are read are as many as asked for. -/
theorem takes_bytes (part : BlobPart) (count : Nat) :
    Takes (readBytes part count) id (·.length = count) := by
  intro bytes front rest hRead
  simp only [readBytes] at hRead
  split at hRead
  · rename_i hLength
    obtain ⟨rfl, rfl⟩ := Prod.mk.inj (Except.ok.inj hRead)
    refine ⟨hLength, ?_⟩
    rw [id, ← List.length_append, List.take_append_drop]
  · cases hRead

/-- A number that passes the check is below the bound. -/
theorem checkBelow_eq_ok {part : BlobPart} {value bound : Nat} {bytes rest : List UInt8}
    (hRead : checkBelow part value bound bytes = .ok ((), rest)) :
    value < bound ∧ bytes = rest := by
  unfold checkBelow at hRead
  split at hRead
  · rename_i hLess
    exact ⟨hLess, (pure_eq_ok hRead).2⟩
  · cases hRead

theorem takes_below (part : BlobPart) (bound : Nat) :
    Takes (readBelow part bound) word16 fun n => n < bound ∧ n < 0x10000 := by
  intro bytes n rest hRead
  obtain ⟨value, more, hWord, hRead⟩ := bind_eq_ok hRead
  obtain ⟨⟨⟩, behind, hCheck, hRead⟩ := bind_eq_ok hRead
  obtain ⟨rfl, rfl⟩ := pure_eq_ok hRead
  obtain ⟨hLess, rfl⟩ := checkBelow_eq_ok hCheck
  obtain ⟨hSmall, hLength⟩ := takes_word16 part bytes value more hWord
  exact ⟨⟨hLess, hSmall⟩, hLength⟩

/-- A name that is read is not too long. -/
theorem takes_name (part : BlobPart) :
    Takes (readName part) name (·.toUTF8.size ≤ maxName) := by
  intro bytes s rest hRead
  obtain ⟨length, more, hWord, hRead⟩ := bind_eq_ok hRead
  obtain ⟨front, behind, hBytes, hRead⟩ := bind_eq_ok hRead
  obtain ⟨hSmall, hWordLength⟩ := takes_word16 part bytes length more hWord
  obtain ⟨hFront, hLength⟩ := takes_bytes part length more front behind hBytes
  cases hText : String.fromUTF8? front.toByteArray with
  | none =>
      rw [hText] at hRead
      cases hRead
  | some text =>
    rw [hText] at hRead
    obtain ⟨rfl, rfl⟩ := pure_eq_ok hRead
    have hSame : text.toUTF8 = front.toByteArray := by
      unfold String.fromUTF8? at hText
      split at hText
      · obtain rfl := Option.some.inj hText
        rfl
      · cases hText
    have hSize : text.toUTF8.size = length := by
      rw [hSame, List.size_toByteArray, hFront]
    have hShort : text.toUTF8.size ≤ maxName := by
      rw [hSize]
      exact Nat.le_of_lt_succ hSmall
    refine ⟨hShort, ?_⟩
    have hForm : (name text).length = 2 + length := by
      rw [name, List.take_of_length_le (by rwa [Text.length_toList]), List.length_append,
        Text.length_toList, hSize]
      rfl
    simp only [word16, List.length_cons, List.length_nil] at hWordLength
    rw [hForm, hWordLength, hLength, id, hFront]
    omega

/-- Values are read one after the other. -/
inductive Reading (read : Reader α) : List UInt8 → List α → List UInt8 → Prop
  | done (bytes : List UInt8) : Reading read bytes [] bytes
  | next {bytes behind rest : List UInt8} {a : α} {as : List α}
      (hFirst : read bytes = .ok (a, behind)) (h : Reading read behind as rest) :
      Reading read bytes (a :: as) rest

/-- A repeated reading adds as many answers as it was told to. -/
theorem readMany_eq_ok {read : Reader α} {count : Nat} {found as : Array α} {bytes rest : List UInt8}
    (hRead : readMany read count found bytes = .ok (as, rest)) :
    ∃ more : List α, as = found ++ more.toArray ∧ more.length = count ∧ Reading read bytes more rest := by
  induction count generalizing found bytes with
  | zero =>
      obtain ⟨rfl, rfl⟩ := Prod.mk.inj (Except.ok.inj hRead)
      exact ⟨[], by simp, rfl, .done bytes⟩
  | succ count ih =>
      rw [readMany] at hRead
      split at hRead
      · rename_i a behind hFirst
        obtain ⟨more, rfl, hCount, hMore⟩ := ih hRead
        exact ⟨a :: more, by simp, by rw [List.length_cons, hCount], .next hFirst hMore⟩
      · cases hRead

/-- An array that is read has the size it was told to have. -/
theorem readTimes_eq_ok {read : Reader α} {count : Nat} {as : Array α} {bytes rest : List UInt8}
    (hRead : readTimes count read bytes = .ok (as, rest)) :
    as.size = count ∧ Reading read bytes as.toList rest := by
  obtain ⟨more, rfl, hCount, hMore⟩ := readMany_eq_ok hRead
  simpa using ⟨hCount, hMore⟩

/-- What fits each value fits all that are read. -/
theorem Reading.takes {read : Reader α} {form : α → List UInt8} {fits : α → Prop}
    (h : Takes read form fits) {as : List α} {bytes rest : List UInt8}
    (hReading : Reading read bytes as rest) :
    (∀ a ∈ as, fits a) ∧ bytes.length = (as.flatMap form).length + rest.length := by
  induction hReading with
  | done => simp
  | next hFirst _ ih =>
      obtain ⟨hFits, hLength⟩ := h _ _ _ hFirst
      refine ⟨by simpa using ⟨hFits, ih.1⟩, ?_⟩
      rw [List.flatMap_cons, List.length_append, hLength, ih.2]
      omega

/-- If each element is read from its form, so is the array. -/
theorem takes_times {read : Reader α} {form : α → List UInt8} {fits : α → Prop}
    (h : Takes read form fits) (count : Nat) :
    Takes (readTimes count read) (fun as => as.toList.flatMap form)
      fun as => as.size = count ∧ ∀ a ∈ as, fits a := by
  intro bytes as rest hRead
  obtain ⟨hCount, hReading⟩ := readTimes_eq_ok hRead
  obtain ⟨hAll, hLength⟩ := hReading.takes h
  exact ⟨⟨hCount, fun a hMem => hAll a (by simpa using hMem)⟩, hLength⟩

theorem takes_symbol :
    Takes readSymbol symbol (·.name.toUTF8.size ≤ maxName) := by
  intro bytes info rest hRead
  obtain ⟨bits, more, hByte, hRead⟩ := bind_eq_ok hRead
  obtain ⟨-, hByteLength⟩ := takes_byte .symbolTraits bytes bits more hByte
  cases hTraits : SymbolTraits.ofBits? bits with
  | none =>
      rw [hTraits] at hRead
      cases hRead
  | some traits =>
      rw [hTraits] at hRead
      obtain ⟨found, behind, hName, hRead⟩ := bind_eq_ok hRead
      obtain ⟨rfl, rfl⟩ := pure_eq_ok hRead
      obtain ⟨hShort, hLength⟩ := takes_name .symbolName more found behind hName
      refine ⟨hShort, ?_⟩
      simp only [symbol, List.length_cons, List.length_nil] at hByteLength ⊢
      omega

theorem takes_slot (symbolCount fieldCount : Nat) :
    Takes (readSlot symbolCount fieldCount) slot (Slot.Fits symbolCount fieldCount) := by
  intro bytes s rest hRead
  obtain ⟨value, more, hSymbol, hRead⟩ := bind_eq_ok hRead
  obtain ⟨field, behind, hField, hRead⟩ := bind_eq_ok hRead
  obtain ⟨rfl, rfl⟩ := pure_eq_ok hRead
  obtain ⟨⟨hLess, -⟩, hLength⟩ := takes_below .ruleSymbol symbolCount bytes value more hSymbol
  obtain ⟨⟨hBound, -⟩, hMore⟩ := takes_below .ruleField (fieldCount + 1) more field behind hField
  refine ⟨⟨hLess, fun found hFound => ?_⟩, ?_⟩
  · dsimp only at hFound
    split at hFound
    · cases hFound
    · rename_i hSome
      obtain rfl := Option.some.inj hFound
      exact ⟨Nat.pos_of_ne_zero hSome, Nat.le_of_lt_succ hBound⟩
  · simp only [word16, List.length_cons, List.length_nil] at hLength hMore
    simp only [slot, word16, List.length_append, List.length_cons, List.length_nil]
    omega

/-- A rule that is read names symbols and fields that are there. -/
theorem takes_production (symbolCount terminalCount fieldCount : Nat) :
    Takes (readProduction symbolCount terminalCount fieldCount) production
      (Production.Fits symbolCount terminalCount fieldCount) := by
  intro bytes p rest hRead
  obtain ⟨lhs, more, hLhs, hRead⟩ := bind_eq_ok hRead
  obtain ⟨hNonterminal, hRead⟩ := unless_eq_ok (fun _ => rfl) hRead
  obtain ⟨length, behind, hWord, hRead⟩ := bind_eq_ok hRead
  obtain ⟨rhs, last, hSlots, hRead⟩ := bind_eq_ok hRead
  obtain ⟨rfl, rfl⟩ := pure_eq_ok hRead
  obtain ⟨⟨hLess, -⟩, hFirst⟩ := takes_below .ruleLhs symbolCount bytes lhs more hLhs
  obtain ⟨hSmall, hSecond⟩ := takes_word16 .ruleLength more length behind hWord
  obtain ⟨⟨hSize, hFits⟩, hThird⟩ :=
    takes_times (takes_slot symbolCount fieldCount) length behind rhs last hSlots
  refine ⟨⟨⟨hLess, Nat.not_lt.mp hNonterminal⟩, ?_, ?_⟩, ?_⟩
  · simpa [hSize] using hSmall
  · exact fun s hMem => hFits s (by simpa using hMem)
  · rw [production, List.length_append, List.length_append, hFirst, hSecond, hThird]
    simp only [word16, List.length_cons, List.length_nil]
    omega

theorem takes_precedence :
    Takes readPrecedence precedence fun p => ∀ q, p = some q → q.level < 0x10000 := by
  intro bytes p rest hRead
  obtain ⟨assoc, more, hByte, hRead⟩ := bind_eq_ok hRead
  obtain ⟨level, behind, hWord, hRead⟩ := bind_eq_ok hRead
  obtain ⟨-, hFirst⟩ := takes_byte .precedence bytes assoc more hByte
  obtain ⟨hSmall, hSecond⟩ := takes_word16 .precedenceLevel more level behind hWord
  have hLength : bytes.length = 3 + behind.length := by
    rw [hFirst, hSecond]
    simp only [word16, List.length_cons, List.length_nil]
    omega
  have hPresent : ∀ assoc, some ⟨level, assoc⟩ = p ∧ behind = rest →
      (∀ q, p = some q → q.level < 0x10000) ∧ bytes.length = (precedence p).length + rest.length := by
    rintro assoc ⟨rfl, rfl⟩
    exact ⟨fun q hSome => Option.some.inj hSome ▸ hSmall, by cases assoc <;> exact hLength⟩
  rcases assoc with _ | _ | _ | _ | assoc
  · obtain ⟨rfl, rfl⟩ := pure_eq_ok hRead
    exact ⟨by simp, hLength⟩
  · exact hPresent .left (pure_eq_ok hRead)
  · exact hPresent .right (pure_eq_ok hRead)
  · exact hPresent .nonAssoc (pure_eq_ok hRead)
  · cases hRead

/-- An action is read from one number, and leads to a state or rule that there is. -/
theorem readAction_eq_ok {stateCount ruleCount : Nat} {bytes rest : List UInt8} {action : Action}
    (hRead : readAction stateCount ruleCount bytes = .ok (action, rest)) :
    ∃ cell, readWord32 .actionTable bytes = .ok (cell, rest) ∧ Action.ofCell? cell = some action
      ∧ action.Fits stateCount ruleCount := by
  obtain ⟨cell, more, hWord, hNext⟩ := bind_eq_ok hRead
  cases hAction : Action.ofCell? cell with
  | none =>
      rw [hAction] at hNext
      cases hNext
  | some found =>
    rw [hAction] at hNext
    cases found with
    | error | accept =>
        obtain ⟨rfl, rfl⟩ := pure_eq_ok hNext
        exact ⟨cell, hWord, hAction, trivial⟩
    | shift | reduce =>
        obtain ⟨⟨⟩, behind, hCheck, hLast⟩ := bind_eq_ok hNext
        obtain ⟨rfl, rfl⟩ := pure_eq_ok hLast
        obtain ⟨hLess, rfl⟩ := checkBelow_eq_ok hCheck
        exact ⟨cell, hWord, hAction, hLess⟩

/-- An action that is read is in range, and its cell is the form that was read. -/
theorem takes_action (stateCount ruleCount : Nat) :
    Takes (readAction stateCount ruleCount) (fun action => word32 action.toCell)
      (Action.Fits stateCount ruleCount) := by
  intro bytes action rest hRead
  obtain ⟨cell, hWord, -, hFits⟩ := readAction_eq_ok hRead
  exact ⟨hFits, (takes_word32 .actionTable bytes cell rest hWord).2⟩

/-- A transition is read from one number, and leads to a state that there is. -/
theorem readGoto_eq_ok {stateCount : Nat} {bytes rest : List UInt8} {target : Option StateId}
    (hRead : readGoto stateCount bytes = .ok (target, rest)) :
    ∃ cell, readWord16 .gotoTable bytes = .ok (cell, rest)
      ∧ target = (if cell = noGoto then none else some cell)
      ∧ ∀ state, target = some state → state < stateCount := by
  obtain ⟨cell, more, hWord, hNext⟩ := bind_eq_ok hRead
  by_cases hNone : cell = noGoto
  · rw [if_pos hNone] at hNext
    obtain ⟨rfl, rfl⟩ := pure_eq_ok hNext
    exact ⟨cell, hWord, (if_pos hNone).symm, by simp⟩
  · rw [if_neg hNone] at hNext
    obtain ⟨⟨⟩, behind, hCheck, hLast⟩ := bind_eq_ok hNext
    obtain ⟨rfl, rfl⟩ := pure_eq_ok hLast
    obtain ⟨hLess, rfl⟩ := checkBelow_eq_ok hCheck
    exact ⟨cell, hWord, (if_neg hNone).symm, fun state hSome => Option.some.inj hSome ▸ hLess⟩

/-- So is a goto. -/
theorem takes_goto (stateCount : Nat) :
    Takes (readGoto stateCount) gotoCell
      fun target => ∀ state, target = some state → state < stateCount := by
  intro bytes target rest hRead
  obtain ⟨cell, hWord, -, hLess⟩ := readGoto_eq_ok hRead
  exact ⟨hLess, (takes_word16 .gotoTable bytes cell rest hWord).2⟩

/-- Symbols that pass the check begin with the end and the error. -/
theorem checkReserved_eq_ok {symbols : Array SymbolEntry} {bytes rest : List UInt8}
    (hRead : checkReserved symbols bytes = .ok ((), rest)) :
    (symbols[endSymbol]?.map (·.name) = some "end"
      ∧ symbols[errorSymbol]?.map (·.name) = some "ERROR") ∧ bytes = rest := by
  unfold checkReserved at hRead
  split at hRead
  · rename_i hReserved
    exact ⟨hReserved, (pure_eq_ok hRead).2⟩
  · cases hRead

/-- Symbols that pass the check have all terminals in front. -/
theorem checkTerminals_eq_ok {symbols : Array SymbolEntry} {terminalCount : Nat}
    {bytes rest : List UInt8} (hRead : checkTerminals symbols terminalCount bytes = .ok ((), rest)) :
    (∀ (i : Nat) info, symbols[i]? = some info →
      info.traits.terminal = decide (i < terminalCount)) ∧ bytes = rest := by
  unfold checkTerminals at hRead
  split at hRead
  · rename_i hAll
    refine ⟨fun i info hInfo => ?_, (pure_eq_ok hRead).2⟩
    obtain ⟨hLess, rfl⟩ := Array.getElem?_eq_some_iff.mp hInfo
    have hHere := (Array.all_eq_true.mp hAll) i (by simpa using hLess)
    simpa using hHere
  · cases hRead

/-- The way through a payload that tables are read from. What is left of the bytes is named for the
part that comes next. -/
structure Passage (bytes : List UInt8) (t : Tables) where
  atSymbolCount : List UInt8
  atSymbols : List UInt8
  atFieldCount : List UInt8
  atFields : List UInt8
  atTerminalCount : List UInt8
  atStart : List UInt8
  atRuleCount : List UInt8
  atRules : List UInt8
  atPrecedence : List UInt8
  atStateCount : List UInt8
  atActions : List UInt8
  atGotos : List UInt8
  name : readName .grammarName bytes = .ok (t.name, atSymbolCount)
  symbolCount : readWord16 .symbolCount atSymbolCount = .ok (t.symbols.size, atSymbols)
  symbols : readTimes t.symbols.size readSymbol atSymbols = .ok (t.symbols, atFieldCount)
  fieldCount : readWord16 .fieldCount atFieldCount = .ok (t.fields.size, atFields)
  fields : readTimes t.fields.size (readName .fieldName) atFields = .ok (t.fields, atTerminalCount)
  terminalCount : readWord16 .terminalCount atTerminalCount = .ok (t.terminalCount, atStart)
  start : readBelow .startSymbol t.symbols.size atStart = .ok (t.start, atRuleCount)
  ruleCount : readWord16 .ruleCount atRuleCount = .ok (t.rules.size, atRules)
  rules : readTimes t.rules.size (readProduction t.symbols.size t.terminalCount t.fields.size) atRules
    = .ok (t.rules, atPrecedence)
  precedence : readTimes t.terminalCount readPrecedence atPrecedence
    = .ok (t.tokenPrecedence, atStateCount)
  stateCount : readWord16 .stateCount atStateCount = .ok (t.stateCount, atActions)
  actions : readTimes (t.stateCount * t.terminalCount) (readAction t.stateCount t.rules.size) atActions
    = .ok (t.actions, atGotos)
  /-- Nothing is left behind the last part. -/
  gotos : readTimes (t.stateCount * (t.symbols.size - t.terminalCount)) (readGoto t.stateCount) atGotos
    = .ok (t.gotos, [])
  reservedCount : ¬t.symbols.size < 2
  reserved : t.symbols[endSymbol]?.map (·.name) = some "end"
    ∧ t.symbols[errorSymbol]?.map (·.name) = some "ERROR"
  terminalBounds : ¬(t.terminalCount < 2 ∨ t.symbols.size < t.terminalCount)
  terminals : ∀ (i : Nat) info, t.symbols[i]? = some info →
    info.traits.terminal = decide (i < t.terminalCount)
  nonterminal : ¬t.start < t.terminalCount
  states : t.stateCount ≠ 0

/-- A payload is read part by part to its end. -/
theorem exists_passage {bytes rest : List UInt8} {t : Tables}
    (hRead : readPayload bytes = .ok (t, rest)) : Nonempty (Passage bytes t) := by
  obtain ⟨title, atSymbolCount, hTitleRead, hRead⟩ := bind_eq_ok hRead
  obtain ⟨symbolCount, atSymbols, hSymbolCountRead, hRead⟩ := bind_eq_ok hRead
  obtain ⟨hReservedCount, hRead⟩ := unless_eq_ok (fun _ => rfl) hRead
  obtain ⟨symbols, atFieldCount, hSymbolsRead, hRead⟩ := bind_eq_ok hRead
  obtain ⟨⟨⟩, _, hReservedRead, hRead⟩ := bind_eq_ok hRead
  obtain ⟨hReserved, rfl⟩ := checkReserved_eq_ok hReservedRead
  obtain ⟨fieldCount, atFields, hFieldCountRead, hRead⟩ := bind_eq_ok hRead
  obtain ⟨fields, atTerminalCount, hFieldsRead, hRead⟩ := bind_eq_ok hRead
  obtain ⟨terminalCount, atStart, hTerminalCountRead, hRead⟩ := bind_eq_ok hRead
  obtain ⟨hTerminalBounds, hRead⟩ := unless_eq_ok (fun _ => rfl) hRead
  obtain ⟨⟨⟩, _, hTerminalsRead, hRead⟩ := bind_eq_ok hRead
  obtain ⟨hTerminals, rfl⟩ := checkTerminals_eq_ok hTerminalsRead
  obtain ⟨start, atRuleCount, hStartRead, hRead⟩ := bind_eq_ok hRead
  obtain ⟨hNonterminal, hRead⟩ := unless_eq_ok (fun _ => rfl) hRead
  obtain ⟨ruleCount, atRules, hRuleCountRead, hRead⟩ := bind_eq_ok hRead
  obtain ⟨rules, atPrecedence, hRulesRead, hRead⟩ := bind_eq_ok hRead
  obtain ⟨tokenPrecedence, atStateCount, hPrecedenceRead, hRead⟩ := bind_eq_ok hRead
  obtain ⟨stateCount, atActions, hStateCountRead, hRead⟩ := bind_eq_ok hRead
  obtain ⟨hStates, hRead⟩ := unless_eq_ok (fun _ => rfl) hRead
  obtain ⟨actions, atGotos, hActionsRead, hRead⟩ := bind_eq_ok hRead
  obtain ⟨gotos, left, hGotosRead, hRead⟩ := bind_eq_ok hRead
  obtain ⟨_, _, hLeftRead, hRead⟩ := bind_eq_ok hRead
  obtain ⟨rfl, rfl⟩ := Prod.mk.inj (Except.ok.inj hLeftRead)
  obtain ⟨hLeft, hRead⟩ := unless_eq_ok (fun _ => rfl) hRead
  obtain ⟨rfl, rfl⟩ := pure_eq_ok hRead
  obtain rfl := Decidable.not_not.mp hLeft
  -- As many values are read as the counts before them say.
  obtain rfl := (readTimes_eq_ok hSymbolsRead).1
  obtain rfl := (readTimes_eq_ok hFieldsRead).1
  obtain rfl := (readTimes_eq_ok hRulesRead).1
  exact ⟨{
    atSymbolCount, atSymbols, atFieldCount, atFields, atTerminalCount, atStart, atRuleCount, atRules,
    atPrecedence, atStateCount, atActions, atGotos
    name := hTitleRead
    symbolCount := hSymbolCountRead
    symbols := hSymbolsRead
    fieldCount := hFieldCountRead
    fields := hFieldsRead
    terminalCount := hTerminalCountRead
    start := hStartRead
    ruleCount := hRuleCountRead
    rules := hRulesRead
    precedence := hPrecedenceRead
    stateCount := hStateCountRead
    actions := hActionsRead
    gotos := hGotosRead
    reservedCount := hReservedCount
    reserved := hReserved
    terminalBounds := hTerminalBounds
    terminals := hTerminals
    nonterminal := hNonterminal
    states := hStates }⟩

/-- A payload that is read to its end holds compact tables, and is as long as theirs. -/
theorem compact_of_readPayload {bytes rest : List UInt8} {t : Tables}
    (hRead : readPayload bytes = .ok (t, rest)) (hSmall : bytes.length < 0x100000000) :
    t.Compact := by
  obtain ⟨way⟩ := exists_passage hRead
  obtain ⟨hTitle, hTitleLength⟩ := takes_name _ _ _ _ way.name
  obtain ⟨hSymbolCount, hSymbolCountLength⟩ := takes_word16 _ _ _ _ way.symbolCount
  obtain ⟨⟨-, hSymbols⟩, hSymbolsLength⟩ := takes_times takes_symbol _ _ _ _ way.symbols
  obtain ⟨hFieldCount, hFieldCountLength⟩ := takes_word16 _ _ _ _ way.fieldCount
  obtain ⟨⟨-, hFields⟩, hFieldsLength⟩ := takes_times (takes_name _) _ _ _ _ way.fields
  obtain ⟨-, hTerminalCountLength⟩ := takes_word16 _ _ _ _ way.terminalCount
  obtain ⟨⟨hStart, -⟩, hStartLength⟩ := takes_below _ _ _ _ _ way.start
  obtain ⟨hRuleCount, hRuleCountLength⟩ := takes_word16 _ _ _ _ way.ruleCount
  obtain ⟨⟨-, hRules⟩, hRulesLength⟩ := takes_times (takes_production _ _ _) _ _ _ _ way.rules
  obtain ⟨⟨hSlots, hPrecedence⟩, hPrecedenceLength⟩ :=
    takes_times takes_precedence _ _ _ _ way.precedence
  obtain ⟨hStateCount, hStateCountLength⟩ := takes_word16 _ _ _ _ way.stateCount
  obtain ⟨⟨hActionCount, hActions⟩, hActionsLength⟩ :=
    takes_times (takes_action _ _) _ _ _ _ way.actions
  obtain ⟨⟨hGotoCount, hGotos⟩, hGotosLength⟩ := takes_times (takes_goto _) _ _ _ _ way.gotos
  dsimp only at hSymbolsLength hFieldsLength hRulesLength hPrecedenceLength hActionsLength hGotosLength
  obtain ⟨hTerminalLow, hTerminalHigh⟩ := not_or.mp way.terminalBounds
  exact {
    name := hTitle
    symbolCount := ⟨Nat.not_lt.mp way.reservedCount, hSymbolCount⟩
    symbols := hSymbols
    reserved := way.reserved
    fieldCount := hFieldCount
    fields := hFields
    terminalCount := ⟨Nat.not_lt.mp hTerminalLow, Nat.not_lt.mp hTerminalHigh⟩
    terminals := way.terminals
    start := ⟨hStart, Nat.not_lt.mp way.nonterminal⟩
    ruleCount := hRuleCount
    rules := hRules
    precedenceCount := hSlots
    precedences := hPrecedence
    stateCount := ⟨way.states, Nat.le_of_lt_succ hStateCount⟩
    actionCount := hActionCount
    actions := hActions
    gotoCount := hGotoCount
    gotos := hGotos
    payload := by
      simp only [payload, List.length_append]
      omega }

theorem word16_ofBytes2 (a b : UInt8) : word16 (ofBytes2 a b) = [a, b] := by
  have hLow := UInt8.toNat_lt a
  have hHigh := UInt8.toNat_lt b
  simp only [word16, ofBytes2, List.cons.injEq, and_true, ← UInt8.toNat_inj, UInt8.toNat_ofNat']
  omega

theorem word32_ofBytes4 (a b c d : UInt8) : word32 (ofBytes4 a b c d) = [a, b, c, d] := by
  have hFirst := UInt8.toNat_lt a
  have hSecond := UInt8.toNat_lt b
  have hThird := UInt8.toNat_lt c
  have hFourth := UInt8.toNat_lt d
  simp only [word32, ofBytes4, List.cons.injEq, and_true, ← UInt8.toNat_inj, UInt8.toNat_ofNat']
  omega

/-- Four bytes make a number below 2³². -/
theorem ofBytes4_lt (a b c d : UInt8) : ofBytes4 a b c d < 0x100000000 := by
  have hFirst := UInt8.toNat_lt a
  have hSecond := UInt8.toNat_lt b
  have hThird := UInt8.toNat_lt c
  have hFourth := UInt8.toNat_lt d
  simp only [ofBytes4]
  omega

theorem length_sealed (free : UInt8 × UInt8) (payload : List UInt8) :
    (sealed free payload).length = 16 + payload.length := by
  simp only [sealed, List.length_append]
  rfl

end Blob

/-- What loads is a payload behind a header that goes with it. -/
theorem Tables.exists_sealed_of_ofBytes {bytes : List UInt8} {t : Tables}
    (hLoads : Tables.ofBytes bytes = .ok t) :
    ∃ free payload rest, bytes = Blob.sealed free payload ∧ payload.length < 0x100000000
      ∧ Blob.readPayload payload = .ok (t, rest) := by
  unfold Tables.ofBytes at hLoads
  split at hLoads
  · rename_i m0 m1 m2 m3 v0 v1 free₀ free₁ c0 c1 c2 c3 l0 l1 l2 l3 payload
    dsimp only at hLoads
    split at hLoads
    · cases hLoads
    split at hLoads
    · cases hLoads
    split at hLoads
    · cases hLoads
    split at hLoads
    · cases hLoads
    rename_i hMagic hVersion hLength hChecksum
    rw [ne_eq, Decidable.not_not] at hMagic hVersion hLength hChecksum
    cases hRead : Blob.readPayload payload with
    | error cause =>
        have hRun : StateT.run Blob.readPayload payload = .error cause := hRead
        rw [hRun] at hLoads
        cases hLoads
    | ok found =>
        have hRun : StateT.run Blob.readPayload payload = .ok found := hRead
        rw [hRun] at hLoads
        obtain rfl := Except.ok.inj hLoads
        refine ⟨(free₀, free₁), payload, found.2, ?_, ?_, hRead⟩
        · rw [Blob.sealed, ← hMagic, ← hVersion, hLength, hChecksum, Blob.word16_ofBytes2,
            Blob.word32_ofBytes4, Blob.word32_ofBytes4]
          rfl
        · rw [hLength]
          exact Blob.ofBytes4_lt l0 l1 l2 l3
  · cases hLoads

/-- Only compact tables load. -/
theorem Tables.compact_of_ofBytes {bytes : List UInt8} {t : Tables}
    (hLoads : Tables.ofBytes bytes = .ok t) : t.Compact := by
  obtain ⟨free, payload, rest, -, hLength, hRead⟩ := exists_sealed_of_ofBytes hLoads
  exact Blob.compact_of_readPayload hRead hLength

end IncrementalParsing
