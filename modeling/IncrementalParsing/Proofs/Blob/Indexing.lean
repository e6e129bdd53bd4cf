import IncrementalParsing.Proofs.Blob.Shipping

/-! Where the cells of loaded tables stand. Every reader leaves an end of what it is given, and cells of
one width stand one behind the other. So the two tables are the end of the blob, every state and symbol
has bytes of its own there, and what the tables answer is what these bytes say. -/
namespace IncrementalParsing
namespace Blob
variable {α β : Type} {read : Reader α}

/-- A reader leaves an end of what it is given. -/
def Leaves (read : Reader α) : Prop :=
  ∀ bytes a rest, read bytes = .ok (a, rest) → rest <:+ bytes

/-- A reader takes cells of one width, and they say what it reads. -/
def TakesCell (read : Reader α) (width : Nat) (meaning : List UInt8 → α → Prop) : Prop :=
  ∀ bytes a rest, read bytes = .ok (a, rest) →
    ∃ cell, bytes = cell ++ rest ∧ cell.length = width ∧ meaning cell a

/-- A cell that is taken leaves what is behind it. -/
theorem TakesCell.leaves {width : Nat} {meaning : List UInt8 → α → Prop}
    (h : TakesCell read width meaning) : Leaves read := by
  intro bytes a rest hRead
  obtain ⟨cell, rfl, -⟩ := h bytes a rest hRead
  exact List.suffix_append cell rest

theorem leaves_pure (a : α) : Leaves (pure a : Reader α) := by
  intro bytes b rest hRead
  obtain ⟨-, rfl⟩ := pure_eq_ok hRead
  exact List.suffix_rfl

theorem leaves_throw (cause : LoadError) : Leaves (throw cause : Reader α) :=
  fun _ _ _ hRead => nomatch hRead

/-- One reader behind another leaves what both do. -/
theorem Leaves.bind {next : α → Reader β} (h : Leaves read) (hNext : ∀ a, Leaves (next a)) :
    Leaves (read >>= next) := by
  intro bytes b rest hRead
  obtain ⟨a, more, hFirst, hSecond⟩ := bind_eq_ok hRead
  exact (hNext a more b rest hSecond).trans (h bytes a more hFirst)

theorem Leaves.ite {c : Prop} [Decidable c] {other : Reader α} (h : Leaves read)
    (hOther : Leaves other) : Leaves (if c then read else other) := by
  split
  · exact h
  · exact hOther

/-- A byte is a cell of its own. -/
theorem takesCell_byte (part : BlobPart) : TakesCell (readByte part) 1 fun _ _ => True := by
  intro bytes n rest hRead
  match bytes with
  | [] => cases hRead
  | a :: bytes =>
      obtain ⟨-, rfl⟩ := Prod.mk.inj (Except.ok.inj hRead)
      exact ⟨[a], rfl, rfl, trivial⟩

/-- A word of two bytes is the cell of its number. -/
theorem takesCell_word16 (part : BlobPart) :
    TakesCell (readWord16 part) 2 fun cell n => n < 0x10000 ∧ cell = word16 n := by
  intro bytes n rest hRead
  have hSmall := (takes_word16 part bytes n rest hRead).1
  match bytes with
  | [] | [_] => cases hRead
  | a :: b :: bytes =>
      obtain ⟨rfl, rfl⟩ := Prod.mk.inj (Except.ok.inj hRead)
      exact ⟨[a, b], rfl, rfl, hSmall, (word16_ofBytes2 a b).symm⟩

/-- A word of four bytes is too. -/
theorem takesCell_word32 (part : BlobPart) :
    TakesCell (readWord32 part) 4 fun cell n => n < 0x100000000 ∧ cell = word32 n := by
  intro bytes n rest hRead
  match bytes with
  | [] | [_] | [_, _] | [_, _, _] => cases hRead
  | a :: b :: c :: d :: bytes =>
      obtain ⟨rfl, rfl⟩ := Prod.mk.inj (Except.ok.inj hRead)
      exact ⟨[a, b, c, d], rfl, rfl, ofBytes4_lt a b c d, (word32_ofBytes4 a b c d).symm⟩

/-- An action is the cell of four bytes that means it. -/
theorem takesCell_action (stateCount ruleCount : Nat) :
    TakesCell (readAction stateCount ruleCount) 4 fun cell action =>
      ∃ n < 0x100000000, cell = word32 n ∧ Action.ofCell? n = some action := by
  intro bytes action rest hRead
  obtain ⟨n, hWord, hAction, -⟩ := readAction_eq_ok hRead
  obtain ⟨cell, hBytes, hWidth, hSmall, hCell⟩ := takesCell_word32 _ _ _ _ hWord
  exact ⟨cell, hBytes, hWidth, n, hSmall, hCell, hAction⟩

/-- A goto is the cell of two bytes that means it. -/
theorem takesCell_goto (stateCount : Nat) :
    TakesCell (readGoto stateCount) 2 fun cell target =>
      ∃ n < 0x10000, cell = word16 n ∧ target = if n = noGoto then none else some n := by
  intro bytes target rest hRead
  obtain ⟨n, hWord, hTarget, -⟩ := readGoto_eq_ok hRead
  obtain ⟨cell, hBytes, hWidth, hSmall, hCell⟩ := takesCell_word16 _ _ _ _ hWord
  exact ⟨cell, hBytes, hWidth, n, hSmall, hCell, hTarget⟩

/-- Cells that are read one after the other stand one behind the other. -/
theorem Reading.cells {width : Nat} {meaning : List UInt8 → α → Prop} (h : TakesCell read width meaning)
    {as : List α} {bytes rest : List UInt8} (hReading : Reading read bytes as rest) :
    rest = bytes.drop (as.length * width) ∧ bytes.length = as.length * width + rest.length
      ∧ ∀ (i : Nat) a, as[i]? = some a → meaning ((bytes.drop (i * width)).take width) a := by
  induction hReading with
  | done => simp
  | @next bytes behind rest first as hFirst _ ih =>
      obtain ⟨cell, rfl, rfl, hMeaning⟩ := h bytes first behind hFirst
      obtain ⟨hRest, hLength, hCells⟩ := ih
      refine ⟨?_, ?_, fun i a hAt => ?_⟩
      · rw [List.length_cons, Nat.succ_mul, Nat.add_comm, List.drop_length_add_append]
        exact hRest
      · rw [List.length_append, List.length_cons, Nat.succ_mul, hLength]
        omega
      · cases i with
        | zero =>
            obtain rfl := Option.some.inj hAt
            simpa using hMeaning
        | succ i =>
            rw [Nat.succ_mul, Nat.add_comm, List.drop_length_add_append]
            exact hCells i a hAt

/-- Cells that are read one behind the other lie side by side. -/
theorem TakesCell.times {width : Nat} {meaning : List UInt8 → α → Prop}
    (h : TakesCell read width meaning) {count : Nat} {as : Array α} {bytes rest : List UInt8}
    (hRead : readTimes count read bytes = .ok (as, rest)) :
    rest = bytes.drop (count * width) ∧ bytes.length = count * width + rest.length
      ∧ ∀ (i : Nat) a, as[i]? = some a → meaning ((bytes.drop (i * width)).take width) a := by
  obtain ⟨rfl, hReading⟩ := readTimes_eq_ok hRead
  obtain ⟨hRest, hLength, hCells⟩ := hReading.cells h
  exact ⟨hRest, hLength, fun i a hAt => hCells i a (by simpa using hAt)⟩

theorem leaves_byte (part : BlobPart) : Leaves (readByte part) := (takesCell_byte part).leaves

theorem leaves_word16 (part : BlobPart) : Leaves (readWord16 part) := (takesCell_word16 part).leaves

theorem leaves_bytes (part : BlobPart) (count : Nat) : Leaves (readBytes part count) := by
  intro bytes front rest hRead
  simp only [readBytes] at hRead
  split at hRead
  · obtain ⟨-, rfl⟩ := Prod.mk.inj (Except.ok.inj hRead)
    exact List.drop_suffix count bytes
  · cases hRead

theorem leaves_checkBelow (part : BlobPart) (value bound : Nat) :
    Leaves (checkBelow part value bound) :=
  .ite (leaves_pure ()) (leaves_throw _)

theorem leaves_below (part : BlobPart) (bound : Nat) : Leaves (readBelow part bound) :=
  (leaves_word16 part).bind fun value => (leaves_checkBelow part value bound).bind fun _ =>
    leaves_pure value

/-- A name leaves what is behind its length and its bytes. -/
theorem leaves_name (part : BlobPart) : Leaves (readName part) := by
  refine (leaves_word16 part).bind fun length => (leaves_bytes part length).bind fun bytes => ?_
  split
  · exact leaves_pure _
  · exact leaves_throw _

/-- What is left of a repeated reading is what the bytes end in. -/
theorem Reading.suffix (h : Leaves read) {as : List α} {bytes rest : List UInt8}
    (hReading : Reading read bytes as rest) : rest <:+ bytes := by
  induction hReading with
  | done => exact List.suffix_rfl
  | next hFirst _ ih => exact ih.trans (h _ _ _ hFirst)

theorem Leaves.times (h : Leaves read) (count : Nat) : Leaves (readTimes count read) :=
  fun _ _ _ hRead => (readTimes_eq_ok hRead).2.suffix h

/-- The parts of a symbol leave what is behind them, and so do those of a slot, a rule and a precedence. -/
theorem leaves_symbol : Leaves readSymbol := by
  refine (leaves_byte _).bind fun bits => ?_
  split
  · exact (leaves_name _).bind fun name => leaves_pure _
  · exact leaves_throw _

theorem leaves_slot (symbolCount fieldCount : Nat) : Leaves (readSlot symbolCount fieldCount) :=
  (leaves_below _ _).bind fun _ => (leaves_below _ _).bind fun _ => leaves_pure _

theorem leaves_production (symbolCount terminalCount fieldCount : Nat) :
    Leaves (readProduction symbolCount terminalCount fieldCount) := by
  refine (leaves_below _ _).bind fun lhs => .ite ((leaves_throw _).bind fun _ => ?_) ?_
  all_goals
    exact (leaves_word16 _).bind fun length =>
      ((leaves_slot symbolCount fieldCount).times length).bind fun rhs => leaves_pure _

theorem leaves_precedence : Leaves readPrecedence := by
  refine (leaves_byte _).bind fun assoc => (leaves_word16 _).bind fun level => ?_
  split
  · exact leaves_pure _
  · exact leaves_pure _
  · exact leaves_pure _
  · exact leaves_pure _
  · exact leaves_throw _

/-- The two tables are an end of the payload. -/
theorem Passage.suffix {bytes : List UInt8} {t : Tables} (way : Passage bytes t) :
    way.atActions <:+ bytes := by
  have hFields : way.atFields <:+ bytes := by
    have hName := leaves_name _ _ _ _ way.name
    have hSymbolCount := leaves_word16 _ _ _ _ way.symbolCount
    have hSymbols := leaves_symbol.times _ _ _ _ way.symbols
    have hFieldCount := leaves_word16 _ _ _ _ way.fieldCount
    exact ((hFieldCount.trans hSymbols).trans hSymbolCount).trans hName
  have hRules : way.atRules <:+ way.atFields := by
    have hNames := (leaves_name _).times _ _ _ _ way.fields
    have hTerminalCount := leaves_word16 _ _ _ _ way.terminalCount
    have hStart := leaves_below _ _ _ _ _ way.start
    have hRuleCount := leaves_word16 _ _ _ _ way.ruleCount
    exact ((hRuleCount.trans hStart).trans hTerminalCount).trans hNames
  have hActions : way.atActions <:+ way.atRules := by
    have hProductions := (leaves_production _ _ _).times _ _ _ _ way.rules
    have hPrecedence := leaves_precedence.times _ _ _ _ way.precedence
    have hStateCount := leaves_word16 _ _ _ _ way.stateCount
    exact (hStateCount.trans hPrecedence).trans hProductions
  exact (hActions.trans hRules).trans hFields

end Blob

/-- A row and a column of a table give a place in it, and no others give the same place. -/
theorem lt_of_row_of_column {rows width row column : Nat} (hRow : row < rows) (hColumn : column < width) :
    row * width + column < rows * width := by
  calc row * width + column < row * width + width := Nat.add_lt_add_left hColumn _
    _ = (row + 1) * width := (Nat.succ_mul row width).symm
    _ ≤ rows * width := Nat.mul_le_mul_right width hRow

/-- An index of a cell names one row and one column. -/
theorem row_and_column_unique {width row row' column column' : Nat} (hColumn : column < width)
    (hColumn' : column' < width) (hSame : row * width + column = row' * width + column') :
    row = row' ∧ column = column' := by
  have hRow : row = row' := by
    rcases Nat.lt_trichotomy row row' with hLess | hEqual | hLess
    · have hPlace := lt_of_row_of_column hLess hColumn
      omega
    · exact hEqual
    · have hPlace := lt_of_row_of_column hLess hColumn'
      omega
  subst hRow
  exact ⟨rfl, Nat.add_left_cancel hSame⟩

namespace Tables

/-- Where the cell of a state and a symbol stands, if the actions stand from `base` on and the
transitions behind them. An action has four bytes and a transition two. -/
def cellPlace (t : Tables) (base : Nat) (state : StateId) (symbol : SymbolId) : Nat :=
  if symbol < t.terminalCount then base + (state * t.terminalCount + symbol) * 4
  else base + t.stateCount * t.terminalCount * 4
    + (state * t.nonterminalCount + (symbol - t.terminalCount)) * 2

def cellWidth (t : Tables) (symbol : SymbolId) : Nat :=
  if symbol < t.terminalCount then 4 else 2

/-- The bytes of the cell of a state and a symbol. -/
def cellBytes (t : Tables) (b : List UInt8) (base : Nat) (state : StateId) (symbol : SymbolId) :
    List UInt8 :=
  (b.drop (t.cellPlace base state symbol)).take (t.cellWidth symbol)

/-- The cells of the tables stand in these bytes from `base` to the end. -/
structure Stands (t : Tables) (b : List UInt8) (base : Nat) : Prop where
  behindHeader : 16 ≤ base
  whole : base + t.stateCount * t.terminalCount * 4 + t.stateCount * t.nonterminalCount * 2 = b.length
  /-- An action is the one that its own cell is decoded to. -/
  action : ∀ state < t.stateCount, ∀ symbol < t.terminalCount, ∃ cell < 0x100000000,
    t.cellBytes b base state symbol = Blob.word32 cell
      ∧ Action.ofCell? cell = some (t.action state symbol)
  /-- A transition is the one that its own cell holds. -/
  goto : ∀ state < t.stateCount, ∀ symbol < t.symbolCount, t.terminalCount ≤ symbol →
    ∃ cell < 0x10000, t.cellBytes b base state symbol = Blob.word16 cell
      ∧ t.goto state symbol = if cell = noGoto then none else some cell
  /-- No two cells share a byte. -/
  apart : ∀ state < t.stateCount, ∀ symbol < t.symbolCount, ∀ state' < t.stateCount,
    ∀ symbol' < t.symbolCount, (state, symbol) ≠ (state', symbol') →
      t.cellPlace base state symbol + t.cellWidth symbol ≤ t.cellPlace base state' symbol'
        ∨ t.cellPlace base state' symbol' + t.cellWidth symbol' ≤ t.cellPlace base state symbol

/-- Whatever is asked about states, symbols, rules and fields that there are has an entry, and all that
is answered is among them. -/
structure Answers (t : Tables) : Prop where
  action : ∀ state < t.stateCount, ∀ symbol < t.terminalCount,
    t.actions[state * t.terminalCount + symbol]? = some (t.action state symbol)
      ∧ (t.action state symbol).Fits t.stateCount t.rules.size
  goto : ∀ state < t.stateCount, ∀ symbol < t.symbolCount, t.terminalCount ≤ symbol →
    t.gotos[state * t.nonterminalCount + (symbol - t.terminalCount)]? = some (t.goto state symbol)
      ∧ ∀ target, t.goto state symbol = some target → target < t.stateCount
  symbol : ∀ symbol < t.symbolCount,
    t.symbols[symbol]? = some ⟨t.symbolName symbol, t.symbolTraits symbol⟩
      ∧ (t.symbolTraits symbol).terminal = t.isTerminal symbol
  precedence : ∀ symbol < t.terminalCount, t.tokenPrecedence[symbol]? = some (t.precedence? symbol)
  field : ∀ field, 0 < field → field ≤ t.fields.size → (t.fieldName? field).isSome = true
  rule : ∀ p ∈ t.rules, p.lhs < t.symbolCount ∧ t.terminalCount ≤ p.lhs
    ∧ ∀ s ∈ p.rhs, s.symbol < t.symbolCount ∧ ∀ field ∈ s.field, (t.fieldName? field).isSome = true

variable {t : Tables}

/-- A nonterminal has a column among the gotos. -/
theorem column_lt {symbol : SymbolId} (hSymbol : symbol < t.symbolCount)
    (hNonterminal : t.terminalCount ≤ symbol) : symbol - t.terminalCount < t.nonterminalCount :=
  Nat.sub_lt_sub_right hNonterminal hSymbol

/-- A field has a name. -/
theorem isSome_fieldName? {field : FieldId} (hPositive : 0 < field) (hBound : field ≤ t.fields.size) :
    (t.fieldName? field).isSome = true := by
  have hPlace : field - 1 < t.fields.size := Nat.sub_one_lt_of_le hPositive hBound
  rw [fieldName?, if_neg (Nat.ne_of_gt hPositive), Array.getElem?_eq_getElem hPlace]
  rfl

/-- Cells of different states or symbols share no byte. -/
theorem cells_apart {base state symbol state' symbol' : Nat} (hState : state < t.stateCount)
    (hSymbol : symbol < t.symbolCount) (hState' : state' < t.stateCount)
    (hSymbol' : symbol' < t.symbolCount) (hOther : (state, symbol) ≠ (state', symbol')) :
    t.cellPlace base state symbol + t.cellWidth symbol ≤ t.cellPlace base state' symbol'
      ∨ t.cellPlace base state' symbol' + t.cellWidth symbol' ≤ t.cellPlace base state symbol := by
  unfold cellPlace cellWidth
  rcases Nat.lt_or_ge symbol t.terminalCount with hTerminal | hTerminal <;>
    rcases Nat.lt_or_ge symbol' t.terminalCount with hTerminal' | hTerminal'
  · have hPlace : state * t.terminalCount + symbol ≠ state' * t.terminalCount + symbol' := by
      intro hSame
      obtain ⟨rfl, rfl⟩ := row_and_column_unique hTerminal hTerminal' hSame
      exact hOther rfl
    rw [if_pos hTerminal, if_pos hTerminal', if_pos hTerminal, if_pos hTerminal']
    omega
  · have hInside := lt_of_row_of_column hState hTerminal
    rw [if_pos hTerminal, if_neg (Nat.not_lt.mpr hTerminal'), if_pos hTerminal]
    omega
  · have hInside := lt_of_row_of_column hState' hTerminal'
    rw [if_neg (Nat.not_lt.mpr hTerminal), if_pos hTerminal', if_pos hTerminal']
    omega
  · have hPlace : state * t.nonterminalCount + (symbol - t.terminalCount)
        ≠ state' * t.nonterminalCount + (symbol' - t.terminalCount) := by
      intro hSame
      obtain ⟨rfl, hColumn⟩ := row_and_column_unique (column_lt hSymbol hTerminal)
        (column_lt hSymbol' hTerminal') hSame
      obtain rfl : symbol = symbol' := by omega
      exact hOther rfl
    rw [if_neg (Nat.not_lt.mpr hTerminal), if_neg (Nat.not_lt.mpr hTerminal'),
      if_neg (Nat.not_lt.mpr hTerminal), if_neg (Nat.not_lt.mpr hTerminal')]
    omega

/-- Tables whose counts agree answer every question that is in range. -/
theorem Compact.answers (h : t.Compact) : t.Answers where
  action state hState symbol hSymbol := by
    have hPlace : state * t.terminalCount + symbol < t.actions.size :=
      h.actionCount ▸ lt_of_row_of_column hState hSymbol
    have hCell : t.actions[state * t.terminalCount + symbol]? = some (t.action state symbol) := by
      rw [Tables.action, isTerminal, if_pos (decide_eq_true hSymbol), Array.getD_eq_getD_getElem?,
        Array.getElem?_eq_getElem hPlace]
      rfl
    exact ⟨hCell, h.actions _ (Array.mem_of_getElem? hCell)⟩
  goto state hState symbol hSymbol hNonterminal := by
    have hPlace : state * t.nonterminalCount + (symbol - t.terminalCount) < t.gotos.size :=
      h.gotoCount ▸ lt_of_row_of_column hState (column_lt hSymbol hNonterminal)
    have hCell : t.gotos[state * t.nonterminalCount + (symbol - t.terminalCount)]?
        = some (t.goto state symbol) := by
      rw [Tables.goto, if_neg (Nat.not_lt.mpr hNonterminal), Array.getElem?_eq_getElem hPlace]
      rfl
    exact ⟨hCell, h.gotos _ (Array.mem_of_getElem? hCell)⟩
  symbol symbol hSymbol := by
    have hEntry : t.symbols[symbol]? = some t.symbols[symbol] := Array.getElem?_eq_getElem hSymbol
    have hTraits : t.symbolTraits symbol = t.symbols[symbol].traits := by
      rw [symbolTraits, hEntry]
    have hName : t.symbolName symbol = t.symbols[symbol].name := by
      rw [symbolName, hEntry]
    rw [hTraits, hName]
    exact ⟨hEntry, h.terminals symbol _ hEntry⟩
  precedence symbol hSymbol := by
    have hPlace : symbol < t.tokenPrecedence.size := h.precedenceCount ▸ hSymbol
    rw [precedence?, Array.getElem?_eq_getElem hPlace]
    rfl
  field field hPositive hBound := isSome_fieldName? hPositive hBound
  rule p hMem := by
    obtain ⟨⟨hLhs, hNonterminal⟩, -, hSlots⟩ := h.rules p hMem
    refine ⟨hLhs, hNonterminal, fun s hSlot => ?_⟩
    obtain ⟨hSymbol, hField⟩ := hSlots s hSlot
    refine ⟨hSymbol, fun field hSome => ?_⟩
    obtain ⟨hPositive, hBound⟩ := hField field hSome
    exact isSome_fieldName? hPositive hBound

/-- What loads stands in the end of the blob. -/
theorem exists_stands {b : List UInt8} (hLoads : Tables.ofBytes b = .ok t) : ∃ base, t.Stands b base := by
  have hAnswers := (compact_of_ofBytes hLoads).answers
  obtain ⟨free, payload, rest, hSealed, -, hRead⟩ := exists_sealed_of_ofBytes hLoads
  obtain ⟨way⟩ := Blob.exists_passage hRead
  obtain ⟨hGotos, hActionLength, hActionCells⟩ := (Blob.takesCell_action _ _).times way.actions
  obtain ⟨-, hGotoLength, hGotoCells⟩ := (Blob.takesCell_goto _).times way.gotos
  have hLength : b.length = 16 + payload.length := hSealed ▸ Blob.length_sealed free payload
  have hInside : way.atActions.length ≤ payload.length := way.suffix.length_le
  -- How long the front is depends on the names in it, so the place of the tables is found from the end.
  obtain ⟨base, hBase⟩ : ∃ base, base = b.length - way.atActions.length := ⟨_, rfl⟩
  have hActions : b.drop base = way.atActions := by
    have hSuffix : way.atActions <:+ b :=
      way.suffix.trans (hSealed ▸ List.suffix_append _ payload)
    rw [hBase]
    exact (List.suffix_iff_eq_drop.mp hSuffix).symm
  rw [List.length_nil, Nat.add_zero] at hGotoLength
  refine ⟨base, by omega, ?_, fun state hState symbol hSymbol => ?_,
    fun state hState symbol hSymbol hNonterminal => ?_, fun state hState symbol hSymbol state' hState'
      symbol' hSymbol' hOther => cells_apart hState hSymbol hState' hSymbol' hOther⟩
  · change base + t.stateCount * t.terminalCount * 4
      + t.stateCount * (t.symbols.size - t.terminalCount) * 2 = b.length
    omega
  · obtain ⟨cell, hSmall, hCell, hAction⟩ :=
      hActionCells _ _ (hAnswers.action state hState symbol hSymbol).1
    refine ⟨cell, hSmall, ?_, hAction⟩
    rw [cellBytes, cellPlace, cellWidth, if_pos hSymbol, if_pos hSymbol, ← List.drop_drop, hActions]
    exact hCell
  · obtain ⟨cell, hSmall, hCell, hGoto⟩ :=
      hGotoCells _ _ (hAnswers.goto state hState symbol hSymbol hNonterminal).1
    refine ⟨cell, hSmall, ?_, hGoto⟩
    rw [cellBytes, cellPlace, cellWidth, if_neg (Nat.not_lt.mpr hNonterminal),
      if_neg (Nat.not_lt.mpr hNonterminal), Nat.add_assoc, ← List.drop_drop, hActions,
      ← List.drop_drop, ← hGotos]
    exact hCell

/-- Any bytes are refused or they are loaded. What is loaded can be indexed by all states, symbols, rules
and fields that it has, and its cells stand one behind the other up to the end of the bytes. -/
theorem loaded_can_be_indexed (b : List UInt8) : (∃ cause, Tables.ofBytes b = .error cause)
    ∨ ∃ t base, Tables.ofBytes b = .ok t ∧ t.Answers ∧ t.Stands b base := by
  cases hLoads : Tables.ofBytes b with
  | error cause => exact .inl ⟨cause, rfl⟩
  | ok t =>
      obtain ⟨base, hStands⟩ := exists_stands hLoads
      exact .inr ⟨t, base, rfl, (compact_of_ofBytes hLoads).answers, hStands⟩

end Tables

/-- The blob of the tables of labels can be indexed. -/
theorem Labels.tables_can_be_indexed :
    Tables.ofBytes tables.toBytes = .ok tables ∧ tables.Answers
      ∧ ∃ base, tables.Stands tables.toBytes base := by
  have hLoads : Tables.ofBytes tables.toBytes = .ok tables := Tables.ofBytes_toBytes compact_tables
  rcases Tables.loaded_can_be_indexed tables.toBytes with ⟨cause, hRefused⟩ | ⟨t, base, hSame, hRest⟩
  · rw [hLoads] at hRefused
    cases hRefused
  · obtain rfl := Except.ok.inj (hLoads.symm.trans hSame)
    exact ⟨hLoads, hRest.1, base, hRest.2⟩

end IncrementalParsing
