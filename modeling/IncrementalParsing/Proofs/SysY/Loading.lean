import IncrementalParsing.Proofs.Blob.Shipping
import IncrementalParsing.Proofs.SysY.States
import IncrementalParsing.SysY.Language

/-! The language SysY is what its grammar says: its tables fit their blob, so they come back from it
unchanged. -/
namespace IncrementalParsing
namespace SysY

theorem listed_theGrammar : theGrammar.Listed where
  reserved := by decide +kernel
  room := by decide
  terminals := by
    have hKinds : ∀ i < symbols.length, (symbols[i]?.map (·.traits.terminal))
        = some (decide (i < Terminal.all.length)) := by
      decide +kernel
    intro i info hInfo
    have hSymbol : symbols[i]? = some info := by simpa [theGrammar] using hInfo
    have hKind := hKinds i (List.getElem?_eq_some_iff.mp hSymbol).1
    rw [hSymbol] at hKind
    exact Option.some.inj hKind
  precedences := by simp [theGrammar]

section
variable {α : Type}

theorem length_flatMap_le {f : α → List UInt8} {k : Nat} {xs : List α}
    (h : ∀ x ∈ xs, (f x).length ≤ k) : (xs.flatMap f).length ≤ xs.length * k := by
  induction xs with
  | nil => simp
  | cons x xs ih =>
      have hRest := ih fun y hMem => h y (by simp [hMem])
      have hFirst := h x (by simp)
      rw [List.flatMap_cons, List.length_append, List.length_cons, Nat.succ_mul]
      omega

/-- The length of a payload, by bounds on its names and its rules. -/
theorem length_payload_le {t : Tables} {bytes slots : Nat} (hName : t.name.toUTF8.size ≤ bytes)
    (hSymbols : ∀ info ∈ t.symbols, info.name.toUTF8.size ≤ bytes)
    (hFields : ∀ label ∈ t.fields, label.toUTF8.size ≤ bytes)
    (hRules : ∀ r ∈ t.rules, r.rhs.length ≤ slots) :
    (Blob.payload t).length ≤ 14 + bytes + t.symbols.size * (bytes + 3) + t.fields.size * (bytes + 2)
      + t.rules.size * (slots * 4 + 4) + t.tokenPrecedence.size * 3
      + (t.actions.size * 4 + t.gotos.size * 2) := by
  have hLabel : ∀ label : String, label.toUTF8.size ≤ bytes → (Blob.name label).length ≤ bytes + 2 := by
    intro label hSize
    simp only [Blob.name, Blob.word16, List.length_append, List.length_take, List.length_cons,
      List.length_nil, Text.length_toList]
    omega
  have hSymbolBytes : (t.symbols.toList.flatMap Blob.symbol).length ≤ t.symbols.size * (bytes + 3) :=
    length_flatMap_le fun info hMem =>
      Nat.succ_le_succ (hLabel info.name (hSymbols info (by simpa using hMem)))
  have hFieldBytes : (t.fields.toList.flatMap Blob.name).length ≤ t.fields.size * (bytes + 2) :=
    length_flatMap_le fun label hMem => hLabel label (hFields label (by simpa using hMem))
  have hRuleBytes : (t.rules.toList.flatMap Blob.production).length
      ≤ t.rules.size * (slots * 4 + 4) := by
    refine length_flatMap_le fun r hMem => ?_
    have hSlots : (r.rhs.flatMap Blob.slot).length ≤ r.rhs.length * 4 :=
      length_flatMap_le fun slot _ => Nat.le_refl _
    have hCount := Nat.mul_le_mul_right 4 (hRules r (by simpa using hMem))
    simp only [Blob.production, Blob.word16, List.length_append, List.length_cons, List.length_nil]
    omega
  have hLevelBytes : (t.tokenPrecedence.toList.flatMap Blob.precedence).length
      ≤ t.tokenPrecedence.size * 3 :=
    length_flatMap_le fun level _ => by cases level <;> exact Nat.le_refl _
  have hActionBytes : (t.actions.toList.flatMap fun action => Blob.word32 action.toCell).length
      ≤ t.actions.size * 4 := length_flatMap_le fun action _ => Nat.le_refl _
  have hGotoBytes : (t.gotos.toList.flatMap Blob.gotoCell).length ≤ t.gotos.size * 2 :=
    length_flatMap_le fun target _ => Nat.le_refl _
  have hFirst := hLabel t.name hName
  simp only [Blob.payload, List.length_append, Blob.word16, List.length_cons, List.length_nil]
  omega

end

/-- The tables of the grammar fit their blob. -/
theorem compact_tables {t : Tables} (hTables : Tables.ofGrammar theGrammar = .ok t) : t.Compact := by
  obtain ⟨m, h⟩ := Tables.generated_ofGrammar hTables
  have hSymbols : t.symbols = symbols.toArray := h.symbols
  have hFields : t.fields = (Field.all.map Field.label).toArray := h.fields
  have hTerminals : t.terminalCount = Terminal.all.length := h.terminalCount
  have hRules : t.rules = (rules.toArray.map (·.toProduction)) := h.rules
  have hPrecedence : t.tokenPrecedence = (Array.range Terminal.all.length).map precedence? :=
    h.tokenPrecedence
  have hName : t.name.toUTF8.size ≤ 40 := by rw [h.name]; decide +kernel
  have hNames : ∀ info ∈ t.symbols, info.name.toUTF8.size ≤ 40 := by
    have hAll : ∀ info ∈ symbols, info.name.toUTF8.size ≤ 40 := by decide +kernel
    rw [hSymbols]
    exact fun info hMem => hAll info (by simpa using hMem)
  have hLabels : ∀ label ∈ t.fields, label.toUTF8.size ≤ 40 := by
    have hAll : ∀ label ∈ Field.all.map Field.label, label.toUTF8.size ≤ 40 := by decide +kernel
    rw [hFields]
    exact fun label hMem => hAll label (by simpa using hMem)
  have hLengths : ∀ p ∈ t.rules, p.rhs.length ≤ 8 := by
    have hAll : ∀ r ∈ rules, r.rhs.length ≤ 8 := by decide +kernel
    intro p hMem
    rw [hRules] at hMem
    obtain ⟨r, hRule, rfl⟩ := Array.mem_map.mp hMem
    exact hAll r (by simpa using hRule)
  have hShort : 40 ≤ Blob.maxName := by decide
  refine h.compact proper_theGrammar listed_theGrammar {
    name := hName.trans hShort
    symbols := fun info hMem => (hNames info hMem).trans hShort
    fieldCount := by rw [hFields]; decide
    fields := fun label hMem => (hLabels label hMem).trans hShort
    ruleCount := by rw [hRules, Array.size_map]; decide
    lengths := fun p hMem => Nat.lt_of_le_of_lt (hLengths p hMem) (by decide)
    precedences := ?_
    payload := ?_ }
  · have hLevels : ∀ i < Terminal.all.length, ((precedence? i).map (·.level)).getD 0 < 0x10000 := by
      decide +kernel
    rw [hPrecedence]
    intro p hMem q hSome
    obtain ⟨i, hRange, rfl⟩ := Array.mem_map.mp hMem
    have hLevel := hLevels i (by simpa using hRange)
    rw [hSome] at hLevel
    exact hLevel
  · have hStates : t.stateCount ≤ Automaton.maxStates := by
      rw [h.stateCount]
      exact Automaton.size_ofGrammar h.states
    have hCells : t.actions.size + t.gotos.size ≤ Automaton.maxStates * symbols.length := by
      have hSum : Terminal.all.length + (symbols.length - Terminal.all.length) = symbols.length := by
        decide
      rw [h.size_actions, h.size_gotos, Tables.nonterminalCount, hSymbols, hTerminals,
        List.size_toArray, ← Nat.mul_add, hSum]
      exact Nat.mul_le_mul_right _ hStates
    have hCount : Automaton.maxStates * symbols.length ≤ 10000000 := by decide
    have hSizes : t.symbols.size ≤ 100 ∧ t.fields.size ≤ 100 ∧ t.rules.size ≤ 100
        ∧ t.tokenPrecedence.size ≤ 100 := by
      rw [hSymbols, hFields, hRules, hPrecedence, Array.size_map, Array.size_map]
      decide
    have hLength := length_payload_le hName hNames hLabels hLengths
    omega

theorem tables_eq : tables = Tables.ofGrammar theGrammar := by
  have hBuild : ∀ (built : Except GrammarFault Grammar) (g : Grammar), built = .ok g →
      (do Tables.ofGrammar (← built)) = Tables.ofGrammar g := by
    rintro _ g rfl
    rfl
  exact hBuild _ _ grammar_eq_ok

/-- The blob of the language holds the tables of the grammar. -/
theorem language_eq {t : Tables} (hTables : Tables.ofGrammar theGrammar = .ok t) :
    language = Language.ofTables t lexer := by
  have hBlob : blob = .ok t.toBytes := by
    rw [blob, tables_eq, hTables]
    rfl
  rw [language, hBlob]
  change (Tables.ofBytes t.toBytes >>= fun t => Language.ofTables t lexer) = _
  rw [Tables.ofBytes_toBytes (compact_tables hTables)]
  rfl

/-- Whoever loads the language has the tables of its grammar and its scanner. -/
theorem language_eq_ok {found : Language} (hLanguage : language = .ok found) :
    Tables.ofGrammar theGrammar = .ok found.tables ∧ found.lexer = lexer := by
  cases hTables : Tables.ofGrammar theGrammar with
  | error cause =>
      rw [language, blob, tables_eq, hTables] at hLanguage
      simp [bind, Except.bind] at hLanguage
  | ok t =>
      rw [language_eq hTables, Language.ofTables] at hLanguage
      split at hLanguage
      · simp at hLanguage
      · obtain rfl := Except.ok.inj hLanguage
        exact ⟨rfl, rfl⟩

/-- Tables and scanner have the same terminals. -/
theorem ofTables_eq_ok {t : Tables} (hTables : Tables.ofGrammar theGrammar = .ok t) :
    Language.ofTables t lexer = .ok ⟨t, lexer, t.fingerprint⟩ := by
  obtain ⟨m, h⟩ := Tables.generated_ofGrammar hTables
  have hSymbols : t.symbols = symbols.toArray := h.symbols
  have hTerminals : t.terminalCount = Terminal.all.length := h.terminalCount
  have hNone : Language.mismatch? t lexer.names = none := by
    unfold Language.mismatch? Tables.symbolName
    rw [hSymbols, hTerminals]
    decide +kernel
  rw [Language.ofTables, hNone]

/-- The language can be loaded. -/
theorem exists_language : ∃ l, language = .ok l := by
  obtain ⟨t, hTables⟩ := exists_tables
  exact ⟨_, (language_eq hTables).trans (ofTables_eq_ok hTables)⟩

/-- The tables have the symbols of the grammar. -/
theorem symbolTraits_eq {t : Tables} {m : Automaton} (h : Tables.Generated theGrammar m t)
    (symbol : SymbolId) : t.symbolTraits symbol = symbols[symbol]?.elim .none (·.traits) := by
  have hSymbols : t.symbols = symbols.toArray := h.symbols
  rw [Tables.symbolTraits, hSymbols, List.getElem?_toArray]
  cases symbols[symbol]? <;> rfl

/-- The scanner and the tables agree on the terminals that are invalid. -/
theorem isErrorToken_kind {t : Tables} (hTables : Tables.ofGrammar theGrammar = .ok t)
    (terminal : Terminal) : t.isErrorToken terminal.kind = terminal.isInvalid := by
  obtain ⟨m, h⟩ := Tables.generated_ofGrammar hTables
  have hAll : ∀ terminal ∈ Terminal.all,
      (symbols[terminal.kind]?.elim SymbolTraits.none (·.traits)).errorToken = terminal.isInvalid := by
    decide +kernel
  rw [Tables.isErrorToken, symbolTraits_eq h]
  exact hAll terminal (List.mem_of_getElem? (Terminal.ofKind?_kind terminal))

end SysY
end IncrementalParsing
