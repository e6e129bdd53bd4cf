import IncrementalParsing.Proofs.Grammar.Description

/-! Every grammar without precedences has a description, if its symbols have distinct names and its
rules can be checked. So whatever holds of described grammars can be used of a grammar that is
written down as a value. -/
namespace IncrementalParsing
namespace GrammarDraft

/-- The names of a description are those of its symbols. -/
def Indexed (b : GrammarDraft) : Prop :=
  ∀ name, b.ids.contains name = b.symbols.any (·.name == name)

theorem indexed_empty (name : String) : (empty name).Indexed := by
  intro other
  simp only [empty, Std.HashMap.contains_insert]
  simp [Bool.or_comm]

/-- A described draft stays one after another call. -/
theorem Described.step {b c : GrammarDraft} (h : b.Described) (hStep : Step b c) : c.Described := by
  obtain ⟨name, hSteps⟩ := h
  exact ⟨name, hSteps.tail hStep⟩

/-- What may still be declared. -/
structure Fresh (b : GrammarDraft) (entries : List SymbolEntry) : Prop where
  names : ((b.symbols.toList ++ entries).map (·.name)).Nodup
  room : (b.symbols.toList ++ entries).length ≤ maxSymbols

variable {b : GrammarDraft}

theorem Fresh.left {entries more : List SymbolEntry} (h : b.Fresh (entries ++ more)) :
    b.Fresh entries := by
  obtain ⟨hNames, hRoom⟩ := h
  rw [← List.append_assoc] at hNames hRoom
  refine ⟨?_, ?_⟩
  · rw [List.map_append] at hNames
    exact hNames.sublist (List.sublist_append_left _ _)
  · rw [List.length_append] at hRoom
    exact Nat.le_trans (Nat.le_add_right _ _) hRoom

/-- A new name is declared, and found under its number from then on. -/
theorem Indexed.declare (h : b.Indexed) {entry : SymbolEntry} {entries : List SymbolEntry}
    (hFresh : b.Fresh (entry :: entries)) :
    ∃ c : GrammarDraft, (GrammarDraft.declare entry.name entry.traits).run.run b = (.ok b.symbols.size, c)
      ∧ c.Indexed ∧ c.Fresh entries
      ∧ c = { b with symbols := b.symbols.push entry, ids := c.ids } := by
  have hNew : b.symbols.any (·.name == entry.name) = false := by
    have hNames := hFresh.names
    rw [List.map_append, List.nodup_append] at hNames
    rw [← Array.any_toList, List.any_eq_false]
    intro other hMem
    simpa using hNames.2.2 other.name (List.mem_map_of_mem hMem) entry.name (by simp)
  have hRoom : ¬ maxSymbols ≤ b.symbols.size := by
    have hLength := hFresh.room
    simp only [List.length_append, List.length_cons, Array.length_toList] at hLength
    omega
  refine ⟨{ b with
    symbols := b.symbols.push entry
    ids := b.ids.insert entry.name b.symbols.size }, ?_, ?_, ?_, rfl⟩
  · rw [declare_run, h, hNew, if_neg Bool.false_ne_true, if_neg hRoom]
  · intro name
    simp only [Std.HashMap.contains_insert, h name, Array.any_push]
    rw [Bool.or_comm]
  · exact ⟨by simpa using hFresh.names, by simpa using hFresh.room⟩

/-- What a terminal is declared as. -/
def isTerminalEntry (entry : SymbolEntry) : Bool :=
  entry.traits.terminal && !entry.traits.hidden && (entry.traits.named || !entry.traits.errorToken)

/-- What a nonterminal is declared as. -/
def isNonterminalEntry (entry : SymbolEntry) : Bool :=
  entry.traits == ⟨false, !entry.name.startsWith "_", entry.name.startsWith "_", false⟩

/-- Terminals with new names can be declared one after the other. -/
theorem Described.terminals (entries : List SymbolEntry) (h : b.Described) (hIndexed : b.Indexed)
    (hFresh : b.Fresh entries) (hOpen : b.terminalCount = none)
    (hEntries : ∀ entry ∈ entries, isTerminalEntry entry = true) :
    ∃ c : GrammarDraft, c.Described ∧ c.Indexed
      ∧ c = { b with symbols := b.symbols ++ entries.toArray, ids := c.ids } := by
  induction entries generalizing b with
  | nil => exact ⟨b, h, hIndexed, by simp⟩
  | cons entry entries ih =>
      obtain ⟨c, hRun, hNext, hRest, hSame⟩ := hIndexed.declare hFresh
      have hStep : Step b c := by
        have hEntry := hEntries entry (by simp)
        have hClosed : ¬ b.terminalCount.isSome := by simp [hOpen]
        obtain ⟨name, terminal, named, hidden, errorToken⟩ := entry
        obtain ⟨⟨rfl, rfl⟩, hNamed⟩ : (terminal = true ∧ hidden = false)
            ∧ (named = true ∨ errorToken = false) := by
          simpa [isTerminalEntry] using hEntry
        cases errorToken with
        | false =>
            have hTerminal := Step.terminal b name named
            rw [GrammarDraft.terminal, declareTerminal_run, if_neg hClosed, hRun] at hTerminal
            exact hTerminal
        | true =>
            obtain rfl : named = true := by simpa using hNamed
            have hTerminal := Step.errorTerminal b name
            rw [GrammarDraft.errorTerminal, declareTerminal_run, if_neg hClosed, hRun] at hTerminal
            exact hTerminal
      obtain ⟨d, hDescribed, hDone, hEnd⟩ := ih (h.step hStep) hNext hRest
        (by rw [hSame]; exact hOpen) fun other hMem => hEntries other (by simp [hMem])
      refine ⟨d, hDescribed, hDone, ?_⟩
      rw [hEnd, hSame]
      simp

/-- So can nonterminals. -/
theorem Described.nonterminals (entries : List SymbolEntry) (h : b.Described)
    (hIndexed : b.Indexed) (hFresh : b.Fresh entries)
    (hEntries : ∀ entry ∈ entries, isNonterminalEntry entry = true) :
    ∃ c : GrammarDraft, c.Described ∧ c.terminalCount.getD c.symbols.size = b.terminalCount.getD b.symbols.size
      ∧ c = { b with
        symbols := b.symbols ++ entries.toArray
        ids := c.ids
        terminalCount := c.terminalCount } := by
  induction entries generalizing b with
  | nil => exact ⟨b, h, rfl, by simp⟩
  | cons entry entries ih =>
      let closed : GrammarDraft :=
        { b with terminalCount := some (b.terminalCount.getD b.symbols.size) }
      obtain ⟨c, hRun, hNext, hRest, hSame⟩ :=
        @Indexed.declare closed hIndexed entry entries ⟨hFresh.names, hFresh.room⟩
      have hStep : Step b c := by
        have hTraits : entry.traits
            = ⟨false, !entry.name.startsWith "_", entry.name.startsWith "_", false⟩ := by
          simpa [isNonterminalEntry] using hEntries entry (by simp)
        have hNonterminal := Step.nonterminal b entry.name
        rw [nonterminal_run, ← hTraits, hRun] at hNonterminal
        exact hNonterminal
      obtain ⟨d, hDescribed, hCount, hEnd⟩ := ih (h.step hStep) hNext hRest
        fun other hMem => hEntries other (by simp [hMem])
      refine ⟨d, hDescribed, ?_, ?_⟩
      · rw [hCount, hSame]
        rfl
      · rw [hEnd, hSame]
        simp [closed]

theorem Described.withFields (names : List String) (h : b.Described)
    (hFresh : (b.fields.toList ++ names).Nodup) :
    Described { b with fields := b.fields ++ names.toArray } := by
  induction names generalizing b with
  | nil => simpa using h
  | cons name names ih =>
      have hNone : b.fields.findIdx? (· == name) = none := by
        rw [Array.findIdx?_eq_none_iff]
        intro other hMem
        rw [List.nodup_append] at hFresh
        simpa using hFresh.2.2 other (by simpa using hMem) name (by simp)
      have hStep := Step.field b name
      rw [field_run, hNone] at hStep
      simpa using ih (h.step hStep) (by simpa using hFresh)

/-- Rules that nothing is wrong with can be added one after the other. -/
theorem Described.withRules (rules : List Rule) (h : b.Described)
    (hRules : ∀ r ∈ rules, b.ruleError? r.lhs r.rhs = none) :
    Described { b with rules := b.rules ++ rules.toArray } := by
  induction rules generalizing b with
  | nil => simpa using h
  | cons r rules ih =>
      have hStep : Step b { b with rules := b.rules.push r } := by
        have hRule := Step.rule b r.lhs r.rhs r.precedence
        rw [rule_run, hRules r (by simp)] at hRule
        exact hRule
      have hRest := ih (h.step hStep) fun s hMem =>
        (ruleError?_congr rfl rfl s.lhs s.rhs).trans (hRules s (by simp [hMem]))
      simpa using hRest

/-- What a grammar must be like to be described without precedences. -/
structure Plain (g : Grammar) (terminals nonterminals : List SymbolEntry) : Prop where
  symbols : g.symbols = (empty g.name).symbols ++ terminals.toArray ++ nonterminals.toArray
  terminalEntries : ∀ entry ∈ terminals, isTerminalEntry entry = true
  nonterminalEntries : ∀ entry ∈ nonterminals, isNonterminalEntry entry = true
  names : (g.symbols.toList.map (·.name)).Nodup
  room : g.symbols.size ≤ maxSymbols
  fields : g.fields.toList.Nodup
  rules : ∀ r ∈ g.rules.toList, ({ empty g.name with
    symbols := g.symbols, fields := g.fields } : GrammarDraft).ruleError? r.lhs r.rhs = none
  terminalCount : g.terminalCount = (empty g.name).symbols.size + terminals.length
  start : g.terminalCount ≤ g.start ∧ g.start < g.symbols.size
  productive : ∀ k ∈ List.range' g.terminalCount (g.symbols.size - g.terminalCount),
    g.rules.any (·.lhs == k) = true
  precedence : g.tokenPrecedence = Array.replicate g.terminalCount none

/-- A plain grammar is what some description builds. -/
theorem Plain.described {g : Grammar} {terminals nonterminals : List SymbolEntry}
    (h : Plain g terminals nonterminals) : ∃ b : GrammarDraft, b.Described ∧ b.build = .ok g := by
  have hFresh : (empty g.name).Fresh (terminals ++ nonterminals) := by
    have hNames := h.names
    have hRoom := h.room
    rw [h.symbols] at hNames hRoom
    exact ⟨by simpa using hNames, by simpa [Nat.add_assoc] using hRoom⟩
  obtain ⟨c, hFirst, hIndexed, hTerminals⟩ :=
    Described.terminals terminals ⟨g.name, .refl⟩ (indexed_empty g.name) hFresh.left rfl h.terminalEntries
  have hSymbols : c.symbols = (empty g.name).symbols ++ terminals.toArray := by rw [hTerminals]
  obtain ⟨d, hSecond, hCount, hNonterminals⟩ := hFirst.nonterminals nonterminals hIndexed
    ⟨by simpa [hSymbols] using hFresh.names, by simpa [hSymbols] using hFresh.room⟩ h.nonterminalEntries
  have hOpen : c.terminalCount = none := by rw [hTerminals]; rfl
  have hWhole : d.symbols = g.symbols := by rw [hNonterminals, h.symbols, ← hSymbols]
  have hTerminalCount : d.terminalCount.getD d.symbols.size = g.terminalCount := by
    rw [hCount, hOpen, h.terminalCount, hSymbols]
    simp
  have hNoFields : d.fields = #[] := by rw [hNonterminals, hTerminals]; rfl
  have hNoRules : d.rules = #[] := by rw [hNonterminals, hTerminals]; rfl
  have hFields := hSecond.withFields g.fields.toList (by simpa [hNoFields] using h.fields)
  have hRules := hFields.withRules g.rules.toList fun r hMem =>
    (ruleError?_congr hWhole (by simp [hNoFields]) r.lhs r.rhs).trans (h.rules r hMem)
  refine ⟨_, hRules.step (.setStart _ g.start), ?_⟩
  rw [setStart, run_modify]
  have hName : d.name = g.name := by rw [hNonterminals, hTerminals]; rfl
  obtain ⟨info, hStart⟩ : ∃ info, g.symbols[g.start]? = some info :=
    ⟨_, Array.getElem?_eq_getElem h.start.2⟩
  have hProductive : ∀ b : GrammarDraft, b.symbols = g.symbols → b.rules = g.rules →
      b.unproductive? g.terminalCount = none := by
    intro b hSymbols hRules
    rw [unproductive?, List.findSome?_eq_none_iff, hSymbols, hRules]
    intro k hMem
    rw [if_pos (h.productive k hMem)]
  have hPrecedence : (Array.range g.terminalCount).map (d.tokenPrecedence[·]?)
      = g.tokenPrecedence := by
    have hNone : d.tokenPrecedence = .emptyWithCapacity := by rw [hNonterminals, hTerminals]; rfl
    rw [h.precedence, hNone]
    simp [Array.map_const']
  rw [hWhole] at hTerminalCount
  unfold build
  simp only [hTerminalCount, hWhole, hStart, hNoFields, hNoRules]
  rw [if_neg (Nat.not_lt.mpr h.start.1), hProductive _ rfl (by simp)]
  simp only [hPrecedence, hName]
  simp [pure, Except.pure]

/-- The last check does not look at the precedences of terminals. -/
theorem build_withPrecedences (b : GrammarDraft) (precedences : Std.HashMap SymbolId Precedence) :
    ({ b with tokenPrecedence := precedences } : GrammarDraft).build = b.build.map fun g =>
      { g with tokenPrecedence := (Array.range g.terminalCount).map (precedences[·]?) } := by
  unfold build
  cases b.start with
  | none => rfl
  | some start =>
      dsimp only
      cases b.symbols[start]? with
      | none => rfl
      | some info =>
          dsimp only [unproductive?]
          split
          · rfl
          · generalize List.findSome? _ _ = found
            cases found <;> rfl

/-- A terminal of a described grammar may be given a precedence. -/
theorem Described.withPrecedence (h : b.Described) {g : Grammar} (hBuild : b.build = .ok g)
    (terminal : SymbolId) (precedence : Precedence) :
    ∃ c : GrammarDraft, c.Described ∧ c.build = .ok { g with
      tokenPrecedence := g.tokenPrecedence.setIfInBounds terminal (some precedence) } := by
  refine ⟨_, h.step (.setPrecedence b terminal precedence), ?_⟩
  rw [setPrecedence, run_modify]
  dsimp only
  rw [build_withPrecedences, hBuild]
  obtain ⟨start, -, -, -, rfl⟩ := build_eq_ok hBuild
  simp only [Except.map]
  congr 2
  refine Array.ext_getElem? fun i => ?_
  rw [Array.getElem?_setIfInBounds]
  rcases Nat.lt_or_ge i (b.terminalCount.getD b.symbols.size) with hLess | hMore
  · by_cases hHere : terminal = i
    · simp [hHere, hLess]
    · simp [hHere, hLess, Std.HashMap.getElem?_insert]
  · have hOutside : ¬ i < b.terminalCount.getD b.symbols.size := Nat.not_lt.mpr hMore
    by_cases hHere : terminal = i <;> simp [hHere, hOutside]

end GrammarDraft
end IncrementalParsing
