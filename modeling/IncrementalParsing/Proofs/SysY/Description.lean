import IncrementalParsing.Proofs.Grammar.Description
import IncrementalParsing.SysY.Grammar

/-! The grammar of SysY as a value. Its description never fails, and what it builds is written down
here without the maps that the description keeps. -/
namespace IncrementalParsing.SysY
open GrammarDraft

/-- What a terminal is declared as. -/
def terminalEntry (t : Terminal) : SymbolEntry :=
  ⟨t.name, ⟨true, t.isInvalid || t.isNamed, false, t.isInvalid⟩⟩

/-- What a nonterminal is declared as. -/
def nonterminalEntry (n : Nonterminal) : SymbolEntry :=
  ⟨n.name, ⟨false, !n.name.startsWith "_", n.name.startsWith "_", false⟩⟩

/-- The reserved terminals of every description. -/
def reservedEntries : List SymbolEntry := [
  ⟨"end", { SymbolTraits.none with terminal := true }⟩,
  ⟨"ERROR", { SymbolTraits.none with terminal := true, named := true }⟩]

/-- All symbols in the order of their numbers. -/
def symbols : List SymbolEntry :=
  reservedEntries ++ (Terminal.all.drop 2).map terminalEntry ++ Nonterminal.all.map nonterminalEntry

/-- The precedences of the terminals. Later ones replace earlier ones. -/
def precedences : List (SymbolId × Precedence) :=
  binaryOperators.map (fun (t, level) => (t.kind, ⟨level, .left⟩))
    ++ [(Terminal.elseKeyword.kind, elsePrecedence)]

/-- The precedence of one terminal. -/
def precedence? (symbol : SymbolId) : Option Precedence :=
  (precedences.reverse.lookup symbol)

/-- The grammar that the description builds. -/
def theGrammar : Grammar where
  name := languageName
  symbols := symbols.toArray
  fields := (Field.all.map Field.label).toArray
  terminalCount := Terminal.all.length
  start := Nonterminal.sourceFile.id
  rules := rules.toArray
  tokenPrecedence := (Array.range Terminal.all.length).map precedence?

/-- A description in progress, without its maps. -/
structure Snapshot where
  symbols : List SymbolEntry := reservedEntries
  fields : List String := []
  rules : List Rule := []
  precedences : List (SymbolId × Precedence) := []
  start : Option SymbolId := none
  terminalCount : Option Nat := none

/-- A description shows what a snapshot says, and its maps agree with it. -/
structure Shows (b : GrammarDraft) (s : Snapshot) : Prop where
  name : b.name = languageName
  symbols : b.symbols = s.symbols.toArray
  ids : ∀ name, b.ids.contains name = s.symbols.any (·.name == name)
  fields : b.fields = s.fields.toArray
  rules : b.rules = s.rules.toArray
  precedences : ∀ symbol : Nat, b.tokenPrecedence[symbol]? = s.precedences.reverse.lookup symbol
  start : b.start = s.start
  terminalCount : b.terminalCount = s.terminalCount

/-- Some steps turn a description that shows the first snapshot into one that shows the second. -/
def Turns {α : Type} (steps : Describe α) (s u : Snapshot) : Prop :=
  ∀ b, Shows b s → ∃ a c, steps.run.run b = (.ok a, c) ∧ Shows c u

/-- Steps of a description lead from one snapshot to the next. -/
theorem Turns.bind {α β : Type} {first : Describe α} {next : α → Describe β} {s u v : Snapshot}
    (hFirst : Turns first s u) (hNext : ∀ a, Turns (next a) u v) : Turns (first >>= next) s v := by
  intro b hShows
  obtain ⟨a, c, hRun, hMiddle⟩ := hFirst b hShows
  obtain ⟨a', d, hRest, hDone⟩ := hNext a c hMiddle
  refine ⟨a', d, ?_, hDone⟩
  rw [run_bind, hRun]
  exact hRest

theorem turns_pure {α : Type} (a : α) (s : Snapshot) : Turns (pure a) s s :=
  fun b hShows => ⟨a, b, rfl, hShows⟩

/-- A loop whose rounds each turn one snapshot into the next. -/
theorem turns_forIn {α : Type} (xs : List α) (body : α → PUnit → Describe (ForInStep PUnit))
    (next : Snapshot → α → Snapshot) (P : List α → Snapshot → Prop)
    (hBody : ∀ x xs s, P (x :: xs) s → P xs (next s x)
      ∧ ∀ b, Shows b s → ∃ c, (body x ⟨⟩).run.run b = (.ok (.yield ⟨⟩), c) ∧ Shows c (next s x))
    (s : Snapshot) (hStart : P xs s) : Turns (forIn xs PUnit.unit body) s (xs.foldl next s) := by
  induction xs generalizing s with
  | nil => exact turns_pure _ s
  | cons x xs ih =>
      intro b hShows
      obtain ⟨hRest, hRound⟩ := hBody x xs s hStart
      obtain ⟨c, hRun, hNext⟩ := hRound b hShows
      obtain ⟨a, d, hLoop, hDone⟩ := ih (next s x) hRest c hNext
      refine ⟨a, d, ?_, hDone⟩
      rw [List.forIn_cons, run_bind, hRun]
      exact hLoop

/-- The draft of a new grammar shows nothing. -/
theorem shows_empty : Shows (empty languageName) {} where
  name := rfl
  symbols := rfl
  ids := by
    intro name
    simp only [empty, Std.HashMap.contains_insert]
    simp [reservedEntries, Bool.or_comm]
  fields := rfl
  rules := rfl
  precedences := by simp [empty]
  start := rfl
  terminalCount := rfl

/-- A symbol of a new name is declared if there is room for it, and shown at the end. -/
theorem Shows.declare {b : GrammarDraft} {s : Snapshot} (h : Shows b s) (entry : SymbolEntry)
    (hFresh : s.symbols.any (·.name == entry.name) = false) (hRoom : s.symbols.length < maxSymbols) :
    ∃ c, (GrammarDraft.declare entry.name entry.traits).run.run b = (.ok b.symbols.size, c)
      ∧ Shows c { s with symbols := s.symbols ++ [entry] } := by
  have hOpen : ¬ maxSymbols ≤ b.symbols.size := by simpa [h.symbols] using hRoom
  refine ⟨{ b with
    symbols := b.symbols.push entry
    ids := b.ids.insert entry.name b.symbols.size }, ?_, ?_⟩
  · rw [declare_run, h.ids, hFresh, if_neg Bool.false_ne_true, if_neg hOpen]
  · refine ⟨h.name, by simp [h.symbols], ?_, h.fields, h.rules, h.precedences, h.start,
      h.terminalCount⟩
    intro name
    simp only [Std.HashMap.contains_insert, h.ids, List.any_append, List.any_cons, List.any_nil,
      Bool.or_false]
    rw [Bool.or_comm]

/-- What is still to be declared has new names and fits. -/
structure Pending (entries : List SymbolEntry) (s : Snapshot) : Prop where
  fresh : ((s.symbols ++ entries).map (·.name)).Nodup
  room : (s.symbols ++ entries).length ≤ maxSymbols

/-- The first of the symbols that are still to come has a new name, and there is room. -/
theorem Pending.first {entry : SymbolEntry} {entries : List SymbolEntry} {s : Snapshot}
    (h : Pending (entry :: entries) s) :
    s.symbols.any (·.name == entry.name) = false ∧ s.symbols.length < maxSymbols := by
  refine ⟨?_, ?_⟩
  · have hFresh := h.fresh
    rw [List.map_append, List.nodup_append] at hFresh
    rw [List.any_eq_false]
    intro other hMem
    have hNe := hFresh.2.2 other.name (List.mem_map_of_mem hMem) entry.name (by simp)
    simpa using hNe
  · have hRoom := h.room
    simp only [List.length_append, List.length_cons] at hRoom
    omega

/-- Once it is declared, the others are still to come. -/
theorem Pending.rest {entry : SymbolEntry} {entries : List SymbolEntry} {s u : Snapshot}
    (h : Pending (entry :: entries) s) (hSymbols : u.symbols = s.symbols ++ [entry]) :
    Pending entries u := by
  refine ⟨?_, ?_⟩ <;> rw [hSymbols, List.append_assoc]
  · exact h.fresh
  · exact h.room

/-- A description in which all symbols and fields have been declared. -/
def declared : GrammarDraft :=
  { empty languageName with
    symbols := symbols.toArray
    fields := (Field.all.map Field.label).toArray }

/-- Each rule of the language is one that the draft takes. -/
theorem ruleError?_declared : ∀ r ∈ rules, declared.ruleError? r.lhs r.rhs = none := by
  decide +kernel

/-- Declaring the terminals shows them in their order. -/
theorem turns_terminals :
    Turns (forIn (Terminal.all.drop 2) PUnit.unit fun t _ => do
        let _ ← if t.isInvalid then errorTerminal t.name else terminal t.name t.isNamed
        pure (ForInStep.yield PUnit.unit))
      {} ((Terminal.all.drop 2).foldl
        (fun s t => { s with symbols := s.symbols ++ [terminalEntry t] }) {}) := by
  refine turns_forIn _ _ _ (fun xs s => Pending (xs.map terminalEntry) s ∧ s.terminalCount = none)
    ?_ _ ⟨⟨by decide +kernel, by decide⟩, rfl⟩
  rintro t xs s ⟨hPending, hCount⟩
  refine ⟨⟨hPending.rest rfl, hCount⟩, ?_⟩
  intro b hShows
  obtain ⟨hFresh, hRoom⟩ := hPending.first
  obtain ⟨c, hRun, hNext⟩ := hShows.declare (terminalEntry t) hFresh hRoom
  refine ⟨c, ?_, hNext⟩
  have hOpen : ¬ b.terminalCount.isSome := by simp [hShows.terminalCount, hCount]
  unfold terminalEntry at hRun
  cases hInvalid : t.isInvalid
  · rw [hInvalid, Bool.false_or] at hRun
    have hStep : (terminal t.name t.isNamed).run.run b = (.ok b.symbols.size, c) := by
      rw [terminal, declareTerminal_run, if_neg hOpen, hRun]
    simp only [Bool.false_eq_true, if_false]
    rw [run_bind, hStep]
    rfl
  · rw [hInvalid, Bool.true_or] at hRun
    have hStep : (errorTerminal t.name).run.run b = (.ok b.symbols.size, c) := by
      rw [errorTerminal, declareTerminal_run, if_neg hOpen, hRun]
    simp only [if_true]
    rw [run_bind, hStep]
    rfl

theorem turns_nonterminals (s : Snapshot)
    (hPending : Pending (Nonterminal.all.map nonterminalEntry) s) :
    Turns (forIn Nonterminal.all PUnit.unit fun n _ => do
        let _ ← nonterminal n.name
        pure (ForInStep.yield PUnit.unit))
      s (Nonterminal.all.foldl (fun s n => { s with
          terminalCount := some (s.terminalCount.getD s.symbols.length)
          symbols := s.symbols ++ [nonterminalEntry n] }) s) := by
  refine turns_forIn _ _ _ (fun xs s => Pending (xs.map nonterminalEntry) s) ?_ _ hPending
  intro n xs s hPending
  refine ⟨hPending.rest rfl, ?_⟩
  intro b hShows
  obtain ⟨hFresh, hRoom⟩ := hPending.first
  have hClosed : Shows { b with terminalCount := some (b.terminalCount.getD b.symbols.size) }
      { s with terminalCount := some (s.terminalCount.getD s.symbols.length) } :=
    ⟨hShows.name, hShows.symbols, hShows.ids, hShows.fields, hShows.rules, hShows.precedences,
      hShows.start, by simp [hShows.terminalCount, hShows.symbols]⟩
  obtain ⟨c, hRun, hNext⟩ := hClosed.declare (nonterminalEntry n) hFresh hRoom
  refine ⟨c, ?_, hNext⟩
  rw [run_bind, nonterminal_run]
  unfold nonterminalEntry at hRun
  rw [hRun]
  rfl

theorem turns_fields (s : Snapshot) (hFresh : (s.fields ++ Field.all.map Field.label).Nodup) :
    Turns (forIn Field.all PUnit.unit fun f _ => do
        let _ ← field f.label
        pure (ForInStep.yield PUnit.unit))
      s (Field.all.foldl (fun s f => { s with fields := s.fields ++ [f.label] }) s) := by
  refine turns_forIn _ _ _ (fun xs s => (s.fields ++ xs.map Field.label).Nodup) ?_ _ hFresh
  intro f xs s hFresh
  refine ⟨by simpa using hFresh, ?_⟩
  intro b hShows
  have hNone : b.fields.findIdx? (· == f.label) = none := by
    rw [Array.findIdx?_eq_none_iff, hShows.fields]
    intro label hMem
    rw [List.nodup_append] at hFresh
    simpa using hFresh.2.2 label (by simpa using hMem) f.label (by simp)
  refine ⟨{ b with fields := b.fields.push f.label }, ?_, hShows.name, hShows.symbols, hShows.ids,
    by simp [hShows.fields], hShows.rules, hShows.precedences, hShows.start, hShows.terminalCount⟩
  rw [run_bind, field_run, hNone]
  rfl

theorem Shows.setPrecedence {b : GrammarDraft} {s : Snapshot} (h : Shows b s) (symbol : SymbolId)
    (precedence : Precedence) :
    Shows { b with tokenPrecedence := b.tokenPrecedence.insert symbol precedence }
      { s with precedences := s.precedences ++ [(symbol, precedence)] } := by
  refine ⟨h.name, h.symbols, h.ids, h.fields, h.rules, ?_, h.start, h.terminalCount⟩
  intro other
  rw [Std.HashMap.getElem?_insert, List.reverse_append, List.reverse_singleton,
    List.singleton_append, List.lookup_cons, h.precedences]
  rcases Nat.decEq symbol other with hNe | rfl
  · rw [if_neg (by simpa using hNe), beq_false_of_ne (Ne.symm hNe)]
  · simp

theorem turns_setPrecedence (symbol : SymbolId) (precedence : Precedence) (s : Snapshot) :
    Turns (GrammarDraft.setPrecedence symbol precedence) s
      { s with precedences := s.precedences ++ [(symbol, precedence)] } :=
  fun b hShows => ⟨(), _, run_modify _ b, hShows.setPrecedence symbol precedence⟩

/-- Giving the binary operators their levels shows these. -/
theorem turns_precedences (s : Snapshot) :
    Turns (forIn binaryOperators PUnit.unit fun x _ => do
        setPrecedence x.1.kind ⟨x.2, .left⟩
        pure (ForInStep.yield PUnit.unit))
      s (binaryOperators.foldl (fun s x =>
        { s with precedences := s.precedences ++ [(x.1.kind, ⟨x.2, .left⟩)] }) s) := by
  refine turns_forIn _ _ _ (fun _ _ => True) ?_ _ trivial
  intro x xs s _
  refine ⟨trivial, fun b hShows => ⟨_, ?_, hShows.setPrecedence x.1.kind ⟨x.2, .left⟩⟩⟩
  rw [run_bind, setPrecedence, run_modify]
  rfl

/-- Adding the rules shows them in their order, as they are. -/
theorem turns_rules (s : Snapshot) (hSymbols : s.symbols = symbols)
    (hFields : s.fields = Field.all.map Field.label) :
    Turns (forIn rules PUnit.unit fun r _ => do
        rule r.lhs r.rhs r.precedence
        pure (ForInStep.yield PUnit.unit))
      s { s with rules := s.rules ++ rules } := by
  have hFold : ∀ (xs : List Rule) (s : Snapshot),
      xs.foldl (fun s r => { s with rules := s.rules ++ [r] }) s
        = { s with rules := s.rules ++ xs } := by
    intro xs
    induction xs with
    | nil => simp
    | cons r xs ih => simp [ih]
  rw [← hFold]
  refine turns_forIn _ _ _ (fun xs s => s.symbols = symbols
    ∧ s.fields = Field.all.map Field.label ∧ ∀ r ∈ xs, r ∈ rules) ?_ _
    ⟨hSymbols, hFields, fun _ hMem => hMem⟩
  rintro r xs s ⟨hSymbols, hFields, hRules⟩
  refine ⟨⟨hSymbols, hFields, fun r hMem => hRules r (List.mem_cons_of_mem _ hMem)⟩, ?_⟩
  intro b hShows
  have hNone : b.ruleError? r.lhs r.rhs = none := by
    rw [ruleError?_congr (c := declared) (by rw [hShows.symbols, hSymbols]; rfl)
      (by rw [hShows.fields, hFields]; rfl)]
    exact ruleError?_declared r (hRules r List.mem_cons_self)
  refine ⟨{ b with rules := b.rules.push r }, ?_, hShows.name, hShows.symbols, hShows.ids,
    hShows.fields, by simp [hShows.rules], hShows.precedences, hShows.start, hShows.terminalCount⟩
  rw [run_bind, rule_run, hNone]
  rfl

/-- What the whole description amounts to. -/
def complete : Snapshot where
  symbols := symbols
  fields := Field.all.map Field.label
  rules := rules
  precedences := precedences
  start := some Nonterminal.sourceFile.id
  terminalCount := some Terminal.all.length

/-- The whole description is carried out without an error, and shows the complete grammar. -/
theorem turns_description : Turns description {} complete := by
  have hSymbols : Nonterminal.all.foldl (fun s n => { s with
      terminalCount := some (s.terminalCount.getD s.symbols.length)
      symbols := s.symbols ++ [nonterminalEntry n] }) ((Terminal.all.drop 2).foldl
        (fun s t => { s with symbols := s.symbols ++ [terminalEntry t] }) {})
      = ({ symbols := symbols, terminalCount := some Terminal.all.length } : Snapshot) := rfl
  have hFields : Field.all.foldl (fun s f => { s with fields := s.fields ++ [f.label] })
      ({ symbols := symbols, terminalCount := some Terminal.all.length } : Snapshot)
      = { symbols := symbols, fields := Field.all.map Field.label,
          terminalCount := some Terminal.all.length } := rfl
  unfold description
  refine turns_terminals.bind fun _ => ?_
  refine (turns_nonterminals _ ⟨by decide +kernel, by decide⟩).bind fun _ => ?_
  rw [hSymbols]
  refine (turns_fields _ (by decide +kernel)).bind fun _ => ?_
  rw [hFields]
  refine (turns_precedences _).bind fun _ => ?_
  refine (turns_setPrecedence _ _ _).bind fun _ => ?_
  refine (turns_rules _ rfl rfl).bind fun _ => ?_
  intro b hShows
  refine ⟨(), _, rfl, hShows.name, hShows.symbols, hShows.ids, hShows.fields, hShows.rules,
    hShows.precedences, rfl, hShows.terminalCount⟩

/-- Each nonterminal has a rule. -/
theorem productive : ∀ k ∈ List.range' Terminal.all.length (symbols.length - Terminal.all.length),
    rules.any (·.lhs == k) = true := by
  decide +kernel

/-- The description goes through. -/
theorem grammar_eq_ok : grammar = .ok theGrammar := by
  obtain ⟨a, b, hRun, hShows⟩ := turns_description _ shows_empty
  rw [grammar, describe, hRun]
  dsimp only
  have hStart : b.symbols[Nonterminal.sourceFile.id]? = some (nonterminalEntry .sourceFile) := by
    rw [hShows.symbols]
    rfl
  have hCount : b.terminalCount.getD b.symbols.size = Terminal.all.length := by
    rw [hShows.terminalCount]
    rfl
  have hProductive : b.unproductive? Terminal.all.length = none := by
    rw [unproductive?, List.findSome?_eq_none_iff]
    intro k hMem
    have hSize : b.symbols.size = symbols.length := by rw [hShows.symbols]; rfl
    have hRule : b.rules.any (·.lhs == k) = true := by
      rw [hShows.rules, List.any_toArray]
      exact productive k (hSize ▸ hMem)
    rw [if_pos hRule]
  have hPrecedence : (Array.range Terminal.all.length).map (b.tokenPrecedence[·]?)
      = (Array.range Terminal.all.length).map precedence? :=
    Array.map_congr_left fun symbol _ => hShows.precedences symbol
  have hFirst : ¬ Nonterminal.sourceFile.id < Terminal.all.length := by decide
  rw [build, hShows.start]
  simp only [complete, hCount, hStart, hFirst, hProductive, hPrecedence]
  rw [hShows.name, hShows.symbols, hShows.fields, hShows.rules]
  rfl

/-- The grammar of the language is proper. -/
theorem proper_theGrammar : theGrammar.Proper := by
  refine ⟨by decide, by decide, by decide, ?_, ?_, ?_, ?_, ?_⟩
  · have hShown : ∀ i < Terminal.all.length, (symbols[i]?.map (·.traits.hidden)).getD false = false := by
      decide +kernel
    intro i info hInfo hLess
    have hSymbol : symbols[i]? = some info := by simpa [theGrammar] using hInfo
    simpa [hSymbol] using hShown i hLess
  · intro r hMem
    have hRules : ∀ r ∈ rules, Terminal.all.length ≤ r.lhs ∧ r.lhs < symbols.length := by
      decide +kernel
    exact hRules r (by simpa [theGrammar] using hMem)
  · intro r hMem
    have hRules : ∀ r ∈ rules, ∀ k ∈ r.symbols,
        k < symbols.length ∧ k ≠ endSymbol ∧ k ≠ errorSymbol := by
      decide +kernel
    exact hRules r (by simpa [theGrammar] using hMem)
  · intro r hMem slot hSlot field hField
    have hRules : ∀ r ∈ rules, ∀ slot ∈ r.rhs, 0 < slot.field.getD 1
        ∧ slot.field.getD 1 ≤ Field.all.length := by
      decide +kernel
    have hBound := hRules r (by simpa [theGrammar] using hMem) slot hSlot
    rw [hField] at hBound
    exact hBound
  · intro k hFirst hLess
    have hRule := productive k (List.mem_range'_1.mpr ⟨hFirst, by
      have hCount : Terminal.all.length ≤ symbols.length := by decide
      rw [Nat.add_sub_cancel' hCount]
      exact hLess⟩)
    obtain ⟨r, hMem, hLhs⟩ := List.any_eq_true.mp hRule
    exact ⟨r, by simpa [theGrammar] using hMem, by simpa using hLhs⟩

end IncrementalParsing.SysY
