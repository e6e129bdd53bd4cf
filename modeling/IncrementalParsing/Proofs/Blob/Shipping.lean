import IncrementalParsing.Proofs.Automaton.Search
import IncrementalParsing.Proofs.Blob.Accepted
import IncrementalParsing.Proofs.Labels.Language
import IncrementalParsing.Proofs.Tables.Generated

/-! Which languages can be shipped as a blob. The tables of a described grammar belong together, so
all that a blob asks of them is that names, counts and the payload fit their cells. The description
and the construction bound the numbers of symbols and states, but not these. -/
namespace IncrementalParsing
/-- What a blob asks of symbols and precedences beyond what construction relies on. -/
structure Grammar.Listed (g : Grammar) : Prop where
  reserved : g.symbols[endSymbol]?.map (·.name) = some "end"
    ∧ g.symbols[errorSymbol]?.map (·.name) = some "ERROR"
  room : g.symbols.size ≤ GrammarDraft.maxSymbols
  terminals : ∀ (i : Nat) info, g.symbols[i]? = some info →
    info.traits.terminal = decide (i < g.terminalCount)
  precedences : g.tokenPrecedence.size = g.terminalCount

/-- A description that passes the last check lists its symbols and precedences. -/
theorem GrammarDraft.Described.listed {b : GrammarDraft} (h : b.Described) {g : Grammar}
    (hBuild : b.build = .ok g) : g.Listed := by
  obtain ⟨start, -, -, -, rfl⟩ := build_eq_ok hBuild
  exact ⟨h.counted.reserved, h.counted.room, h.wellFormed.terminal, by simp⟩

namespace Tables

/-- Names, counts and the payload fit the cells of a blob. -/
structure Narrow (t : Tables) : Prop where
  name : t.name.toUTF8.size ≤ Blob.maxName
  symbols : ∀ info ∈ t.symbols, info.name.toUTF8.size ≤ Blob.maxName
  fieldCount : t.fields.size < 0x10000
  fields : ∀ field ∈ t.fields, field.toUTF8.size ≤ Blob.maxName
  ruleCount : t.rules.size < 0x10000
  lengths : ∀ r ∈ t.rules, r.rhs.length < 0x10000
  precedences : ∀ p ∈ t.tokenPrecedence, ∀ q, p = some q → q.level < 0x10000
  payload : (Blob.payload t).length < 0x100000000

/-- What is compact can be written without losing a bit. -/
theorem Compact.narrow {t : Tables} (h : t.Compact) : t.Narrow where
  name := h.name
  symbols := h.symbols
  fieldCount := h.fieldCount
  fields := h.fields
  ruleCount := h.ruleCount
  lengths := fun r hMem => (h.rules r hMem).length
  precedences := h.precedences
  payload := h.payload

namespace Generated
variable {g : Grammar} {m : Automaton} {t : Tables}

theorem size_actions (h : Generated g m t) : t.actions.size = t.stateCount * t.terminalCount := by
  rw [h.actions, h.stateCount, h.terminalCount, Array.size_flatMap]
  simp [Array.map_const', Array.sum_replicate_nat]

theorem size_gotos (h : Generated g m t) : t.gotos.size = t.stateCount * t.nonterminalCount := by
  rw [h.gotos, h.stateCount, nonterminalCount, h.symbols, h.terminalCount, Array.size_flatMap]
  simp [Array.map_const', Array.sum_replicate_nat, Grammar.nonterminalCount]

/-- What the tables do leads to their own states and rules. -/
theorem fits_actions (h : Generated g m t) :
    ∀ action ∈ t.actions, action.Fits t.stateCount t.rules.size := by
  intro action hMem
  obtain ⟨i, hIndex, hAction⟩ := Array.mem_iff_getElem.mp hMem
  have hCells : i < t.stateCount * t.terminalCount := h.size_actions ▸ hIndex
  have hWide : 0 < t.terminalCount := Nat.pos_of_mul_pos_left (Nat.zero_lt_of_lt hCells)
  have hCell : t.action (i / t.terminalCount) (i % t.terminalCount) = action := by
    rw [Tables.action, isTerminal, if_pos (decide_eq_true (Nat.mod_lt _ hWide)), Nat.mul_comm,
      Nat.div_add_mod, Array.getD_eq_getD_getElem?, Array.getElem?_eq_getElem hIndex, hAction]
    rfl
  cases action with
  | error => trivial
  | accept => trivial
  | shift next => exact h.target_lt (h.shift hCell)
  | reduce rule => exact h.rule_lt hCell

theorem fits_gotos (h : Generated g m t) (hProper : g.Proper) :
    ∀ target ∈ t.gotos, ∀ state : Nat, target = some state → state < t.stateCount := by
  rintro target hMem state rfl
  obtain ⟨i, hIndex, hTarget⟩ := Array.mem_iff_getElem.mp hMem
  have hCells : i < t.stateCount * t.nonterminalCount := h.size_gotos ▸ hIndex
  have hWide : 0 < t.nonterminalCount := Nat.pos_of_mul_pos_left (Nat.zero_lt_of_lt hCells)
  have hLess := Nat.mod_lt i hWide
  have hSymbol : t.terminalCount + i % t.nonterminalCount < g.symbols.size := by
    have hBounded := hProper.bounded
    have hCount : t.nonterminalCount = g.symbols.size - g.terminalCount := by
      rw [nonterminalCount, h.symbols, h.terminalCount]
    have hTerminals := h.terminalCount
    omega
  have hCell : t.goto (i / t.nonterminalCount) (t.terminalCount + i % t.nonterminalCount)
      = some state := by
    rw [Tables.goto, if_neg (Nat.not_lt.mpr (Nat.le_add_right _ _)), Nat.add_sub_cancel_left,
      Nat.mul_comm, Nat.div_add_mod, Array.getElem?_eq_getElem hIndex, hTarget]
    rfl
  exact h.target_lt (h.goto hSymbol hCell).2

/-- Rules keep their parts in range. -/
theorem fits_rules (h : Generated g m t) (hProper : g.Proper)
    (hLengths : ∀ r ∈ t.rules, r.rhs.length < 0x10000) :
    ∀ r ∈ t.rules, r.Fits t.symbols.size t.terminalCount t.fields.size := by
  intro p hMem
  have hLength := hLengths p hMem
  rw [h.rules] at hMem
  obtain ⟨r, hRule, rfl⟩ := Array.mem_map.mp hMem
  obtain ⟨hNonterminal, hLhs⟩ := hProper.lhs r hRule
  rw [h.symbols, h.terminalCount, h.fields]
  refine ⟨⟨hLhs, hNonterminal⟩, hLength, fun slot hSlot => ⟨?_, hProper.field r hRule slot hSlot⟩⟩
  exact (hProper.symbol r hRule slot.symbol (List.mem_map_of_mem hSlot)).1

/-- Tables of a listed grammar are compact as soon as they are narrow. -/
theorem compact (h : Generated g m t) (hProper : g.Proper) (hListed : g.Listed)
    (hNarrow : t.Narrow) : t.Compact where
  name := hNarrow.name
  symbolCount := by
    rw [h.symbols]
    refine ⟨Nat.le_trans hProper.reserved hProper.bounded, Nat.lt_of_le_of_lt hListed.room ?_⟩
    decide
  symbols := hNarrow.symbols
  reserved := h.symbols ▸ hListed.reserved
  fieldCount := hNarrow.fieldCount
  fields := hNarrow.fields
  terminalCount := by
    rw [h.symbols, h.terminalCount]
    exact ⟨hProper.reserved, hProper.bounded⟩
  terminals := by
    rw [h.symbols, h.terminalCount]
    exact hListed.terminals
  start := by
    rw [h.symbols, h.terminalCount, h.start]
    exact ⟨hProper.start.2, hProper.start.1⟩
  ruleCount := hNarrow.ruleCount
  rules := h.fits_rules hProper hNarrow.lengths
  precedenceCount := by
    rw [h.tokenPrecedence, h.terminalCount]
    exact hListed.precedences
  precedences := hNarrow.precedences
  stateCount := by
    rw [h.stateCount]
    refine ⟨Nat.ne_of_gt (Array.getElem?_eq_some_iff.mp h.explored.initial).1, ?_⟩
    exact Nat.le_trans (Automaton.size_ofGrammar h.states) (by decide)
  actionCount := h.size_actions
  actions := h.fits_actions
  gotoCount := h.size_gotos
  gotos := h.fits_gotos hProper
  payload := hNarrow.payload

end Generated

/-- Tables that come from a description need only be narrow. -/
theorem Built.compact_iff {t : Tables} (h : t.Built) : t.Compact ↔ t.Narrow := by
  obtain ⟨b, g, hDescribed, hBuild, hTables⟩ := h
  obtain ⟨m, hGenerated⟩ := generated_ofGrammar hTables
  refine ⟨Compact.narrow, ?_⟩
  exact hGenerated.compact (hDescribed.proper hBuild) (hDescribed.listed hBuild)

end Tables

theorem Labels.compact_tables : Labels.tables.Compact := by
  refine Labels.built_tables.compact_iff.mpr {
    name := by decide +kernel
    symbols := by decide +kernel
    fieldCount := by decide +kernel
    fields := by decide +kernel
    ruleCount := by decide +kernel
    lengths := by decide +kernel
    precedences := ?_
    payload := by decide +kernel }
  intro p hMem q hSome
  rw [show Labels.tables.tokenPrecedence = Array.replicate 6 none from rfl] at hMem
  rw [Array.eq_of_mem_replicate hMem] at hSome
  exact nomatch hSome

/-- Loading undoes saving for compact tables, and nothing but compact tables loads. -/
theorem Tables.saved_and_loaded :
    (∀ t : Tables, t.Compact → Tables.ofBytes t.toBytes = .ok t)
      ∧ ∀ (bytes : List UInt8) (t : Tables), Tables.ofBytes bytes = .ok t →
        t.Compact ∧ Tables.ofBytes t.toBytes = .ok t := by
  refine ⟨fun t hCompact => ofBytes_toBytes hCompact, fun bytes t hLoads => ?_⟩
  have hCompact := compact_of_ofBytes hLoads
  exact ⟨hCompact, ofBytes_toBytes hCompact⟩

theorem Labels.saved_and_loaded_tables :
    Labels.tables.Compact ∧ Tables.ofBytes Labels.tables.toBytes = .ok Labels.tables := by
  have hLoads := Tables.saved_and_loaded.1 Labels.tables Labels.compact_tables
  exact Tables.saved_and_loaded.2 Labels.tables.toBytes Labels.tables hLoads

/-- The tables of any described grammar come back from their blob as they were if and only if
names, counts and the payload fit. -/
theorem Tables.Built.reloads_iff {t : Tables} (hBuilt : t.Built) :
    Tables.ofBytes t.toBytes = .ok t ↔ t.Narrow := by
  rw [← hBuilt.compact_iff]
  exact ⟨compact_of_ofBytes, ofBytes_toBytes⟩

theorem Labels.reloads_tables :
    Labels.tables.Built ∧ (Tables.ofBytes Labels.tables.toBytes = .ok Labels.tables
      ↔ Labels.tables.Narrow) ∧ Labels.tables.Narrow :=
  ⟨built_tables, Tables.Built.reloads_iff built_tables, compact_tables.narrow⟩

/-- A rule with one symbol more than a count of two bytes can say. -/
def oversizedRule : Rule := ⟨⟨4, List.replicate 65536 (.plain 2)⟩, none⟩

/-- A grammar that has such a rule, for a symbol that is never used. -/
def oversizedGrammar : Grammar where
  name := "g"
  symbols := #[⟨"end", ⟨true, false, false, false⟩⟩, ⟨"ERROR", ⟨true, true, false, false⟩⟩,
    ⟨"a", ⟨true, false, false, false⟩⟩, ⟨"s", ⟨false, true, false, false⟩⟩,
    ⟨"u", ⟨false, true, false, false⟩⟩]
  fields := #[]
  terminalCount := 3
  start := 3
  rules := #[⟨⟨3, [.plain 2]⟩, none⟩, oversizedRule]
  tokenPrecedence := #[none, none, none]

theorem plain_oversizedGrammar : GrammarDraft.Plain oversizedGrammar
    [⟨"a", ⟨true, false, false, false⟩⟩]
    [⟨"s", ⟨false, true, false, false⟩⟩, ⟨"u", ⟨false, true, false, false⟩⟩] where
  symbols := rfl
  terminalEntries := by decide
  nonterminalEntries := by decide +kernel
  names := by decide +kernel
  room := by decide
  fields := by decide
  rules := by
    intro r hMem
    obtain rfl | rfl : r = ⟨⟨3, [.plain 2]⟩, none⟩ ∨ r = oversizedRule := by
      simpa [oversizedGrammar] using hMem
    · rfl
    · refine List.findSome?_eq_none_iff.mpr fun slot hSlot => ?_
      rw [List.eq_of_mem_replicate hSlot]
      rfl
  terminalCount := rfl
  start := by decide
  productive := by decide +kernel
  precedence := rfl

/-- Not every described grammar comes back from its blob. -/
theorem not_reloads_oversizedGrammar :
    ∃ t : Tables, Tables.ofGrammar oversizedGrammar = .ok t ∧ t.Built
      ∧ Tables.ofBytes t.toBytes ≠ .ok t := by
  have hRules : ∀ info ∈ oversizedGrammar.rules, info.lhs < oversizedGrammar.symbols.size := by
    decide +kernel
  have hFound : (Automaton.Found.ofGrammar oversizedGrammar).isOk = true := by decide +kernel
  cases hStates : Automaton.Found.ofGrammar oversizedGrammar with
  | error cause => simp [hStates, Except.isOk, Except.toBool] at hFound
  | ok found =>
      have hTables := Tables.ofGrammar_eq_ok hRules hStates
      obtain ⟨b, hDescribed, hBuild⟩ := plain_oversizedGrammar.described
      refine ⟨_, hTables, ⟨b, _, hDescribed, hBuild, hTables⟩, fun hLoads => ?_⟩
      have hLength := (Tables.compact_of_ofBytes hLoads).narrow.lengths oversizedRule.toProduction
        (by simp [Tables.ofAutomaton, oversizedGrammar])
      exact absurd hLength (by rw [oversizedRule, List.length_replicate]; decide)

end IncrementalParsing
