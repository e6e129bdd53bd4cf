import IncrementalParsing.Proofs.Labels.Language
import IncrementalParsing.Proofs.Tables.Driver

/-! Tables without conflicts accept the language of their grammar. -/
namespace IncrementalParsing

/-- Tokens are the terminals except for the end of the input, which stands behind all of them. -/
def Grammar.Sequence (g : Grammar) (tokens : List SymbolId) : Prop :=
  ∀ token ∈ tokens, g.isTerminal token = true ∧ token ≠ endSymbol

/-- Tables whose construction meets no conflict accept the language of their grammar, and they reduce
by the rules of a rightmost derivation in reverse. -/
theorem Tables.drives_iff_derives {b : GrammarDraft} {g : Grammar} {t : Tables}
    (hDescribed : GrammarDraft.Described b) (hBuild : b.build = .ok g)
    (hTables : Tables.ofGrammar g = .ok t) (hFits : g.rules.size ≤ ruleBound)
    (hFree : g.ConflictFree) {tokens : List SymbolId}
    (hTokens : g.Sequence tokens) :
    ((∃ rules, t.Drives [] tokens rules) ↔ g.Derives [g.start] tokens)
      ∧ ∀ rules, t.Drives [] tokens rules → g.Rightmost [g.start] rules.reverse tokens := by
  have hProper := hDescribed.proper hBuild
  obtain ⟨m, hFaithful⟩ := Tables.faithful_ofGrammar hTables hFits
  have hEnd : endSymbol ∉ tokens := fun hMem => (hTokens _ hMem).2 rfl
  have hSound : ∀ rules, t.Drives [] tokens rules → g.Rightmost [g.start] rules.reverse tokens := by
    rintro rules ⟨limit, hDrive⟩
    exact (hFaithful.rightmost hProper limit .nil hEnd hDrive).2
  refine ⟨⟨fun hDrives => ?_, fun hDerives => ?_⟩, hSound⟩
  · obtain ⟨rules, hDrives⟩ := hDrives
    exact (hSound rules hDrives).derives
  · obtain ⟨rules, hYields⟩ := hDerives.yields fun token hMem => (hTokens token hMem).1
    exact ⟨rules, hFaithful.drives_of_yields hProper hFree hYields⟩

/-- Conflicts can be looked for in the automaton that is found on lists. -/
theorem Grammar.conflictFree_of_found {g : Grammar}
    (hRules : ∀ info ∈ g.rules, info.lhs < g.symbols.size) {found : Automaton.Found}
    (hFound : Automaton.Found.ofGrammar g = .ok found)
    (hFree : ∀ state < found.kernels.length, ∀ terminal < g.terminalCount,
      ∀ one ∈ found.toAutomaton.candidates g state terminal,
        ∀ other ∈ found.toAutomaton.candidates g state terminal, one = other) : g.ConflictFree := by
  intro m hStates
  obtain ⟨⟨kernels, numbers, transitions⟩, hSame, hKernels, hTransitions⟩ :=
    Automaton.exists_ofGrammar hRules hFound
  obtain rfl := Except.ok.inj (hStates.symm.trans hSame)
  obtain rfl : kernels = found.kernels.reverse.toArray := Array.toList_inj.mp hKernels
  obtain rfl : transitions = found.rows.reverse.toArray := Array.toList_inj.mp hTransitions
  intro state hState
  exact hFree state (by simpa using hState)

namespace Labels

theorem conflictFree_grammar : grammar.ConflictFree := by
  have hRules : ∀ info ∈ grammar.rules, info.lhs < grammar.symbols.size := by decide +kernel
  refine Grammar.conflictFree_of_found hRules ofGrammar_states ?_
  decide +kernel

/-- An entry with a label is accepted. -/
theorem drives_labelled : (∃ rules, tables.Drives [] [letter, number] rules)
    ∧ ∀ rules, tables.Drives [] [letter, number] rules →
        grammar.Rightmost [file] rules.reverse [letter, number] := by
  obtain ⟨b, hDescribed, hBuild⟩ := plain_grammar.described
  have hTokens : grammar.Sequence [letter, number] := by
    unfold Grammar.Sequence
    decide
  have hExact := Tables.drives_iff_derives hDescribed hBuild ofGrammar_eq_ok fits_rules conflictFree_grammar
    hTokens
  have hEntries : grammar.Produces [file] [entries] := ⟨[], [], rules[0], Array.getElem_mem _, rfl, rfl⟩
  have hEntry : grammar.Produces [entries] [entry] := ⟨[], [], rules[1], Array.getElem_mem _, rfl, rfl⟩
  have hLabel : grammar.Produces [entry] [label, number] := ⟨[], [], rules[3], Array.getElem_mem _, rfl, rfl⟩
  have hLetter : grammar.Produces [label, number] [letter, number] :=
    ⟨[], [number], rules[5], Array.getElem_mem _, rfl, rfl⟩
  have hDerives : grammar.Derives [file] [letter, number] :=
    .head hEntries (.head hEntry (.head hLabel (.single hLetter)))
  exact ⟨hExact.1.mpr hDerives, hExact.2⟩

/-- The label is reduced first, then its entry, the list and the file. -/
example : tables.drive 7 [] [letter, number] = some [5, 3, 1, 0] := by decide +kernel

end Labels
end IncrementalParsing
