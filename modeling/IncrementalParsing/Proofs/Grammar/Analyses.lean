import IncrementalParsing.Proofs.Grammar.Grounded
import IncrementalParsing.Proofs.Grammar.Rounds
import IncrementalParsing.Proofs.Letters.Language

/-! The two analyses of a grammar against its derivations, which need not come to an end. A symbol is
marked if it derives nothing, and its set has the terminals that begin the forms it derives. -/
namespace IncrementalParsing
namespace FirstSets
variable {f : FirstSets}

theorem ofSequence_append (front back : List SymbolId) (tail : IdSet) :
    f.ofSequence (front ++ back) tail = f.ofSequence front (f.ofSequence back tail) := by
  induction front with
  | nil => rfl
  | cons symbol front ih => rw [List.cons_append, ofSequence, ofSequence, ih]

theorem ofSequence_mono {tail more : IdSet} (h : tail.Subset more) (form : List SymbolId) :
    (f.ofSequence form tail).Subset (f.ofSequence form more) :=
  Below.ofSequence ⟨rfl, fun _ => id, fun _ => .refl _⟩ h form

end FirstSets

namespace Grammar
variable {g : Grammar}

/-- A replacement adds nothing to what a form can begin with. -/
theorem Produces.ofSequence (hProper : g.Proper) {before after : List SymbolId}
    (h : g.Produces before after) (tail : IdSet) :
    (g.firstSets.ofSequence after tail).Subset (g.firstSets.ofSequence before tail) := by
  obtain ⟨front, back, info, hMem, rfl, rfl⟩ := h
  rw [List.append_assoc, FirstSets.ofSequence_append, FirstSets.ofSequence_append front]
  refine FirstSets.ofSequence_mono (fun i hIn => ?_) front
  rw [FirstSets.ofSequence_append, FirstSets.contains_ofSequence] at hIn
  rcases hIn with hFirst | ⟨hEmpty, hBack⟩
  · exact FirstSets.subset_ofSequence_cons _ _ _ i (subset_ofSymbol hProper hMem i hFirst)
  · have hLhs : g.firstSets.isNullable info.lhs = true := by
      rw [isNullable_firstSets]
      refine isNullable_of_rule hProper hMem fun symbol hIn => ?_
      rw [← isNullable_firstSets]
      exact hEmpty symbol hIn
    rw [FirstSets.ofSequence, if_pos hLhs]
    exact IdSet.subset_union_right _ _ i hBack

theorem Derives.ofSequence (hProper : g.Proper) {form derived : List SymbolId} (h : g.Derives form derived)
    (tail : IdSet) :
    (g.firstSets.ofSequence derived tail).Subset (g.firstSets.ofSequence form tail) := by
  induction h with
  | refl => exact .refl _
  | tail _ hStep ih => exact (hStep.ofSequence hProper tail).trans ih

theorem isNullable_iff (hProper : g.Proper) (symbol : SymbolId) :
    g.firstSets.isNullable symbol = true ↔ g.Derives [symbol] [] := by
  refine ⟨fun hMark => ?_, fun hDerives => ?_⟩
  · rw [isNullable_firstSets] at hMark
    exact nullable_induction (Q := fun symbol => g.Derives [symbol] [])
      (fun _ hMem hAll => .head (produces_of_mem hMem) (derives_nil_of_forall hAll)) symbol hMark
  · obtain ⟨rules, hYields⟩ := hDerives.yields (by simp)
    exact hYields.isNullable hProper rfl symbol (List.mem_singleton_self _)

theorem forall_isNullable_iff (hProper : g.Proper) (form : List SymbolId) :
    (∀ symbol ∈ form, g.firstSets.isNullable symbol = true) ↔ g.Derives form [] := by
  refine ⟨fun h => derives_nil_of_forall fun symbol hMem => (isNullable_iff hProper symbol).mp (h symbol hMem),
    fun h => ?_⟩
  obtain ⟨rules, hYields⟩ := h.yields (by simp)
  exact hYields.isNullable hProper rfl

/-- What stands behind empty symbols is derived in front. -/
theorem exists_derives_of_split {front : List SymbolId} {symbol first : SymbolId}
    (hFront : g.Derives front []) (h : g.Starts symbol first) (back : List SymbolId) :
    ∃ rest, g.Derives (front ++ symbol :: back) (first :: rest) := by
  obtain ⟨rest, hRest⟩ := h
  have hBehind : g.Derives (front ++ symbol :: back) (symbol :: back) := by
    simpa using hFront.within [] (symbol :: back)
  have hHere : g.Derives (symbol :: back) (first :: rest ++ back) := by
    simpa using hRest.within [] back
  exact ⟨rest ++ back, hBehind.trans hHere⟩

/-- A terminal in front of a derived form is known. -/
theorem Derives.contains_ofSequence (hProper : g.Proper) {form rest : List SymbolId} {terminal : SymbolId}
    (hTerminal : g.isTerminal terminal = true) (h : g.Derives form (terminal :: rest)) (tail : IdSet) :
    (g.firstSets.ofSequence form tail).contains terminal = true := by
  refine h.ofSequence hProper tail terminal (FirstSets.subset_ofSequence_cons _ _ _ terminal ?_)
  have hLess : terminal < g.terminalCount := of_decide_eq_true hTerminal
  rw [FirstSets.ofSymbol, g.firstSets_fixed.1.terminalCount, if_pos hLess, IdSet.contains_singleton,
    decide_eq_true rfl]

/-- The terminals that begin what a symbol derives. -/
theorem contains_ofSymbol_iff (hProper : g.Proper) (symbol terminal : SymbolId) :
    (g.firstSets.ofSymbol symbol).contains terminal = true ↔
      g.isTerminal terminal = true ∧ g.Starts symbol terminal := by
  refine ⟨fun hIn => ?_, fun ⟨hTerminal, rest, hDerives⟩ => ?_⟩
  · refine firstSets_induction hProper (Q := fun symbol terminal =>
      g.isTerminal terminal = true ∧ g.Starts symbol terminal)
      (fun terminal hTerminal => ⟨hTerminal, [], .refl⟩) ?_ symbol terminal hIn
    rintro info hMem front other back hSymbols hFront terminal ⟨hTerminal, hStarts⟩
    have hNone : g.Derives front [] := by
      refine (forall_isNullable_iff hProper front).mp fun a hA => ?_
      rw [isNullable_firstSets]
      exact hFront a hA
    obtain ⟨rest, hRest⟩ := exists_derives_of_split hNone hStarts back
    exact ⟨hTerminal, rest, .head (hSymbols ▸ produces_of_mem hMem) hRest⟩
  · have hIn := hDerives.contains_ofSequence hProper hTerminal .empty
    rw [FirstSets.ofSequence] at hIn
    split at hIn
    · simpa [FirstSets.ofSequence] using hIn
    · exact hIn

/-- The terminals that begin what a form derives, and all that stands behind it if it derives nothing. -/
theorem contains_ofSequence_iff (hProper : g.Proper) (form : List SymbolId) (tail : IdSet) (i : Nat) :
    (g.firstSets.ofSequence form tail).contains i = true ↔
      (g.isTerminal i = true ∧ ∃ rest, g.Derives form (i :: rest))
        ∨ g.Derives form [] ∧ tail.contains i = true := by
  refine ⟨fun hIn => ?_, ?_⟩
  · rw [FirstSets.contains_ofSequence] at hIn
    refine hIn.imp (fun hFirst => ?_) (And.imp_left (forall_isNullable_iff hProper form).mp)
    obtain ⟨front, symbol, back, rfl, hFront, hSymbol⟩ := FirstSets.exists_of_contains_ofSequence hFirst
    obtain ⟨hTerminal, hStarts⟩ := (contains_ofSymbol_iff hProper symbol i).mp hSymbol
    exact ⟨hTerminal, exists_derives_of_split ((forall_isNullable_iff hProper front).mp hFront) hStarts back⟩
  · rintro (⟨hTerminal, rest, hDerives⟩ | ⟨hEmpty, hBehind⟩)
    · exact hDerives.contains_ofSequence hProper hTerminal tail
    · exact hEmpty.ofSequence hProper tail i hBehind

end Grammar

/-- Both analyses of a grammar end, and they are exact. A symbol is marked if it derives nothing. A terminal
is in the set of a symbol if it begins a form that the symbol derives, whether or not the form ever becomes a
text. What a sequence begins with is what begins the forms it derives, and what stands behind it if it
derives nothing. -/
theorem nullable_and_first_exact {b : GrammarDraft} (hDescribed : b.Described) {g : Grammar}
    (hBuild : b.build = .ok g) :
    Loop g.markRound (Array.replicate g.symbols.size false) g.nullable
      ∧ (∃ sets, Loop (g.firstRound g.nullable) g.firstStart sets ∧ g.Lists sets g.firstSets)
      ∧ (∀ symbol, g.firstSets.isNullable symbol = true ↔ g.Derives [symbol] [])
      ∧ (∀ symbol terminal, (g.firstSets.ofSymbol symbol).contains terminal = true ↔
        g.isTerminal terminal = true ∧ ∃ rest, g.Derives [symbol] (terminal :: rest))
      ∧ ∀ form tail i, (g.firstSets.ofSequence form tail).contains i = true ↔
        (g.isTerminal i = true ∧ ∃ rest, g.Derives form (i :: rest))
          ∨ g.Derives form [] ∧ tail.contains i = true := by
  have hProper := hDescribed.proper hBuild
  exact ⟨Grammar.loop_nullable hProper, Grammar.exists_loop_firstSets hProper,
    Grammar.isNullable_iff hProper, Grammar.contains_ofSymbol_iff hProper,
    Grammar.contains_ofSequence_iff hProper⟩

namespace Letters

/-- Sentences are some `a` and then `b` without end, so there is none. -/
def endless : Grammar :=
  grammar 2 [⟨"s", ⟨false, true, false, false⟩⟩, ⟨"x", ⟨false, true, false, false⟩⟩,
    ⟨"y", ⟨false, true, false, false⟩⟩] #[
    ⟨⟨4, [.plain 5, .plain 6]⟩, none⟩,
    ⟨⟨5, []⟩, none⟩,
    ⟨⟨5, [.plain 5, .plain 2]⟩, none⟩,
    ⟨⟨6, [.plain 3, .plain 6]⟩, none⟩]

theorem first_exact_of_endless : ∃ b : GrammarDraft, b.Described ∧ b.build = .ok endless
    ∧ endless.Derives [5] [] ∧ ¬endless.Derives [4] []
    ∧ (∀ terminal, (endless.isTerminal terminal = true ∧ ∃ rest, endless.Derives [4] (terminal :: rest)) ↔
      terminal = 2 ∨ terminal = 3) := by
  have hPlain : GrammarDraft.Plain endless (letters 2) [⟨"s", ⟨false, true, false, false⟩⟩,
      ⟨"x", ⟨false, true, false, false⟩⟩, ⟨"y", ⟨false, true, false, false⟩⟩] := {
    symbols := rfl
    terminalEntries := by decide
    nonterminalEntries := by decide +kernel
    names := by decide +kernel
    room := by decide
    fields := by decide
    rules := by decide +kernel
    terminalCount := rfl
    start := by decide
    productive := by decide +kernel
    precedence := rfl }
  obtain ⟨b, hDescribed, hBuild⟩ := hPlain.described
  obtain ⟨-, -, hEmpty, hFirst, -⟩ := nullable_and_first_exact hDescribed hBuild
  have hMarks : endless.firstSets.isNullable 5 = true ∧ endless.firstSets.isNullable 4 = false := by
    decide +kernel
  have hSet : endless.firstSets.ofSymbol 4 = (IdSet.singleton 2).union (.singleton 3) := by decide +kernel
  refine ⟨b, hDescribed, hBuild, (hEmpty 5).mp hMarks.1, fun hNone => ?_, fun terminal => ?_⟩
  · exact absurd ((hEmpty 4).mpr hNone) (by simp [hMarks.2])
  · rw [← hFirst, hSet, IdSet.contains_union, IdSet.contains_singleton, IdSet.contains_singleton,
      Bool.or_eq_true, decide_eq_true_eq, decide_eq_true_eq]
    exact or_congr eq_comm eq_comm

end Letters
end IncrementalParsing
