import IncrementalParsing.Proofs.Grammar.Awaiting

/-! The two analyses of a grammar find nothing that is not there. A symbol that may be empty stands for
nothing, and a terminal that a form may begin with begins something that the form stands for, if every
symbol stands for something. -/
namespace IncrementalParsing
namespace Grammar
variable {g : Grammar}

/-- Something that a form stands for begins with a terminal. -/
def Begins (g : Grammar) (form : List SymbolId) (terminal : SymbolId) : Prop :=
  ∃ tokens, g.StandsFor form tokens ∧ tokens.head? = some terminal

theorem standsFor_nil_of_forall {form : List SymbolId} (h : ∀ symbol ∈ form, g.StandsFor [symbol] []) :
    g.StandsFor form [] := by
  induction form with
  | nil => exact .nil
  | cons first form ih =>
      obtain ⟨hFirst, hForm⟩ := List.forall_mem_cons.mp h
      exact hFirst.append (ih hForm)

/-- A form of symbols that may be empty stands for nothing. -/
theorem standsFor_nil_of_nullable {form : List SymbolId}
    (h : ∀ symbol ∈ form, g.nullable.getD symbol false = true) : g.StandsFor form [] :=
  standsFor_nil_of_forall fun symbol hMem =>
    nullable_induction (Q := fun symbol => g.StandsFor [symbol] [])
      (fun _ hRule hAll => .rule hRule (standsFor_nil_of_forall hAll)) symbol (h symbol hMem)

/-- What begins something behind empty symbols begins something in front, if there is something behind. -/
theorem Begins.of_split {front back : List SymbolId} {symbol terminal : SymbolId}
    (hFront : ∀ other ∈ front, g.nullable.getD other false = true) (h : g.Begins [symbol] terminal)
    (hBack : ∃ more, g.StandsFor back more) : g.Begins (front ++ symbol :: back) terminal := by
  obtain ⟨tokens, hTokens, hHead⟩ := h
  obtain ⟨more, hMore⟩ := hBack
  refine ⟨tokens ++ more, (standsFor_nil_of_nullable hFront).append (hTokens.append hMore), ?_⟩
  rw [List.head?_append, hHead]
  rfl

/-- What the set of a symbol holds begins what the symbol stands for. -/
theorem begins_ofSymbol (hProper : g.Proper) (hProductive : g.Productive) {symbol terminal : SymbolId}
    (hIn : (g.firstSets.ofSymbol symbol).contains terminal = true) : g.Begins [symbol] terminal := by
  refine firstSets_induction hProper (Q := fun symbol terminal => g.Begins [symbol] terminal)
    (fun terminal hTerminal => ⟨[terminal], .terminal hTerminal, rfl⟩) ?_ symbol terminal hIn
  intro info hMem front other back hSymbols hFront terminal hOther
  have hBack : ∃ more, g.StandsFor back more := exists_standsFor_form fun last hLast =>
    hProductive last (hProper.symbol info hMem last (by simp [hSymbols, hLast])).1
  obtain ⟨tokens, hTokens, hHead⟩ := hOther.of_split hFront hBack
  exact ⟨tokens, .rule hMem (hSymbols ▸ hTokens), hHead⟩

theorem begins_ofSequence (hProper : g.Proper) (hProductive : g.Productive) {form : List SymbolId}
    (hForm : ∀ symbol ∈ form, symbol < g.symbols.size) {terminal : SymbolId}
    (hIn : (g.firstSets.ofSequence form .empty).contains terminal = true) : g.Begins form terminal := by
  obtain ⟨front, symbol, back, rfl, hFront, hSymbol⟩ := FirstSets.exists_of_contains_ofSequence hIn
  refine (begins_ofSymbol hProper hProductive hSymbol).of_split (fun other hMem => ?_)
    (exists_standsFor_form fun other hMem => hProductive other (hForm other (by simp [hMem])))
  rw [← isNullable_firstSets]
  exact hFront other hMem

end Grammar
end IncrementalParsing
