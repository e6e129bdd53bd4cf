import IncrementalParsing.Proofs.Grammar.Derivation
import IncrementalParsing.Proofs.Grammar.Description
import Mathlib.Data.Finset.Card

/-! Grammars where no symbol leads back to itself without anything to read in front of it. The two
ways in which one could are ranked: by the symbols that derive a symbol, and by those that derive it
behind something empty. -/
namespace IncrementalParsing

/-- How many of the first numbers are related to one. -/
noncomputable def countBefore (bound : Nat) (R : Nat → Nat → Prop) (x : Nat) : Nat := by
  classical exact ((Finset.range bound).filter (R · x)).card

section
variable {bound : Nat} {R : Nat → Nat → Prop} {x y : Nat}

theorem countBefore_le : countBefore bound R x ≤ bound := by
  classical
  calc countBefore bound R x ≤ (Finset.range bound).card := Finset.card_filter_le _ _
    _ = bound := Finset.card_range bound

theorem countBefore_mono (hMore : ∀ z, R z x → R z y) :
    countBefore bound R x ≤ countBefore bound R y := by
  classical
  refine Finset.card_le_card fun z hMem => ?_
  rw [Finset.mem_filter] at hMem ⊢
  exact ⟨hMem.1, hMore z hMem.2⟩

/-- A number that is not related to itself has fewer than those that it is related to. -/
theorem countBefore_lt (hBound : x < bound) (hMore : ∀ z, R z x → R z y) (hNew : R x y)
    (hSelf : ¬R x x) : countBefore bound R x < countBefore bound R y := by
  classical
  refine Finset.card_lt_card ⟨fun z hMem => ?_, fun hSubset => hSelf ?_⟩
  · rw [Finset.mem_filter] at hMem ⊢
    exact ⟨hMem.1, hMore z hMem.2⟩
  · have hMem := hSubset (Finset.mem_filter.mpr ⟨Finset.mem_range.mpr hBound, hNew⟩)
    exact (Finset.mem_filter.mp hMem).2

end

namespace Grammar
variable {g : Grammar}

/-- Forms that derive nothing do so together. -/
theorem derives_nil_of_forall {form : List SymbolId} (h : ∀ symbol ∈ form, g.Derives [symbol] []) :
    g.Derives form [] := by
  induction form with
  | nil => exact .refl
  | cons symbol form ih =>
      have hFirst := (h symbol (by simp)).within [] form
      exact hFirst.trans (ih fun other hMem => h other (by simp [hMem]))

/-- A symbol derives a single one, by at least one replacement. -/
def Becomes (g : Grammar) (above below : SymbolId) : Prop :=
  Relation.TransGen g.Produces [above] [below]

/-- A symbol derives another behind something that derives nothing. -/
def Hides (g : Grammar) (above below : SymbolId) : Prop :=
  ∃ front back, front ≠ [] ∧ g.Derives front []
    ∧ Relation.TransGen g.Produces [above] (front ++ below :: back)

/-- A symbol derives a form that begins with another. -/
def Starts (g : Grammar) (above below : SymbolId) : Prop :=
  ∃ back, g.Derives [above] (below :: back)

/-- No symbol derives itself, or itself behind something that derives nothing. -/
structure Grounded (g : Grammar) : Prop where
  becomes : ∀ symbol, ¬g.Becomes symbol symbol
  hides : ∀ symbol, ¬g.Hides symbol symbol

section
variable {a b c : SymbolId}

/-- To hide a symbol in front is transitive. -/
theorem Hides.trans (h : g.Hides a b) (hNext : g.Hides b c) : g.Hides a c := by
  obtain ⟨front, back, hSome, hEmpty, hDerives⟩ := h
  obtain ⟨front', back', -, hEmpty', hDerives'⟩ := hNext
  refine ⟨front ++ front', back' ++ back, by simp [hSome], ?_, ?_⟩
  · have hFirst := hEmpty.within [] front'
    exact hFirst.trans hEmpty'
  · have hRest : Relation.TransGen g.Produces (front ++ [b] ++ back)
        (front ++ (front' ++ c :: back') ++ back) :=
      hDerives'.lift (fun form => front ++ form ++ back) fun _ _ hStep => hStep.within front back
    have hWhole := hDerives.trans (by simpa using hRest)
    simpa using hWhole

/-- What a hidden symbol starts with is hidden as well. -/
theorem Hides.starts (h : g.Hides a b) (hNext : g.Starts b c) : g.Hides a c := by
  obtain ⟨front, back, hSome, hEmpty, hDerives⟩ := h
  obtain ⟨back', hDerives'⟩ := hNext
  refine ⟨front, back' ++ back, hSome, hEmpty, ?_⟩
  have hRest : Relation.ReflTransGen g.Produces (front ++ [b] ++ back)
      (front ++ (c :: back') ++ back) := Derives.within hDerives' front back
  exact hDerives.trans_left (by simpa using hRest)

/-- A rule hides what stands behind an empty beginning. -/
theorem hides_of_rule {info : Rule} (hMem : info ∈ g.rules) {front back : List SymbolId}
    (hSymbols : info.symbols = front ++ b :: back) (hSome : front ≠ [])
    (hEmpty : g.Derives front []) : g.Hides info.lhs b :=
  ⟨front, back, hSome, hEmpty, .single (hSymbols ▸ produces_of_mem hMem)⟩

/-- A rule hides what stands at a place of it, if each of the symbols in front of it derives nothing. -/
theorem hides_of_getElem? {info : Rule} (hMem : info ∈ g.rules) {place : Nat}
    (hPlace : info.symbols[place]? = some b) (hSome : 0 < place)
    (hEmpty : ∀ a ∈ info.symbols.take place, g.Derives [a] []) : g.Hides info.lhs b := by
  obtain ⟨hLess, rfl⟩ := List.getElem?_eq_some_iff.mp hPlace
  have hSymbols : info.symbols
      = info.symbols.take place ++ info.symbols[place] :: info.symbols.drop (place + 1) := by
    rw [List.getElem_cons_drop, List.take_append_drop]
  refine hides_of_rule hMem hSymbols ?_ (derives_nil_of_forall hEmpty)
  exact List.ne_nil_of_length_pos (by rw [List.length_take]; omega)

theorem starts_of_rule {info : Rule} (hMem : info ∈ g.rules) {back : List SymbolId}
    (hSymbols : info.symbols = b :: back) : g.Starts info.lhs b :=
  ⟨back, .single (hSymbols ▸ produces_of_mem hMem)⟩

/-- A rule whose symbols but the first derive nothing makes its symbol become that one. -/
theorem becomes_of_rule {info : Rule} (hMem : info ∈ g.rules) {back : List SymbolId}
    (hSymbols : info.symbols = b :: back) (hEmpty : g.Derives back []) : g.Becomes info.lhs b := by
  have hRest : g.Derives (b :: back) [b] := by simpa using hEmpty.within [b] []
  exact .trans_left (.single (hSymbols ▸ produces_of_mem hMem)) hRest

/-- The number of symbols that become a symbol. -/
noncomputable def becomingRank (g : Grammar) : SymbolId → Nat :=
  countBefore g.symbols.size g.Becomes

/-- The number of symbols that hide a symbol. -/
noncomputable def hidingRank (g : Grammar) : SymbolId → Nat :=
  countBefore g.symbols.size g.Hides

/-- In a grounded grammar a symbol becomes symbols of a higher rank only. -/
theorem Grounded.becomingRank_lt (h : g.Grounded) (hBound : a < g.symbols.size)
    (hBecomes : g.Becomes a b) : g.becomingRank a < g.becomingRank b :=
  countBefore_lt hBound (fun _ hBefore => hBefore.trans hBecomes) hBecomes (h.becomes a)

/-- In a grounded grammar a symbol hides symbols of a higher rank only. -/
theorem Grounded.hidingRank_lt (h : g.Grounded) (hBound : a < g.symbols.size) (hHides : g.Hides a b) :
    g.hidingRank a < g.hidingRank b :=
  countBefore_lt hBound (fun _ hBefore => hBefore.trans hHides) hHides (h.hides a)

theorem hidingRank_le (hStarts : g.Starts a b) : g.hidingRank a ≤ g.hidingRank b :=
  countBefore_mono fun _ hBefore => hBefore.starts hStarts

end

/-- No rule of a symbol is empty. -/
def Solid (g : Grammar) (symbol : SymbolId) : Prop :=
  ∀ info ∈ g.rules, info.lhs = symbol → info.symbols ≠ []

theorem Produces.solid {before after : List SymbolId}
    (hSolid : ∀ info ∈ g.rules, ∀ symbol ∈ info.symbols, g.Solid symbol)
    (h : g.Produces before after) (hBefore : ∀ symbol ∈ before, g.Solid symbol) :
    ∀ symbol ∈ after, g.Solid symbol := by
  obtain ⟨left, right, info, hMem, rfl, rfl⟩ := h
  intro symbol hIn
  rcases List.mem_append.mp hIn with hIn | hRight
  · rcases List.mem_append.mp hIn with hLeft | hRule
    · exact hBefore symbol (by simp [hLeft])
    · exact hSolid info hMem symbol hRule
  · exact hBefore symbol (by simp [hRight])

/-- A form of symbols without empty rules does not vanish. -/
theorem Derives.ne_nil {before after : List SymbolId}
    (hSolid : ∀ info ∈ g.rules, ∀ symbol ∈ info.symbols, g.Solid symbol)
    (h : g.Derives before after) (hBefore : ∀ symbol ∈ before, g.Solid symbol)
    (hSome : before ≠ []) : after ≠ [] := by
  refine (show after ≠ [] ∧ ∀ symbol ∈ after, g.Solid symbol from ?_).1
  induction h with
  | refl => exact ⟨hSome, hBefore⟩
  | tail _ hStep ih =>
      refine ⟨?_, hStep.solid hSolid ih.2⟩
      obtain ⟨left, right, info, hMem, rfl, rfl⟩ := hStep
      have hSymbols : info.symbols ≠ [] := ih.2 info.lhs (by simp) info hMem rfl
      simp [hSymbols]

/-- A grammar is grounded where nothing that stands in a rule has an empty rule, and single symbols
are ranked above their left-hand sides. -/
theorem grounded_of_rank {rank : SymbolId → Nat}
    (hSolid : ∀ info ∈ g.rules, ∀ symbol ∈ info.symbols, g.Solid symbol)
    (hRank : ∀ info ∈ g.rules, info.symbols.length = 1 →
      ∀ only ∈ info.symbols, rank info.lhs < rank only) : g.Grounded := by
  replace hRank : ∀ info ∈ g.rules, ∀ only, info.symbols = [only] → rank info.lhs < rank only :=
    fun info hMem only hOnly => hRank info hMem (by simp [hOnly]) only (by simp [hOnly])
  have hForms : ∀ {symbol form}, Relation.TransGen g.Produces [symbol] form →
      (∀ other ∈ form, g.Solid other) ∧ ∀ only, form = [only] → rank symbol < rank only := by
    intro symbol form h
    induction h with
    | single hStep =>
        obtain ⟨left, right, info, hMem, hSame, rfl⟩ := hStep
        obtain ⟨rfl, rfl, rfl⟩ : left = [] ∧ symbol = info.lhs ∧ right = [] := by
          cases left <;> simp_all
        simpa using ⟨hSolid info hMem, hRank info hMem⟩
    | tail _ hStep ih =>
        refine ⟨hStep.solid hSolid ih.1, fun only hOnly => ?_⟩
        obtain ⟨left, right, info, hMem, rfl, rfl⟩ := hStep
        have hSymbols : info.symbols ≠ [] := ih.1 info.lhs (by simp) info hMem rfl
        obtain ⟨rfl, hRule, rfl⟩ : left = [] ∧ info.symbols = [only] ∧ right = [] := by
          have hLength := congrArg List.length hOnly
          have hPos := List.length_pos_iff.mpr hSymbols
          simp only [List.length_append, List.length_singleton] at hLength
          obtain rfl : left = [] := List.eq_nil_of_length_eq_zero (by omega)
          obtain rfl : right = [] := List.eq_nil_of_length_eq_zero (by omega)
          simpa using hOnly
        exact (ih.2 info.lhs rfl).trans (hRank info hMem only hRule)
  refine ⟨fun symbol h => absurd ((hForms h).2 symbol rfl) (Nat.lt_irrefl _), ?_⟩
  rintro symbol ⟨front, back, hSome, hEmpty, h⟩
  exact hEmpty.ne_nil hSolid (fun other hMem => (hForms h).1 other (by simp [hMem])) hSome rfl

end Grammar
end IncrementalParsing
