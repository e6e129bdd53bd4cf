import IncrementalParsing.Proofs.Grammar.Derivation
import IncrementalParsing.Proofs.Grammar.Description
import IncrementalParsing.Proofs.Saturation

/-! The two analyses of a grammar are closed under its rules. So they know every symbol that stands
for nothing, and every terminal that what a form stands for begins with. -/
namespace IncrementalParsing
namespace FirstSets
variable {f : FirstSets}

/-- What stands behind a sequence begins what follows only if the whole sequence may be empty. -/
theorem contains_ofSequence {form : List SymbolId} {tail : IdSet} {i : Nat} :
    (f.ofSequence form tail).contains i = true ↔
      (f.ofSequence form .empty).contains i = true
        ∨ (∀ symbol ∈ form, f.isNullable symbol = true) ∧ tail.contains i = true := by
  induction form with
  | nil => simp [ofSequence]
  | cons symbol form ih =>
      rw [ofSequence, ofSequence]
      split
      · rename_i hEmpty
        rw [IdSet.contains_union, IdSet.contains_union, Bool.or_eq_true, Bool.or_eq_true, ih]
        simp [hEmpty, or_assoc]
      · rename_i hSome
        simp [hSome]

theorem within_ofSequence {n : Nat} (hCount : f.terminalCount ≤ n)
    (hSets : ∀ i, (f.nonterminals.getD i .empty).Within n) {tail : IdSet} (hTail : tail.Within n)
    (form : List SymbolId) : (f.ofSequence form tail).Within n := by
  have hSymbol : ∀ symbol : Nat, (f.ofSymbol symbol).Within n := by
    intro symbol
    unfold ofSymbol
    split
    · rename_i hLess
      exact IdSet.within_singleton (Nat.lt_of_lt_of_le hLess hCount)
    · exact hSets _
  induction form with
  | nil => exact hTail
  | cons symbol form ih =>
      rw [ofSequence]
      split
      · exact (hSymbol symbol).union ih
      · exact hSymbol symbol

/-- A symbol in front contributes what it begins with, whether or not it may be empty. -/
theorem subset_ofSequence_cons (symbol : SymbolId) (form : List SymbolId) (tail : IdSet) :
    (f.ofSymbol symbol).Subset (f.ofSequence (symbol :: form) tail) := by
  rw [ofSequence]
  split
  · exact IdSet.subset_union_left _ _
  · exact .refl _

/-- What a sequence begins with comes from a symbol that has only empty ones in front. -/
theorem exists_of_contains_ofSequence {form : List SymbolId} {i : Nat}
    (h : (f.ofSequence form .empty).contains i = true) :
    ∃ front symbol back, form = front ++ symbol :: back
      ∧ (∀ other ∈ front, f.isNullable other = true) ∧ (f.ofSymbol symbol).contains i = true := by
  induction form with
  | nil => simp [ofSequence] at h
  | cons symbol form ih =>
      have hHere : (f.ofSymbol symbol).contains i = true → ∃ front other back,
          symbol :: form = front ++ other :: back ∧ (∀ other ∈ front, f.isNullable other = true)
            ∧ (f.ofSymbol other).contains i = true :=
        fun hIn => ⟨[], symbol, form, rfl, by simp, hIn⟩
      rw [ofSequence] at h
      split at h
      · rename_i hEmpty
        rw [IdSet.contains_union, Bool.or_eq_true] at h
        refine h.elim hHere fun hIn => ?_
        obtain ⟨front, other, back, rfl, hFront, hOther⟩ := ih hIn
        exact ⟨symbol :: front, other, back, rfl, List.forall_mem_cons.mpr ⟨hEmpty, hFront⟩, hOther⟩
      · exact hHere h

end FirstSets

namespace Grammar
variable {g : Grammar}

/-- What a pass does for one rule. -/
def markStep (marks : Array Bool) (rule : Rule) : Array Bool :=
  if rule.symbols.all (marks.getD · false) then marks.setIfInBounds rule.lhs true else marks

/-- A pass marks rule by rule. -/
theorem nullablePass_eq (marks : Array Bool) :
    g.nullablePass marks = g.rules.toList.foldl markStep marks := by
  rw [nullablePass, ← Array.foldl_toList]
  rfl

theorem climbs_markStep (n : Nat) (rule : Rule) :
    Climbs (fun marks : Array Bool => marks.size = n) (·.count true) (markStep · rule) where
  keeps marks hSize := by
    unfold markStep
    split
    · rw [Array.size_setIfInBounds, hSize]
    · exact hSize
  rises marks hSize := by
    unfold markStep
    split
    · by_cases hLess : rule.lhs < marks.size
      · rw [Array.setIfInBounds, dif_pos hLess]
        cases hMark : marks[rule.lhs] with
        | true => exact .inl (Array.ext (by simp) fun i _ _ => by grind)
        | false => exact .inr (by simp [Array.count_set, hMark])
      · rw [Array.setIfInBounds, dif_neg hLess]
        exact .inl rfl
    · exact .inl rfl

/-- A pass only ever marks more. -/
theorem climbs_nullablePass : Climbs (fun marks : Array Bool => marks.size = g.symbols.size) (·.count true)
    g.nullablePass := by
  rw [show g.nullablePass = _ from funext nullablePass_eq]
  exact Climbs.foldl (climbs_markStep _) _

/-- In the end a further pass marks nothing. -/
theorem nullable_fixed : g.nullable.size = g.symbols.size ∧ g.nullablePass g.nullable = g.nullable :=
  climbs_nullablePass.saturate_fixed (fun marks hSize => hSize ▸ Array.count_le_size) (by simp) (by omega)

/-- A symbol may be empty if one of its rules has only such symbols. -/
theorem isNullable_of_rule (hProper : g.Proper) {info : Rule} (hMem : info ∈ g.rules)
    (hAll : ∀ symbol ∈ info.symbols, g.nullable.getD symbol false = true) :
    g.nullable.getD info.lhs false = true := by
  obtain ⟨hSize, hFixed⟩ := g.nullable_fixed
  rw [nullablePass_eq] at hFixed
  have hStep := Climbs.step_eq (climbs_markStep g.symbols.size) hSize hFixed info (by simpa using hMem)
  unfold markStep at hStep
  rw [if_pos (List.all_eq_true.mpr hAll)] at hStep
  have hLess := hSize ▸ (hProper.lhs info hMem).2
  rw [← hStep, Array.getD_eq_getD_getElem?]
  simp [hLess]

/-- What a pass does for one rule. -/
def firstStep (f : FirstSets) (rule : Rule) : FirstSets :=
  { f with
    nonterminals := f.nonterminals.modify (rule.lhs - f.terminalCount) fun set =>
      set.union (f.ofSequence rule.symbols .empty) }

theorem firstPass_eq (f : FirstSets) : g.firstPass f = g.rules.toList.foldl firstStep f := by
  rw [firstPass, ← Array.foldl_toList]
  rfl

/-- What holds of the sets while they grow. -/
structure Growing (g : Grammar) (f : FirstSets) : Prop where
  terminalCount : f.terminalCount = g.terminalCount
  nullable : f.nullable = g.nullable
  size : f.nonterminals.size = g.nonterminalCount
  within : ∀ i, (f.nonterminals.getD i .empty).Within g.terminalCount

theorem climbs_firstStep (rule : Rule) :
    Climbs g.Growing (fun f => IdSet.weight g.terminalCount f.nonterminals) (firstStep · rule) where
  keeps f hGrowing := by
    refine ⟨hGrowing.terminalCount, hGrowing.nullable, (Array.size_modify ..).trans hGrowing.size,
      fun i => ?_⟩
    rw [firstStep, IdSet.getD_modify_union]
    have hMore := FirstSets.within_ofSequence (Nat.le_of_eq hGrowing.terminalCount) hGrowing.within
      (IdSet.within_empty _) rule.symbols
    by_cases hHere : rule.lhs - f.terminalCount = i ∧ i < f.nonterminals.size
    · rw [if_pos hHere]
      exact (hGrowing.within i).union hMore
    · rw [if_neg hHere]
      exact hGrowing.within i
  rises f hGrowing := by
    have hMore := FirstSets.within_ofSequence (Nat.le_of_eq hGrowing.terminalCount) hGrowing.within
      (IdSet.within_empty _) rule.symbols
    refine (IdSet.modify_union_rises (rule.lhs - f.terminalCount) hGrowing.within hMore).imp_left ?_
    intro hSame
    rw [firstStep, hSame]

theorem climbs_firstPass :
    Climbs g.Growing (fun f => IdSet.weight g.terminalCount f.nonterminals) g.firstPass := by
  rw [show g.firstPass = _ from funext firstPass_eq]
  exact Climbs.foldl climbs_firstStep _

/-- Before the first pass nothing is known to begin with anything. -/
theorem growing_start :
    g.Growing ⟨g.terminalCount, g.nullable, .replicate g.nonterminalCount .empty⟩ := by
  refine ⟨rfl, rfl, by simp, fun i => ?_⟩
  rw [Array.getD_eq_getD_getElem?, Array.getElem?_replicate]
  split <;> exact IdSet.within_empty _

theorem Growing.weight_le {f : FirstSets} (h : g.Growing f) :
    IdSet.weight g.terminalCount f.nonterminals ≤ g.nonterminalCount * g.terminalCount :=
  h.size ▸ IdSet.weight_le g.terminalCount f.nonterminals

/-- The first sets are at an end too. -/
theorem firstSets_fixed : g.Growing g.firstSets ∧ g.firstPass g.firstSets = g.firstSets :=
  climbs_firstPass.saturate_fixed (fun _ => Growing.weight_le) growing_start
    (Nat.lt_of_lt_of_le (Nat.lt_succ_self _) (Nat.le_add_right _ _))

theorem isNullable_firstSets (symbol : SymbolId) :
    g.firstSets.isNullable symbol = g.nullable.getD symbol false := by
  rw [FirstSets.isNullable, g.firstSets_fixed.1.nullable]

/-- A step adds to the set of its left-hand side what its right-hand side begins with. -/
theorem Growing.ofSymbol_firstStep {f : FirstSets} (hGrowing : g.Growing f) (hProper : g.Proper)
    {info : Rule} (hMem : info ∈ g.rules) (symbol : SymbolId) :
    (firstStep f info).ofSymbol symbol =
      if symbol = info.lhs then (f.ofSymbol symbol).union (f.ofSequence info.symbols .empty)
      else f.ofSymbol symbol := by
  obtain ⟨hFirst, hLast⟩ := hProper.lhs info hMem
  have hCount := hGrowing.terminalCount
  have hSize : f.nonterminals.size = g.symbols.size - g.terminalCount := hGrowing.size
  change (if symbol < f.terminalCount then _
    else (f.nonterminals.modify _ _).getD (symbol - f.terminalCount) _) = _
  rw [FirstSets.ofSymbol, IdSet.getD_modify_union, hCount, hSize]
  by_cases hTerminal : symbol < g.terminalCount
  · have hOther : symbol ≠ info.lhs := Nat.ne_of_lt (Nat.lt_of_lt_of_le hTerminal hFirst)
    rw [if_pos hTerminal, if_neg hOther, if_pos hTerminal]
  · rw [if_neg hTerminal, if_neg hTerminal]
    refine if_congr ?_ rfl rfl
    constructor
    · rintro ⟨hSame, -⟩
      exact ((tsub_left_inj hFirst (Nat.not_lt.mp hTerminal)).mp hSame).symm
    · rintro rfl
      exact ⟨rfl, Nat.sub_lt_sub_right hFirst hLast⟩

/-- What terminals have of themselves, and rules pass on from a symbol behind empty ones to the left-hand
side, holds of all that the sets hold. -/
theorem firstSets_induction (hProper : g.Proper) {Q : SymbolId → SymbolId → Prop}
    (hTerminal : ∀ terminal, g.isTerminal terminal = true → Q terminal terminal)
    (hRule : ∀ info ∈ g.rules, ∀ front symbol back, info.symbols = front ++ symbol :: back →
      (∀ other ∈ front, g.nullable.getD other false = true) →
      ∀ terminal, Q symbol terminal → Q info.lhs terminal) :
    ∀ symbol terminal, (g.firstSets.ofSymbol symbol).contains terminal = true → Q symbol terminal := by
  let Sound (f : FirstSets) : Prop := g.Growing f
    ∧ ∀ symbol terminal, (f.ofSymbol symbol).contains terminal = true → Q symbol terminal
  have hSound : Sound g.firstSets := by
    refine saturate_induction (P := Sound) (fun f hSets => ?_) _ _
      ⟨growing_start, fun symbol terminal hIn => ?_⟩
    · rw [firstPass_eq]
      refine List.foldlRecOn (motive := Sound) _ _ hSets ?_
      rintro f ⟨hGrowing, hSets⟩ info hMem
      have hMem : info ∈ g.rules := by simpa using hMem
      refine ⟨(climbs_firstStep info).keeps f hGrowing, fun symbol terminal hIn => ?_⟩
      rw [hGrowing.ofSymbol_firstStep hProper hMem] at hIn
      split at hIn
      · rename_i hHere
        subst hHere
        rw [IdSet.contains_union, Bool.or_eq_true] at hIn
        refine hIn.elim (hSets _ terminal) fun hNew => ?_
        obtain ⟨front, other, back, hSymbols, hFront, hOther⟩ :=
          FirstSets.exists_of_contains_ofSequence hNew
        exact hRule info hMem front other back hSymbols
          (fun a hA => hGrowing.nullable ▸ hFront a hA) terminal (hSets other terminal hOther)
      · exact hSets symbol terminal hIn
    · rw [FirstSets.ofSymbol] at hIn
      dsimp only at hIn
      split at hIn
      · rename_i hLess
        rw [IdSet.contains_singleton, decide_eq_true_eq] at hIn
        exact hIn ▸ hTerminal symbol (decide_eq_true hLess)
      · rw [Array.getD_eq_getD_getElem?, Array.getElem?_replicate] at hIn
        split at hIn <;> simp at hIn
  exact hSound.2

/-- A symbol begins with what one of its rules begins with. -/
theorem subset_ofSymbol (hProper : g.Proper) {info : Rule} (hMem : info ∈ g.rules) :
    (g.firstSets.ofSequence info.symbols .empty).Subset (g.firstSets.ofSymbol info.lhs) := by
  obtain ⟨hGrowing, hFixed⟩ := g.firstSets_fixed
  rw [firstPass_eq] at hFixed
  have hStep := Climbs.step_eq climbs_firstStep hGrowing hFixed info (by simpa using hMem)
  obtain ⟨hFirst, hLast⟩ := hProper.lhs info hMem
  have hPlace : info.lhs - g.terminalCount < g.firstSets.nonterminals.size := by
    rw [hGrowing.size, nonterminalCount]
    exact Nat.sub_lt_sub_right hFirst hLast
  have hSet := congrArg (fun f => f.nonterminals.getD (info.lhs - g.terminalCount) .empty) hStep
  dsimp only [firstStep] at hSet
  rw [hGrowing.terminalCount, IdSet.getD_modify_union, if_pos ⟨rfl, hPlace⟩] at hSet
  rw [FirstSets.ofSymbol, hGrowing.terminalCount, if_neg (Nat.not_lt.mpr hFirst), ← hSet]
  exact IdSet.subset_union_right _ _

/-- Only symbols that may be empty stand for nothing. -/
theorem Yields.isNullable (hProper : g.Proper) {form tokens : List SymbolId} {rules : List RuleId}
    (h : g.Yields form tokens rules) (hNone : tokens = []) :
    ∀ symbol ∈ form, g.firstSets.isNullable symbol = true := by
  simp only [isNullable_firstSets]
  induction h with
  | nil => simp
  | terminal => simp at hNone
  | rule hRule _ _ hInner hRest =>
      obtain ⟨hNoInner, hNoRest⟩ := List.append_eq_nil_iff.mp hNone
      intro symbol hMem
      rcases List.mem_cons.mp hMem with rfl | hMem
      · exact isNullable_of_rule hProper (Array.mem_of_getElem? hRule) (hInner hNoInner)
      · exact hRest hNoRest symbol hMem

/-- The first token of what a form stands for is known. -/
theorem Yields.begins (hProper : g.Proper) {form tokens : List SymbolId} {rules : List RuleId}
    (h : g.Yields form tokens rules) {first : SymbolId} (hFirst : tokens.head? = some first) :
    (g.firstSets.ofSequence form .empty).contains first = true := by
  induction h with
  | nil => simp at hFirst
  | @terminal symbol form _ _ hTerminal =>
      obtain rfl : symbol = first := by simpa using hFirst
      refine FirstSets.subset_ofSequence_cons symbol form _ symbol ?_
      have hLess : symbol < g.firstSets.terminalCount := by
        rw [g.firstSets_fixed.1.terminalCount]
        simpa [Grammar.isTerminal] using hTerminal
      rw [FirstSets.ofSymbol, if_pos hLess, IdSet.contains_singleton, decide_eq_true rfl]
  | @rule _ info form inner tokens _ _ hRule hInner _ hInnerFirst hRestFirst =>
      cases inner with
      | cons token inner =>
          have hSame : (token :: inner).head? = some first := by simpa using hFirst
          exact FirstSets.subset_ofSequence_cons _ _ _ _
            (subset_ofSymbol hProper (Array.mem_of_getElem? hRule) first (hInnerFirst hSame))
      | nil =>
          have hEmpty : g.firstSets.isNullable info.lhs = true := by
            rw [isNullable_firstSets]
            refine isNullable_of_rule hProper (Array.mem_of_getElem? hRule) fun symbol hMem => ?_
            rw [← isNullable_firstSets]
            exact hInner.isNullable hProper rfl symbol hMem
          rw [FirstSets.ofSequence, if_pos hEmpty]
          exact IdSet.subset_union_right _ _ first (hRestFirst (by simpa using hFirst))

/-- The first token behind some place, in what a form stands for there or after it. -/
theorem Yields.follows (hProper : g.Proper) {form tokens : List SymbolId} {rules : List RuleId}
    (h : g.Yields form tokens rules) {tail : IdSet} {behind : SymbolId}
    (hBehind : tail.contains behind = true) :
    (g.firstSets.ofSequence form tail).contains (tokens.headD behind) = true := by
  rw [FirstSets.contains_ofSequence]
  cases tokens with
  | nil => exact .inr ⟨h.isNullable hProper rfl, hBehind⟩
  | cons token tokens => exact .inl (h.begins hProper rfl)

end Grammar

namespace FirstSets

/-- The first sets hold no more than the second ones. -/
structure Below (f h : FirstSets) : Prop where
  terminalCount : f.terminalCount = h.terminalCount
  nullable : ∀ i, f.nullable.getD i false = true → h.nullable.getD i false = true
  nonterminals : ∀ i, (f.nonterminals.getD i .empty).Subset (h.nonterminals.getD i .empty)

theorem Below.ofSymbol {f h : FirstSets} (hBelow : f.Below h) (symbol : SymbolId) :
    (f.ofSymbol symbol).Subset (h.ofSymbol symbol) := by
  rw [FirstSets.ofSymbol, FirstSets.ofSymbol, hBelow.terminalCount]
  split
  · exact .refl _
  · exact hBelow.nonterminals _

theorem Below.ofSequence {f h : FirstSets} (hBelow : f.Below h) {tail more : IdSet}
    (hTail : tail.Subset more) (form : List SymbolId) :
    (f.ofSequence form tail).Subset (h.ofSequence form more) := by
  induction form with
  | nil => exact hTail
  | cons symbol form ih =>
      intro i hIn
      rw [FirstSets.ofSequence] at hIn ⊢
      have hFirst := hBelow.ofSymbol symbol i
      cases hEmpty : f.isNullable symbol with
      | true =>
          have hAlso : h.isNullable symbol = true := hBelow.nullable symbol hEmpty
          rw [if_pos hEmpty, IdSet.contains_union, Bool.or_eq_true] at hIn
          rw [if_pos hAlso, IdSet.contains_union, Bool.or_eq_true]
          exact hIn.imp hFirst (ih i)
      | false =>
          rw [if_neg (by simp [hEmpty])] at hIn
          split
          · rw [IdSet.contains_union, Bool.or_eq_true]
            exact .inl (hFirst hIn)
          · exact hFirst hIn

end FirstSets

namespace Grammar
variable {g : Grammar} {f : FirstSets}

/-- The sets are closed under the rules of a grammar. -/
structure Closes (g : Grammar) (f : FirstSets) : Prop where
  terminalCount : f.terminalCount = g.terminalCount
  nullable : ∀ info ∈ g.rules, (∀ symbol ∈ info.symbols, f.isNullable symbol = true) →
    f.isNullable info.lhs = true
  first : ∀ info ∈ g.rules, (f.ofSequence info.symbols .empty).Subset
    (f.nonterminals.getD (info.lhs - g.terminalCount) .empty)

/-- What the rules pass on from all symbols of a form to the left-hand side holds of every symbol that
may be empty. -/
theorem nullable_induction {Q : SymbolId → Prop}
    (hRule : ∀ info ∈ g.rules, (∀ symbol ∈ info.symbols, Q symbol) → Q info.lhs) :
    ∀ symbol, g.nullable.getD symbol false = true → Q symbol := by
  refine saturate_induction (P := fun marks : Array Bool =>
    ∀ symbol, marks.getD symbol false = true → Q symbol) (fun marks hMarks => ?_) _ _ ?_
  · rw [nullablePass_eq]
    refine List.foldlRecOn (motive := fun marks : Array Bool =>
      ∀ symbol, marks.getD symbol false = true → Q symbol) _ _ hMarks ?_
    intro marks hMarks info hMem symbol hMark
    unfold markStep at hMark
    split at hMark
    · rename_i hAll
      rw [Array.getD_eq_getD_getElem?, Array.getElem?_setIfInBounds] at hMark
      split at hMark
      · rename_i hHere
        have hLhs := hRule info (by simpa using hMem) fun other hOther =>
          hMarks other (List.all_eq_true.mp hAll other hOther)
        exact hHere ▸ hLhs
      · exact hMarks symbol (by rwa [Array.getD_eq_getD_getElem?])
    · exact hMarks symbol hMark
  · intro symbol hMark
    rw [Array.getD_eq_getD_getElem?, Array.getElem?_replicate] at hMark
    split at hMark <;> simp at hMark

theorem Closes.nullable_le (h : g.Closes f) :
    ∀ i, g.nullable.getD i false = true → f.nullable.getD i false = true :=
  nullable_induction h.nullable

/-- Sets that are closed under the rules hold the computed ones. -/
theorem Closes.firstSets_below (h : g.Closes f) : g.firstSets.Below f := by
  refine saturate_induction (P := fun sets : FirstSets => sets.Below f) (fun sets hSets => ?_) _ _ ?_
  · rw [firstPass_eq]
    refine List.foldlRecOn (motive := fun sets : FirstSets => sets.Below f) _ _ hSets ?_
    intro sets hSets info hMem
    refine ⟨hSets.terminalCount, hSets.nullable, fun i => ?_⟩
    rw [firstStep, IdSet.getD_modify_union]
    split
    · rename_i hHere
      intro j hIn
      rw [IdSet.contains_union, Bool.or_eq_true] at hIn
      rcases hIn with hIn | hIn
      · exact hSets.nonterminals i j hIn
      · have hFirst := h.first info (by simpa using hMem) j (hSets.ofSequence (.refl _) _ j hIn)
        rwa [← h.terminalCount, ← hSets.terminalCount, hHere.1] at hFirst
    · exact hSets.nonterminals i
  · refine ⟨h.terminalCount.symm, h.nullable_le, fun i j hIn => ?_⟩
    rw [Array.getD_eq_getD_getElem?, Array.getElem?_replicate] at hIn
    split at hIn <;> simp at hIn

end Grammar
end IncrementalParsing
