import IncrementalParsing.Proofs.Grammar.First

/-! The two analyses of a grammar as loops that need no limit. A round goes once over the rules and tells
whether it has changed anything, and the loop ends with the first round that has not. Rules whose left-hand
side is marked are passed over, and a symbol is not added to itself. -/
namespace IncrementalParsing

namespace Grammar
variable {g : Grammar}

/-- One round over the rules for the symbols that derive nothing. -/
def markRound (g : Grammar) (marks : Array Bool) : Array Bool × Bool :=
  g.rules.toList.foldl (fun (marks, changed) rule =>
    if marks.getD rule.lhs false then (marks, changed)
    else if rule.symbols.all (marks.getD · false) then (marks.setIfInBounds rule.lhs true, true)
    else (marks, changed)) (marks, false)

/-- Adds the set of a symbol to that of `lhs`, unless they are one and the same. -/
def addSet (lhs symbol : SymbolId) (found : Array IdSet × Bool) : Array IdSet × Bool :=
  if symbol = lhs then found
  else
    let old := found.1.getD lhs .empty
    let new := old.union (found.1.getD symbol .empty)
    (found.1.setIfInBounds lhs new, found.2 || decide (new ≠ old))

/-- Adds the sets of the symbols of a right-hand side, up to the first symbol that is not marked. -/
def addFirst (marks : Array Bool) (lhs : SymbolId) :
    List SymbolId → Array IdSet × Bool → Array IdSet × Bool
  | [], found => found
  | symbol :: rest, found =>
      if marks.getD symbol false then addFirst marks lhs rest (addSet lhs symbol found)
      else addSet lhs symbol found

/-- One round over the rules for the terminals that begin what a symbol derives. -/
def firstRound (g : Grammar) (marks : Array Bool) (sets : Array IdSet) : Array IdSet × Bool :=
  g.rules.toList.foldl (fun found rule => addFirst marks rule.lhs rule.symbols found) (sets, false)

/-- At the start every terminal begins itself. -/
def firstStart (g : Grammar) : Array IdSet :=
  (Array.range g.symbols.size).map fun symbol =>
    if g.isTerminal symbol then .singleton symbol else .empty

/-- Marking a marked symbol changes nothing. -/
theorem setIfInBounds_of_marked {marks : Array Bool} {place : Nat} (h : marks.getD place false = true) :
    marks.setIfInBounds place true = marks := by
  refine Array.ext (by simp) fun i _ hLess => ?_
  rw [Array.getElem_setIfInBounds]
  split
  · rename_i hHere
    subst hHere
    simpa [hLess] using h.symm
  · rfl

/-- A round marks what a pass marks. -/
theorem markRound_spec (hProper : g.Proper) {marks : Array Bool} (hSize : marks.size = g.symbols.size) :
    (g.markRound marks).1 = g.nullablePass marks
      ∧ ((g.markRound marks).2 = true ↔ g.nullablePass marks ≠ marks) := by
  rw [nullablePass_eq]
  refine (Climbs.foldl_reports (R := Eq) (climbs_markStep g.symbols.size) ?_ false hSize rfl).imp_right
    (·.trans (by simp))
  rintro rule hMem _ marks changed hSize rfl
  have hLhs : rule.lhs < marks.size := hSize ▸ (hProper.lhs rule (by simpa using hMem)).2
  unfold markStep
  dsimp only
  cases hMark : marks.getD rule.lhs false with
  | true => simp [setIfInBounds_of_marked hMark]
  | false =>
      rw [if_neg Bool.false_ne_true]
      split
      · have hNew : marks.setIfInBounds rule.lhs true ≠ marks := by
          intro hSame
          rw [← hSame] at hMark
          simp [hLhs] at hMark
        simp [hNew]
      · simp

/-- Marking ends. -/
theorem loop_nullable (hProper : g.Proper) :
    Loop g.markRound (Array.replicate g.symbols.size false) g.nullable := by
  have hRound : ∀ marks found : Array Bool, marks.size = g.symbols.size → found = marks →
      (g.markRound found).1 = g.nullablePass marks
        ∧ ((g.markRound found).2 = true ↔ g.nullablePass marks ≠ marks) := by
    rintro marks _ hSize rfl
    exact markRound_spec hProper hSize
  obtain ⟨_, hLoop, rfl⟩ := climbs_nullablePass.loop (fun marks hSize => hSize ▸ Array.count_le_size)
    hRound Array.size_replicate rfl (Nat.lt_of_lt_of_le (Nat.lt_succ_self _) (Nat.le_add_right _ _))
  exact hLoop

theorem getD_setIfInBounds {sets : Array IdSet} {place : Nat} (hPlace : place < sets.size) (new : IdSet)
    (i : Nat) : (sets.setIfInBounds place new).getD i .empty
      = if i = place then new else sets.getD i .empty := by
  rw [Array.getD_eq_getD_getElem?, Array.getElem?_setIfInBounds]
  by_cases hHere : place = i
  · simp [← hHere, hPlace]
  · rw [if_neg hHere, if_neg (Ne.symm hHere), Array.getD_eq_getD_getElem?]

/-- Members are added to the set of one symbol, and it is reported if they are new. -/
structure Adds (lhs : SymbolId) (more : IdSet) (before after : Array IdSet × Bool) : Prop where
  size : after.1.size = before.1.size
  set : ∀ i, after.1.getD i .empty =
    if i = lhs then (before.1.getD i .empty).union more else before.1.getD i .empty
  report : after.2 = true ↔ before.2 = true ∨ ¬more.Subset (before.1.getD lhs .empty)

section
variable {lhs : SymbolId} {more others : IdSet} {a b c : Array IdSet × Bool}

/-- Members that are there already need not be added. -/
theorem adds_of_subset (h : more.Subset (a.1.getD lhs .empty)) : Adds lhs more a a where
  size := rfl
  set i := by
    split
    · rename_i hHere
      rw [hHere, IdSet.union_eq_left h]
    · rfl
  report := ⟨.inl, fun hOr => hOr.resolve_right (not_not_intro h)⟩

theorem Adds.trans (hFirst : Adds lhs more a b) (hSecond : Adds lhs others b c) :
    Adds lhs (more.union others) a c where
  size := hSecond.size.trans hFirst.size
  set i := by
    rw [hSecond.set, hFirst.set]
    split
    · rw [IdSet.union_assoc]
    · rfl
  report := by
    have hSubset : (more.union others).Subset (a.1.getD lhs .empty) ↔
        more.Subset (a.1.getD lhs .empty) ∧ others.Subset (a.1.getD lhs .empty) := by
      simp [IdSet.Subset, or_imp, forall_and]
    rw [hSecond.report, hFirst.report, hFirst.set, if_pos rfl, hSubset, or_assoc]
    refine or_congr_right ?_
    by_cases hMore : more.Subset (a.1.getD lhs .empty)
    · simp only [IdSet.union_eq_left hMore, hMore, not_true_eq_false, false_or, true_and]
    · simp only [hMore, not_false_eq_true, true_or, false_and]

theorem adds_addSet (hLhs : lhs < a.1.size) {symbol : SymbolId}
    (hSymbol : symbol ≠ lhs → a.1.getD symbol .empty = more)
    (hSelf : symbol = lhs → more.Subset (a.1.getD lhs .empty)) :
    Adds lhs more a (addSet lhs symbol a) := by
  by_cases hHere : symbol = lhs
  · rw [addSet, if_pos hHere]
    exact adds_of_subset (hSelf hHere)
  · rw [addSet, if_neg hHere, hSymbol hHere]
    generalize hOld : a.1.getD lhs .empty = old
    refine ⟨Array.size_setIfInBounds, fun i => ?_, ?_⟩
    · dsimp only
      rw [getD_setIfInBounds hLhs]
      split
      · rename_i hPlace
        rw [hPlace, hOld]
      · rfl
    · rw [hOld]
      exact (Bool.or_eq_true _ _).to_iff.trans (or_congr_right (decide_eq_true_iff.trans IdSet.union_ne_iff))

/-- One rule adds to its left-hand side what its right-hand side begins with. -/
theorem adds_addFirst {f : FirstSets} (form : List SymbolId) (hLhs : lhs < a.1.size)
    (hSelf : (f.ofSymbol lhs).Subset (a.1.getD lhs .empty))
    (hSets : ∀ symbol ∈ form, symbol ≠ lhs → a.1.getD symbol .empty = f.ofSymbol symbol) :
    Adds lhs (f.ofSequence form .empty) a (addFirst f.nullable lhs form a) := by
  induction form generalizing a with
  | nil => exact adds_of_subset (by simp [FirstSets.ofSequence, IdSet.Subset])
  | cons symbol form ih =>
      have hFirst : Adds lhs (f.ofSymbol symbol) a (addSet lhs symbol a) :=
        adds_addSet hLhs (hSets symbol (by simp)) fun hHere => hHere ▸ hSelf
      rw [addFirst, FirstSets.ofSequence, FirstSets.isNullable]
      split
      · refine hFirst.trans (ih (hFirst.size ▸ hLhs) ?_ fun other hMem hOther => ?_)
        · rw [hFirst.set, if_pos rfl]
          exact hSelf.trans (IdSet.subset_union_left _ _)
        · rw [hFirst.set, if_neg hOther]
          exact hSets other (List.mem_cons_of_mem _ hMem) hOther
      · exact hFirst

end

/-- The sets of all symbols, terminals and nonterminals, in one array. -/
structure Lists (g : Grammar) (sets : Array IdSet) (f : FirstSets) : Prop where
  size : sets.size = g.symbols.size
  set : ∀ symbol < g.symbols.size, sets.getD symbol .empty = f.ofSymbol symbol

/-- A step changes nothing if there is nothing to add. -/
theorem Growing.firstStep_ne_iff {f : FirstSets} (hGrowing : g.Growing f) (hProper : g.Proper)
    {info : Rule} (hMem : info ∈ g.rules) :
    firstStep f info ≠ f ↔ ¬(f.ofSequence info.symbols .empty).Subset (f.ofSymbol info.lhs) := by
  refine ⟨fun hOther hSubset => hOther ?_, fun hNew hSame => IdSet.union_ne_iff.mpr hNew ?_⟩
  · obtain ⟨hFirst, -⟩ := hProper.lhs info hMem
    rw [FirstSets.ofSymbol, hGrowing.terminalCount, if_neg (Nat.not_lt.mpr hFirst)] at hSubset
    have hSets : f.nonterminals.modify (info.lhs - f.terminalCount)
        (·.union (f.ofSequence info.symbols .empty)) = f.nonterminals := by
      refine Array.ext (Array.size_modify ..) fun i _ hLess => ?_
      rw [Array.getElem_modify]
      split
      · rename_i hHere
        refine IdSet.union_eq_left ?_
        rw [hGrowing.terminalCount] at hHere
        simpa [hHere, hLess] using hSubset
      · rfl
    rw [firstStep, hSets]
  · have hLhs := hGrowing.ofSymbol_firstStep hProper hMem info.lhs
    rw [hSame, if_pos rfl] at hLhs
    exact hLhs.symm

/-- A rule adds the same in the one form as in the other. -/
theorem Lists.step {sets : Array IdSet} {f : FirstSets} (hProper : g.Proper) (hGrowing : g.Growing f)
    (h : g.Lists sets f) {info : Rule} (hMem : info ∈ g.rules) (changed : Bool) :
    g.Lists (addFirst g.nullable info.lhs info.symbols (sets, changed)).1 (firstStep f info)
      ∧ ((addFirst g.nullable info.lhs info.symbols (sets, changed)).2 = true ↔
        changed = true ∨ firstStep f info ≠ f) := by
  have hLast := (hProper.lhs info hMem).2
  have hAdds := adds_addFirst (f := f) (a := (sets, changed)) info.symbols (h.size ▸ hLast)
    (h.set info.lhs hLast ▸ .refl _) fun symbol hSymbol _ =>
      h.set symbol (hProper.symbol info hMem symbol hSymbol).1
  rw [hGrowing.nullable] at hAdds
  refine ⟨⟨hAdds.size.trans h.size, fun symbol hSymbol => ?_⟩, ?_⟩
  · rw [hAdds.set, hGrowing.ofSymbol_firstStep hProper hMem, h.set symbol hSymbol]
  · rw [hAdds.report, hGrowing.firstStep_ne_iff hProper hMem, h.set info.lhs hLast]

theorem lists_start :
    g.Lists g.firstStart ⟨g.terminalCount, g.nullable, .replicate g.nonterminalCount .empty⟩ where
  size := by simp [firstStart]
  set symbol hSymbol := by
    have hHere : g.firstStart.getD symbol .empty
        = if symbol < g.terminalCount then .singleton symbol else .empty := by
      simp [firstStart, hSymbol, isTerminal]
    rw [hHere, FirstSets.ofSymbol]
    refine if_congr Iff.rfl rfl ?_
    rw [Array.getD_eq_getD_getElem?, Array.getElem?_replicate]
    split <;> rfl

/-- Adding ends. -/
theorem exists_loop_firstSets (hProper : g.Proper) :
    ∃ sets, Loop (g.firstRound g.nullable) g.firstStart sets ∧ g.Lists sets g.firstSets := by
  refine climbs_firstPass.loop (R := g.Lists) (fun _ => Growing.weight_le) ?_ growing_start lists_start
    (Nat.lt_of_lt_of_le (Nat.lt_succ_self _) (Nat.le_add_right _ _))
  intro f sets hGrowing hLists
  rw [firstPass_eq]
  refine (Climbs.foldl_reports (R := g.Lists) climbs_firstStep ?_ false hGrowing hLists).imp_right
    (·.trans (by simp))
  intro info hMem f sets changed hGrowing hLists
  exact hLists.step hProper hGrowing (by simpa using hMem) changed

end Grammar
end IncrementalParsing
