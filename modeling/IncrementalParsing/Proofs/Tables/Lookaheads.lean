import IncrementalParsing.Proofs.Automaton.Canonical
import IncrementalParsing.Proofs.Labels.Language

/-! The lookahead of the table construction is exact. A complete item is reduced in front of the terminals
that stand behind it in some state of the canonical automaton with the same items, and of no others. -/
namespace IncrementalParsing
namespace Canonical
variable {g : Grammar} {m : Automaton}

/-- The number of a kernel item of a state to which a path leads, with something that stands behind the
item in the canonical automaton behind the symbols of the path. -/
inductive Located (g : Grammar) (m : Automaton) : (place : Nat) → SymbolId → Prop
  | intro {steps : List (SymbolId × StateId)} {kernel : Kernel} {slot : Nat} {k : Item}
      {behind : SymbolId} (hPath : m.Path steps)
      (hKernel : m.kernels[Automaton.endOf steps]? = some kernel) (hItem : kernel[slot]? = some k)
      (hAfter : after g (steps.map (·.1)) k behind) :
      Located g m (m.offsets.getD (Automaton.endOf steps) 0 + slot) behind

/-- The item that an item becomes behind its next symbol is located there. -/
theorem located_target {steps : List (SymbolId × StateId)} (hPath : m.Path steps) {item : Item}
    {behind : SymbolId} (hAfter : after g (steps.map (·.1)) item behind) {target : Nat}
    (hPlace : m.place (.ofGrammar g) (Automaton.endOf steps) item = some target) :
    Located g m target behind := by
  obtain ⟨symbol, next, slot, kernel, hNext, hMove, hKernel, hItem, rfl⟩ :=
    Automaton.target_of_place hPlace
  exact @Located.intro g m ((symbol, next) :: steps) kernel slot _ behind (hPath.cons hMove) hKernel hItem
    (.kernel ⟨item, hAfter, hNext, rfl⟩)

section
variable (hStates : Automaton.ofGrammar (.ofGrammar g) = .ok m) (hProper : g.Proper)
  (hProductive : g.Productive)
include hStates hProper hProductive

/-- A path leads to every item that holds somewhere, and something stands behind the item there. -/
theorem exists_after {state : StateId} {item : Item} (hHolds : m.Holds (.ofGrammar g) state item) :
    ∃ steps behind, m.Path steps ∧ Automaton.endOf steps = state
      ∧ after g (steps.map (·.1)) item behind := by
  obtain ⟨steps, hPath, rfl⟩ := Automaton.exists_path_to hStates hHolds.lt
  obtain ⟨behind, hBehind⟩ := (core_after hStates hProper hProductive hPath).mpr hHolds
  exact ⟨steps, behind, hPath, rfl, hBehind⟩

/-- What arises in the closure of a kernel item stands behind the items there in the canonical
automaton. -/
theorem exists_after_of_follower {state slot : Nat} {kernel : Kernel}
    (hKernel : m.kernels[state]? = some kernel) {k item : Item} (hItem : kernel[slot]? = some k) {i : Nat}
    (hLess : i < g.terminalCount)
    (hFollower : Augmented.Follower g [(k, .singleton g.terminalCount)] item i) :
    ∃ steps, m.Path steps ∧ Automaton.endOf steps = state ∧ after g (steps.map (·.1)) item i := by
  have hHolds : m.Holds (.ofGrammar g) state k := by
    refine .kernel ?_
    rw [Automaton.getD_kernels hKernel]
    exact List.mem_of_getElem? hItem
  obtain ⟨steps, behind, hPath, hEnd, hAfter⟩ := exists_after hStates hProper hProductive hHolds
  rcases after_of_follower hProper hProductive hAfter hFollower with ⟨-, hBehind⟩ | ⟨hMark, -⟩
  · exact ⟨steps, hPath, hEnd, hBehind⟩
  · exact absurd hMark (Nat.ne_of_lt hLess)

omit hStates in
/-- What stands behind a kernel item stands behind the items that have the mark in its closure. -/
theorem exists_after_of_mark {state slot : Nat} {kernel : Kernel}
    (hKernel : m.kernels[state]? = some kernel) {k item : Item} (hItem : kernel[slot]? = some k) {i : Nat}
    (hFollower : Augmented.Follower g [(k, .singleton g.terminalCount)] item g.terminalCount)
    (hLocated : Located g m (m.offsets.getD state 0 + slot) i) :
    ∃ steps, m.Path steps ∧ Automaton.endOf steps = state ∧ after g (steps.map (·.1)) item i := by
  generalize hPlace : m.offsets.getD state 0 + slot = place at hLocated
  obtain ⟨hPath, hOther, hAnother, hAfter⟩ := hLocated
  obtain ⟨rfl, rfl⟩ := Automaton.place_inj hKernel (List.getElem?_eq_some_iff.mp hItem).1 hOther
    (List.getElem?_eq_some_iff.mp hAnother).1 hPlace
  obtain rfl := Option.some.inj (hKernel.symm.trans hOther)
  obtain rfl := Option.some.inj (hItem.symm.trans hAnother)
  rcases after_of_follower hProper hProductive hAfter hFollower with ⟨hLess, -⟩ | ⟨-, hBehind⟩
  · exact absurd hLess (Nat.lt_irrefl _)
  · exact ⟨_, hPath, rfl, hBehind⟩

/-- All members of the final sets stand behind their items in the canonical automaton. -/
theorem sustains_located : m.Sustains (.ofGrammar g) (Located g m) where
  start := by
    have h := Automaton.explored_ofGrammar hStates
    have hOffset : m.offsets.getD 0 0 = 0 := by
      rw [Automaton.getD_offsets (Array.getElem?_eq_some_iff.mp h.initial).1]
      rfl
    have hLocated : Located g m (m.offsets.getD 0 0 + 0) endSymbol :=
      @Located.intro g m [] _ 0 _ endSymbol .nil h.initial rfl
        (.kernel ⟨by rw [Augmented.startRule_ofGrammar], rfl⟩)
    rwa [hOffset] at hLocated
  arises := by
    rintro _ _ _ ⟨hKernel, hItem, hEntry, hPlace⟩ i hLess hIn
    obtain ⟨steps, hPath, rfl, hAfter⟩ := exists_after_of_follower hStates hProper hProductive hKernel
      hItem hLess (Augmented.follower_of_mem hEntry hIn)
    exact located_target hPath hAfter hPlace
  passes := by
    rintro _ _ _ ⟨hKernel, hItem, hEntry, hPlace⟩ hMark i hLocated
    obtain ⟨steps, hPath, rfl, hAfter⟩ := exists_after_of_mark hProper hProductive hKernel
      hItem (Augmented.follower_of_mem hEntry hMark) hLocated
    exact located_target hPath hAfter hPlace

/-- What is expected behind an item stands behind it in the canonical automaton, behind the symbols of
some path to its state. -/
theorem exists_after_of_expects {state : StateId} {item : Item} {terminal : SymbolId}
    (h : m.Expects g state item terminal) :
    ∃ steps, m.Path steps ∧ Automaton.endOf steps = state
      ∧ after g (steps.map (·.1)) item terminal := by
  obtain ⟨slot, k, hSlot, ⟨hLess, hFollower⟩ | ⟨hFollower, hOwn⟩⟩ := h.from_one
  · exact exists_after_of_follower hStates hProper hProductive (Automaton.getElem?_of_getD hSlot) hSlot
      hLess hFollower
  · refine exists_after_of_mark hProper hProductive (Automaton.getElem?_of_getD hSlot) hSlot
      hFollower ?_
    exact (sustains_located hStates hProper hProductive).lookaheads _ _ hOwn

/-- What is expected behind an item is what stands behind it in the states of the canonical automaton
with the items of its state. -/
theorem expects_iff {state : StateId} {item : Item} {terminal : SymbolId}
    (hHolds : m.Holds (.ofGrammar g) state item) :
    m.Expects g state item terminal ↔ ∃ I, Reachable g I
      ∧ (∀ other, core I other ↔ m.Holds (.ofGrammar g) state other) ∧ I item terminal := by
  constructor
  · intro hExpects
    obtain ⟨steps, hPath, rfl, hAfter⟩ := exists_after_of_expects hStates hProper hProductive hExpects
    exact ⟨_, reachable_after hStates hProper hProductive hPath,
      fun other => core_after hStates hProper hProductive hPath, hAfter⟩
  · rintro ⟨I, hReachable, hCore, hItem⟩
    obtain ⟨steps, hPath, rfl⟩ := hReachable.exists_path hStates hProper hProductive
    have h := Automaton.explored_ofGrammar hStates
    obtain rfl := h.eq_of_holds (hPath.endOf_lt h) hHolds.lt fun other =>
      (core_after hStates hProper hProductive hPath).symm.trans (hCore other)
    exact (viable_of_after hStates hProper hPath hItem).expects

end

/-- The closure of a state has every item once. -/
theorem set_unique (hStates : Automaton.ofGrammar (.ofGrammar g) = .ok m) (hProper : g.Proper)
    {state : StateId} {item : Item} {set other : IdSet}
    (hSet : (item, set) ∈ (Augmented.ofGrammar g).closureWithLookahead
      (m.stateItems m.offsets (m.lookaheads (.ofGrammar g)) state))
    (hOther : (item, other) ∈ (Augmented.ofGrammar g).closureWithLookahead
      (m.stateItems m.offsets (m.lookaheads (.ofGrammar g)) state)) : set = other := by
  obtain ⟨t, hItems, -, -, hBounded, -⟩ := Augmented.closureWithLookahead_spec
    ((Automaton.explored_ofGrammar hStates).nodup_stateItems _ _ state)
    fun entry hMem => (Automaton.within_stateItems hProper _ state entry hMem).mono (Nat.le_succ _)
  rw [← hItems] at hSet hOther
  have hSame := List.inj_on_of_nodup_map hBounded.distinct (Array.mem_toList_iff.mpr hSet)
    (Array.mem_toList_iff.mpr hOther) rfl
  exact (Prod.mk.inj hSame).2

end Canonical

/-- Lookahead sets are exact. If every symbol of a grammar stands for something, then every complete item
that holds in a state is entered into the tables with one set, which has the terminals that stand behind
the item in the states of the canonical automaton with the items of the state. -/
theorem lookaheads_exact {b : GrammarDraft} (hDescribed : b.Described) {g : Grammar}
    (hBuild : b.build = .ok g) (hProductive : g.Productive) {m : Automaton}
    (hStates : Automaton.ofGrammar (.ofGrammar g) = .ok m) {state : StateId} {item : Item}
    (hHolds : m.Holds (.ofGrammar g) state item)
    (hComplete : (Augmented.ofGrammar g).next? item = none) :
    ∃ set, (∀ found, (item, found) ∈ m.completions (.ofGrammar g) m.offsets
        (m.lookaheads (.ofGrammar g)) state ↔ found = set)
      ∧ ∀ terminal, set.contains terminal = true ↔ ∃ I, Canonical.Reachable g I
        ∧ (∀ other, Canonical.core I other ↔ m.Holds (.ofGrammar g) state other)
        ∧ I item terminal := by
  have hProper := hDescribed.proper hBuild
  have hExplored := Automaton.explored_ofGrammar hStates
  have hEntered : ∀ found, (item, found) ∈ m.completions (.ofGrammar g) m.offsets
      (m.lookaheads (.ofGrammar g)) state ↔ (item, found) ∈ (Augmented.ofGrammar g).closureWithLookahead
        (m.stateItems m.offsets (m.lookaheads (.ofGrammar g)) state) := by
    intro found
    simp [Automaton.completions, Augmented.isComplete, hComplete]
  have hExact := fun terminal =>
    @Canonical.expects_iff g m hStates hProper hProductive state item terminal hHolds
  obtain ⟨steps, behind, hPath, rfl, hAfter⟩ := Canonical.exists_after hStates hProper hProductive hHolds
  obtain ⟨set, hSet, -⟩ :=
    (Canonical.viable_of_after hStates hProper hPath hAfter).expects.found hExplored hProper
  refine ⟨set, fun found => ⟨fun hFound => ?_, ?_⟩, fun terminal => ⟨fun hIn => ?_, fun hIn => ?_⟩⟩
  · exact Canonical.set_unique hStates hProper ((hEntered found).mp hFound) hSet
  · rintro rfl
    exact (hEntered found).mpr hSet
  · exact (hExact terminal).mp (Augmented.follower_of_mem hSet hIn)
  · obtain ⟨other, hOther, hContains⟩ := ((hExact terminal).mpr hIn).found hExplored hProper
    exact Canonical.set_unique hStates hProper hOther hSet ▸ hContains

namespace Labels

/-- How many rules there are at least between a symbol and its tokens. -/
def height (symbol : SymbolId) : Nat := [0, 0, 0, 0, 0, 0, 4, 3, 2, 1].getD symbol 0

theorem productive_grammar : grammar.Productive := by
  obtain ⟨b, hDescribed, hBuild⟩ := plain_grammar.described
  refine @Grammar.productive_of_height _ height (hDescribed.proper hBuild) ?_
  have hRules : ∀ symbol < grammar.symbols.size, grammar.isTerminal symbol = false →
      ∃ info ∈ grammar.rules.toList, info.lhs = symbol ∧ ∀ other ∈ info.symbols,
        grammar.isTerminal other = true ∨ height other < height symbol := by
    decide +kernel
  simpa using hRules

/-- A letter is a label in front of a number, and nowhere else. -/
theorem lookaheads_exact_of_letter : ∃ m, grammar.Productive
    ∧ Automaton.ofGrammar (.ofGrammar grammar) = .ok m ∧ m.Holds (.ofGrammar grammar) 1 ⟨5, 1⟩
    ∧ ∀ terminal, (∃ I, Canonical.Reachable grammar I
        ∧ (∀ other, Canonical.core I other ↔ m.Holds (.ofGrammar grammar) 1 other)
        ∧ I ⟨5, 1⟩ terminal) ↔ terminal = number := by
  obtain ⟨b, hDescribed, hBuild⟩ := plain_grammar.described
  have hRules : ∀ info ∈ grammar.rules, info.lhs < grammar.symbols.size := by decide +kernel
  obtain ⟨⟨kernels, numbers, transitions⟩, hStates, hKernels, hTransitions⟩ :=
    Automaton.exists_ofGrammar hRules ofGrammar_states
  obtain rfl : kernels = states.kernels.reverse.toArray := Array.toList_inj.mp hKernels
  obtain rfl : transitions = states.rows.reverse.toArray := Array.toList_inj.mp hTransitions
  have hFound : (⟨5, 1⟩, .singleton number) ∈ states.toAutomaton.completions (.ofGrammar grammar)
      states.toAutomaton.offsets (states.toAutomaton.lookaheads (.ofGrammar grammar)) 1 := by
    decide +kernel
  have hHolds : states.toAutomaton.Holds (.ofGrammar grammar) 1 ⟨5, 1⟩ :=
    (Automaton.completions_sound hFound).2
  have hComplete : (Augmented.ofGrammar grammar).next? ⟨5, 1⟩ = none := by decide +kernel
  obtain ⟨set, hSet, hExact⟩ :=
    lookaheads_exact hDescribed hBuild productive_grammar hStates hHolds hComplete
  obtain rfl := (hSet _).mp hFound
  refine ⟨_, productive_grammar, hStates, hHolds, fun terminal => (hExact terminal).symm.trans ?_⟩
  simp [eq_comm]

end Labels
end IncrementalParsing
