import IncrementalParsing.Proofs.Automaton.Following
import IncrementalParsing.Proofs.Grammar.Awaiting
import IncrementalParsing.Proofs.Tables.Contests

/-! The lookahead sets are not too large. Whatever a closure puts into a set follows the item there,
the final sets have only what arises in closures and is passed on from there, and that stays within the
terminals that follow the left-hand side of their rule. -/
namespace IncrementalParsing

/-- What may stand behind a rule. Only the end of the input stands behind the added one. -/
def Grammar.behind (g : Grammar) (follow : SymbolId → IdSet) (rule : RuleId) : IdSet :=
  match g.rules[rule]? with
  | some info => follow info.lhs
  | none => .singleton endSymbol

namespace Augmented
variable {g : Grammar}

namespace Spread

/-- The items belong to the closure, and every member of their sets follows them. -/
def Founded (g : Grammar) (seed : List LookaheadItem) (s : Spread) : Prop :=
  ∀ entry ∈ s.items, (ofGrammar g).Closure (seed.map (·.1)) entry.1
    ∧ ∀ i, entry.2.contains i = true → Follower g seed entry.1 i

variable {seed : List LookaheadItem} {s : Spread}

theorem Founded.add (h : s.Founded g seed) {item : Item} {follow : IdSet}
    (hItem : (ofGrammar g).Closure (seed.map (·.1)) item)
    (hFollow : ∀ i, follow.contains i = true → Follower g seed item i) :
    (s.add item follow).Founded g seed := by
  unfold Spread.add
  split
  · rename_i place hPlace
    obtain ⟨hLess, hSame, -⟩ := Array.findIdx?_eq_some_iff_getElem.mp hPlace
    have hOld := h s.items[place] (Array.getElem_mem hLess)
    rw [beq_iff_eq.mp hSame] at hOld
    have hGet : s.items.getD place (item, .empty) = s.items[place] := by
      simp [Array.getD_eq_getD_getElem?, hLess]
    dsimp only
    rw [hGet]
    split
    · exact h
    · intro entry hMem
      rcases Array.mem_or_eq_of_mem_setIfInBounds hMem with hMem | rfl
      · exact h entry hMem
      · refine ⟨hItem, fun i hIn => ?_⟩
        rw [IdSet.contains_union, Bool.or_eq_true] at hIn
        exact hIn.elim (hOld.2 i) (hFollow i)
  · intro entry hMem
    rcases Array.mem_push.mp hMem with hMem | rfl
    · exact h entry hMem
    · exact ⟨hItem, hFollow⟩

theorem Founded.visit (h : s.Founded g seed) (place : Nat) :
    (Spread.visit (ofGrammar g) s place).Founded g seed := by
  unfold Spread.visit
  split
  · exact h
  · rename_i item set hPlace
    split
    · exact h
    · rename_i symbol hNext
      split
      · exact h
      · rename_i hSymbol
        obtain ⟨hItem, hSet⟩ := h (item, set) (Array.mem_of_getElem? hPlace)
        have hNonterminal : (ofGrammar g).isTerminal symbol = false := by simpa using hSymbol
        refine List.foldlRecOn (motive := fun s : Spread => s.Founded g seed) _ _ h ?_
        intro t hFounded expansion hExpansion
        refine hFounded.add (.expand hItem hNext hNonterminal hExpansion) fun i hIn => ?_
        rcases FirstSets.contains_ofSequence.mp hIn with hFirst | ⟨hEmpty, hBehind⟩
        · exact .begins hItem hNext hNonterminal hExpansion hFirst
        · exact .passes (hSet i hBehind) hNext hNonterminal hExpansion hEmpty

end Spread

/-- What a closure puts into the set of an item follows the item. -/
theorem follower_of_mem {seed : List LookaheadItem} {entry : LookaheadItem}
    (hMem : entry ∈ (ofGrammar g).closureWithLookahead seed) {i : Nat}
    (hIn : entry.2.contains i = true) : Follower g seed entry.1 i := by
  have hRun : ∀ (limit : Nat) (s : Spread), s.Founded g seed →
      ∀ entry ∈ Spread.run (ofGrammar g) limit s, ∀ i, entry.2.contains i = true →
        Follower g seed entry.1 i := by
    intro limit
    induction limit with
    | zero => exact fun s h entry hMem => (h entry hMem).2
    | succ limit ih =>
        intro s h
        rw [Spread.run]
        split
        · exact fun entry hMem => (h entry hMem).2
        · rename_i place work hWork
          have hSame : Spread.Founded g seed { s with work } := h
          exact ih _ (hSame.visit place)
  refine hRun _ _ (fun other hSeed => ?_) entry hMem i hIn
  have hOther : other ∈ seed := by simpa using hSeed
  exact ⟨.kernel (List.mem_map_of_mem hOther), fun i hSet => .seed hOther hSet⟩

section Behind
variable {follow : SymbolId → IdSet}

/-- What stands behind a beginning of a rule may stand behind the rule. -/
theorem subset_behind (hFollow : g.Following follow) {item expansion : Item} {symbol : SymbolId}
    (hNext : (ofGrammar g).next? item = some symbol)
    (hExpansion : expansion ∈ (ofGrammar g).expansions symbol) :
    (g.firstSets.ofSequence ((ofGrammar g).rest item) (g.behind follow item.rule)).Subset
      (g.behind follow expansion.rule) := by
  obtain ⟨-, -, info, hRule, rfl⟩ := mem_expansions.mp hExpansion
  have hHere : g.behind follow expansion.rule = follow info.lhs := by rw [Grammar.behind, hRule]
  rw [hHere]
  rcases next?_eq_some hNext with ⟨source, hSource, hSymbol⟩ | ⟨hAdded, hDot, hStart⟩
  · have hRest : (ofGrammar g).rest item = source.symbols.drop (item.dot + 1) := by
      rw [rest, symbolsOf_rule hSource, Array.toList_extract]
      simp
    obtain ⟨hLess, hGet⟩ := List.getElem?_eq_some_iff.mp hSymbol
    have hSymbols : source.symbols
        = source.symbols.take item.dot ++ info.lhs :: source.symbols.drop (item.dot + 1) := by
      rw [← hGet, List.getElem_cons_drop, List.take_append_drop]
    rw [hRest, Grammar.behind, hSource]
    exact hFollow.rule source (Array.mem_of_getElem? hSource) _ _ _ hSymbols
  · have hRest : (ofGrammar g).rest item = [] := by
      rw [rest, hAdded, symbolsOf_startRule, hDot]
      rfl
    have hNone : g.rules[item.rule]? = none := by rw [hAdded]; simp
    rw [hRest, Grammar.behind, hNone, hStart]
    intro i hIn
    obtain rfl : endSymbol = i := by simpa [FirstSets.ofSequence] using hIn
    exact hFollow.start

/-- What follows an item may stand behind its rule, if that is so in the beginning. -/
theorem Follower.behind (hFollow : g.Following follow) {seed : List LookaheadItem}
    (hSeed : ∀ entry ∈ seed, entry.2.Subset (g.behind follow entry.1.rule)) {item : Item} {i : Nat}
    (h : Follower g seed item i) : (g.behind follow item.rule).contains i = true := by
  induction h with
  | seed hMem hSet => exact hSeed _ hMem _ hSet
  | begins _ hNext _ hExpansion hFirst =>
      exact subset_behind hFollow hNext hExpansion _ (FirstSets.contains_ofSequence.mpr (.inl hFirst))
  | passes _ hNext _ hExpansion hEmpty ih =>
      exact subset_behind hFollow hNext hExpansion _
        (FirstSets.contains_ofSequence.mpr (.inr ⟨hEmpty, ih⟩))

/-- In the closure of one item with a mark, the mark comes only where everything that may stand behind
the item may stand. -/
theorem Follower.behind_of_mark (hFollow : g.Following follow) {k item : Item} {i : Nat}
    (h : Follower g [(k, .singleton g.terminalCount)] item i) :
    (i < g.terminalCount ∧ (g.behind follow item.rule).contains i = true)
      ∨ (i = g.terminalCount ∧ (g.behind follow k.rule).Subset (g.behind follow item.rule)) := by
  have hGrowing := g.firstSets_fixed.1
  induction h with
  | seed hMem hSet =>
      obtain rfl := List.mem_singleton.mp hMem
      exact .inr ⟨by simpa using Eq.symm (of_decide_eq_true (by simpa using hSet)), .refl _⟩
  | begins _ hNext _ hExpansion hFirst =>
      have hWithin := FirstSets.within_ofSequence (Nat.le_of_eq hGrowing.terminalCount)
        hGrowing.within (IdSet.within_empty _) _ _ hFirst
      exact .inl ⟨hWithin, subset_behind hFollow hNext hExpansion _
        (FirstSets.contains_ofSequence.mpr (.inl hFirst))⟩
  | passes _ hNext _ hExpansion hEmpty ih =>
      have hPasses := fun j hIn => subset_behind hFollow hNext hExpansion j
        (FirstSets.contains_ofSequence.mpr (.inr ⟨hEmpty, hIn⟩))
      rcases ih with ⟨hLess, hIn⟩ | ⟨hMark, hSubset⟩
      · exact .inl ⟨hLess, hPasses _ hIn⟩
      · exact .inr ⟨hMark, hSubset.trans hPasses⟩

end Behind
end Augmented

namespace Automaton
variable {g : Grammar} {m : Automaton}

/-- All kernel items, in the order of their numbers. -/
def items (m : Automaton) : List Item := m.kernels.toList.flatten

theorem countItems_eq (n : Nat) (kernels : List Kernel) :
    countItems n kernels = n + kernels.flatten.length := by
  induction kernels generalizing n with
  | nil => rfl
  | cons kernel kernels ih =>
      rw [countItems, List.foldl_cons, ← countItems, ih, List.flatten_cons, List.length_append,
        Nat.add_assoc]

/-- The item of a number. -/
theorem getElem?_items {state slot : Nat} {kernel : Kernel} (hKernel : m.kernels[state]? = some kernel)
    {item : Item} (hItem : kernel[slot]? = some item) :
    m.items[m.offsets.getD state 0 + slot]? = some item := by
  have hState : state < m.kernels.size := (Array.getElem?_eq_some_iff.mp hKernel).1
  have hSplit : m.kernels.toList
      = m.kernels.toList.take state ++ kernel :: m.kernels.toList.drop (state + 1) := by
    obtain ⟨hLess, rfl⟩ := List.getElem?_eq_some_iff.mp (Array.getElem?_toList ▸ hKernel)
    rw [List.getElem_cons_drop, List.take_append_drop]
  rw [getD_offsets hState, countItems_eq, Nat.zero_add, items, hSplit, List.flatten_append,
    List.take_left' (by simp [Nat.le_of_lt hState]),
    List.getElem?_append_right (Nat.le_add_right _ _), Nat.add_sub_cancel_left, List.flatten_cons,
    List.getElem?_append_left (List.getElem?_eq_some_iff.mp hItem).1, hItem]

/-- An item that goes somewhere is taken along by a transition, and has a place in the kernel that this
leads to. -/
theorem target_of_place {a : Augmented} {state : StateId} {item : Item} {target : Nat}
    (hPlace : m.place a state item = some target) :
    ∃ (symbol : SymbolId) (next slot : Nat) (kernel : Kernel), a.next? item = some symbol
      ∧ (symbol, next) ∈ m.transitions.getD state [] ∧ m.kernels[next]? = some kernel
      ∧ kernel[slot]? = some item.advance ∧ target = m.offsets.getD next 0 + slot := by
  obtain ⟨symbol, hNext, hRest⟩ := Option.bind_eq_some_iff.mp hPlace
  obtain ⟨next, hTarget, hNumber⟩ := Option.bind_eq_some_iff.mp hRest
  obtain ⟨slot, hSlot, rfl⟩ := Option.map_eq_some_iff.mp hNumber
  obtain ⟨hLess, hSame, -⟩ := List.findIdx?_eq_some_iff_getElem.mp hSlot
  have hItem : (m.kernels.getD next [])[slot]? = some item.advance := by
    rw [List.getElem?_eq_getElem hLess, beq_iff_eq.mp hSame]
  obtain ⟨front, back, hSplit, -⟩ := List.lookup_eq_some_iff.mp hTarget
  exact ⟨symbol, next, slot, _, hNext, by simp [hSplit], getElem?_of_getD hItem, hItem, rfl⟩

/-- An item that goes somewhere keeps its rule there. -/
theorem rule_of_place {a : Augmented} {state : StateId} {item other : Item} {target : Nat}
    (hPlace : m.place a state item = some target) (hOther : m.items[target]? = some other) :
    other.rule = item.rule := by
  obtain ⟨_, _, _, _, -, -, hKernel, hItem, rfl⟩ := target_of_place hPlace
  obtain rfl := Option.some.inj (hOther.symm.trans (getElem?_items hKernel hItem))
  rfl

section Sustains
variable {a : Augmented} {Q : Nat → SymbolId → Prop}

/-- The closure of the kernel item at one place has a set behind an item that becomes the one at another
place. -/
inductive Feeds (a : Augmented) (m : Automaton) : (source target : Nat) → IdSet → Prop
  | intro {state slot target : Nat} {kernel : Kernel} {k item : Item} {set : IdSet}
      (hKernel : m.kernels[state]? = some kernel) (hItem : kernel[slot]? = some k)
      (hEntry : (item, set) ∈ a.closureWithLookahead [(k, .singleton a.mark)])
      (hPlace : m.place a state item = some target) :
      Feeds a m (m.offsets.getD state 0 + slot) target set

/-- Something holds of the end behind the added rule and of the terminals that arise in closures, and
where there is a mark it is handed on. -/
structure Sustains (a : Augmented) (m : Automaton) (Q : Nat → SymbolId → Prop) : Prop where
  start : Q 0 endSymbol
  arises : ∀ {source target : Nat} {set : IdSet}, m.Feeds a source target set →
    ∀ i < a.terminalCount, set.contains i = true → Q target i
  passes : ∀ {source target : Nat} {set : IdSet}, m.Feeds a source target set →
    set.contains a.mark = true → ∀ i, Q source i → Q target i

/-- Something holds of all members of the sets, by their places. -/
def Throughout (Q : Nat → SymbolId → Prop) (sets : Lookaheads) : Prop :=
  ∀ place i, (sets.getD place .empty).contains i = true → Q place i

theorem Throughout.modify {sets : Lookaheads} (h : Throughout Q sets) {place : Nat} {more : IdSet}
    (hMore : ∀ i, more.contains i = true → Q place i) :
    Throughout Q (sets.modify place (·.union more)) := by
  intro other i hIn
  rw [IdSet.getD_modify_union] at hIn
  split at hIn
  · rename_i hHere
    rw [IdSet.contains_union, Bool.or_eq_true] at hIn
    exact hIn.elim (h other i) fun hIn => hHere.1 ▸ hMore i hIn
  · exact h other i hIn

/-- What the flow must keep: its sets have only what holds, and its links hand on what holds. -/
def Carries (Q : Nat → SymbolId → Prop) (flow : Flow) : Prop :=
  Throughout Q flow.sets ∧ ∀ link ∈ flow.links, ∀ i, Q link.1 i → Q link.2 i

theorem Sustains.add (h : m.Sustains a Q) {state slot : Nat} {kernel : Kernel}
    (hKernel : m.kernels[state]? = some kernel) {k : Item} (hItem : kernel[slot]? = some k)
    {entry : LookaheadItem} (hEntry : entry ∈ a.closureWithLookahead [(k, .singleton a.mark)])
    {flow : Flow} (hFlow : Carries Q flow) :
    Carries Q (flow.add a m m.offsets state (m.offsets.getD state 0 + slot) entry) := by
  cases hPlace : m.place a state entry.1 with
  | none =>
      rw [Flow.add_none hPlace]
      exact hFlow
  | some target =>
      rw [Flow.add_some hPlace]
      have hFeeds : m.Feeds a (m.offsets.getD state 0 + slot) target entry.2 :=
        .intro hKernel hItem hEntry hPlace
      refine ⟨hFlow.1.modify fun i hIn => ?_, ?_⟩
      · rw [IdSet.contains_inter, Bool.and_eq_true, IdSet.contains_below, decide_eq_true_iff] at hIn
        exact h.arises hFeeds i hIn.2 hIn.1
      · dsimp only
        split
        · rename_i hMark
          intro link hMem
          rcases Array.mem_push.mp hMem with hMem | rfl
          · exact hFlow.2 link hMem
          · exact h.passes hFeeds hMark
        · exact hFlow.2

theorem Sustains.flow (h : m.Sustains a Q) : Carries Q (m.flow a) := by
  have hStart : Carries Q m.flowStart := by
    refine ⟨fun place i hIn => ?_, by simp [flowStart]⟩
    rw [flowStart, Array.getD_eq_getD_getElem?, Array.getElem?_setIfInBounds,
      Array.getElem?_replicate] at hIn
    split at hIn
    · rename_i hFirst
      subst hFirst
      split at hIn
      · obtain rfl : endSymbol = i := by simpa using hIn
        exact h.start
      · simp at hIn
    · split at hIn <;> simp at hIn
  rw [flow_eq]
  refine List.foldlRecOn (motive := Carries Q) _ _ hStart fun flow hFlow placed hPlaced => ?_
  obtain ⟨kernel, state⟩ := placed
  have hKernel : m.kernels[state]? = some kernel := by
    rw [Array.toList_zipIdx, List.mk_mem_zipIdx_iff_getElem?, Array.getElem?_toList] at hPlaced
    exact hPlaced
  refine List.foldlRecOn (motive := Carries Q) _ _ hFlow fun flow hFlow slotted hSlotted => ?_
  obtain ⟨k, slot⟩ := slotted
  have hItem : kernel[slot]? = some k := List.mk_mem_zipIdx_iff_getElem?.mp hSlotted
  refine List.foldlRecOn (motive := Carries Q) _ _ hFlow fun flow hFlow entry hEntry => ?_
  exact h.add hKernel hItem (Array.mem_toList_iff.mp hEntry) hFlow

/-- The final sets are the least ones: they have nothing that does not arise somewhere and is handed on
from there. -/
theorem Sustains.lookaheads (h : m.Sustains a Q) : Throughout Q (m.lookaheads a) := by
  obtain ⟨hSets, hLinks⟩ := h.flow
  refine saturate_induction (fun sets hSets => ?_) _ _ hSets
  rw [propagatePass_eq]
  refine List.foldlRecOn (motive := Throughout Q) _ _ hSets fun sets hSets link hLink => ?_
  exact hSets.modify fun i hIn => hLinks link (by simpa using hLink) i (hSets link.1 i hIn)

end Sustains

/-- The final sets hold what may stand behind the rules of their items. -/
theorem within_lookaheads {follow : SymbolId → IdSet} (hFollow : g.Following follow)
    (hInitial : m.kernels[0]? = some [⟨g.rules.size, 0⟩]) {place : Nat} {item : Item}
    (hItem : m.items[place]? = some item) :
    ((m.lookaheads (.ofGrammar g)).getD place .empty).Subset (g.behind follow item.rule) := by
  have hSustains : m.Sustains (.ofGrammar g) fun place i =>
      ∀ item, m.items[place]? = some item → (g.behind follow item.rule).contains i = true := by
    refine ⟨fun item hItem => ?_, fun hFeeds i hLess hIn item hItem => ?_,
      fun hFeeds hMark i hSource item hItem => ?_⟩
    · have hState : 0 < m.kernels.size := (Array.getElem?_eq_some_iff.mp hInitial).1
      have hHere := @getElem?_items _ _ 0 _ hInitial _ rfl
      rw [getD_offsets hState] at hHere
      obtain rfl := Option.some.inj (hItem.symm.trans hHere)
      simp [Grammar.behind]
    · obtain ⟨hKernel, hK, hEntry, hPlace⟩ := hFeeds
      rw [rule_of_place hPlace hItem]
      rcases (Augmented.follower_of_mem hEntry hIn).behind_of_mark hFollow with hBehind | hMark
      · exact hBehind.2
      · exact absurd (hMark.1 ▸ hLess) (Nat.lt_irrefl _)
    · obtain ⟨hKernel, hK, hEntry, hPlace⟩ := hFeeds
      rw [rule_of_place hPlace hItem]
      rcases (Augmented.follower_of_mem hEntry hMark).behind_of_mark hFollow with hLess | hSubset
      · exact absurd hLess.1 (Nat.lt_irrefl _)
      · exact hSubset.2 i (hSource _ (getElem?_items hKernel hK))
  exact fun i hIn => hSustains.lookaheads place i hIn item hItem

end Automaton

namespace Tables.Faithful
variable {g : Grammar} {m : Automaton} {t : Tables} {follow : SymbolId → IdSet}

/-- Where a candidate for a cell comes from: a transition, or a complete item whose rule may have the
terminal behind it. -/
inductive Candidate (g : Grammar) (m : Automaton) (follow : SymbolId → IdSet) (state : StateId)
    (terminal : SymbolId) : Action → Prop
  | shift (next : StateId) (hMove : (terminal, next) ∈ m.transitions.getD state []) :
      Candidate g m follow state terminal (.shift next)
  | reduce (item : Item) (hHolds : m.Holds (.ofGrammar g) state item)
      (hComplete : (Augmented.ofGrammar g).next? item = none) (hRule : item.rule ≠ g.rules.size)
      (hBehind : (g.behind follow item.rule).contains terminal = true) :
      Candidate g m follow state terminal (.reduce item.rule)
  | accept (item : Item) (hHolds : m.Holds (.ofGrammar g) state item)
      (hComplete : (Augmented.ofGrammar g).next? item = none) (hRule : item.rule = g.rules.size)
      (hEnd : terminal = endSymbol) : Candidate g m follow state terminal .accept

theorem candidate_of_mem (h : Faithful g m t) (hFollow : g.Following follow) {state terminal : Nat}
    {action : Action} (hMem : action ∈ m.candidates g state terminal) :
    Candidate g m follow state terminal action := by
  rcases List.mem_append.mp hMem with hShift | hAsked
  · obtain ⟨hSame, hSome⟩ := List.mem_filter.mp hShift
    obtain rfl := List.mem_singleton.mp hSame
    rw [Array.getD_eq_getD_getElem?] at hSome ⊢
    cases hCell : (m.shifts g state)[terminal]? with
    | none => simp [hCell] at hSome
    | some action =>
        rcases Automaton.shift_of_shifts hCell with rfl | ⟨next, rfl, hMove⟩
        · simp [hCell] at hSome
        · exact .shift next hMove
  · obtain ⟨entry, hEntry, hAsks⟩ := List.mem_filterMap.mp hAsked
    obtain ⟨hComplete, hHolds⟩ := Automaton.completions_sound hEntry
    replace hComplete : (Augmented.ofGrammar g).next? entry.1 = none := by
      simpa [Augmented.isComplete] using hComplete
    unfold Grammar.candidate? at hAsks
    split at hAsks
    · rename_i hIn
      split at hAsks
      · rename_i hRule
        split at hAsks
        · rename_i hEnd
          obtain rfl := Option.some.inj hAsks
          exact .accept entry.1 hHolds hComplete hRule hEnd
        · simp at hAsks
      · rename_i hRule
        obtain rfl := Option.some.inj hAsks
        rw [h.cellRule_eq (Nat.lt_of_le_of_ne (h.explored.rule_le hHolds) hRule)]
        refine .reduce entry.1 hHolds hComplete hRule ?_
        have hFollower := Augmented.follower_of_mem
          (Array.mem_toList_iff.mp (List.mem_filter.mp hEntry).1) hIn
        refine hFollower.behind hFollow fun seed hSeed => ?_
        obtain ⟨slot, hSlot, hSet⟩ := Automaton.mem_stateItems.mp hSeed
        have hInitial := h.explored.initial
        rw [Augmented.startRule_ofGrammar] at hInitial
        rw [hSet]
        exact Automaton.within_lookaheads hFollow hInitial
          (Automaton.getElem?_items (Automaton.getElem?_of_getD hSlot) hSlot)
    · simp at hAsks

end Tables.Faithful
end IncrementalParsing
