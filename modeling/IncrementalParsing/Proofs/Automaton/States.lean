import IncrementalParsing.Automaton.States
import Mathlib.Data.List.Forall2
import Std.Data.HashMap.Lemmas

/-! The states of the automaton are sets of items. A transition takes one symbol along in every
item that waits for it, and nothing else gets into the state it leads to. -/
namespace IncrementalParsing
namespace Augmented
variable {a : Augmented}

/-- The items that stand for a kernel: its own, and the beginnings of the rules of every
nonterminal that one of them waits for. -/
inductive Closure (a : Augmented) (kernel : Kernel) : Item → Prop
  | kernel {item : Item} (hMem : item ∈ kernel) : Closure a kernel item
  | expand {item expansion : Item} {symbol : SymbolId} (hItem : Closure a kernel item)
      (hNext : a.next? item = some symbol) (hSymbol : a.isTerminal symbol = false)
      (hExpansion : expansion ∈ a.expansions symbol) : Closure a kernel expansion

theorem dot_of_mem_expansions {symbol : SymbolId} {item : Item}
    (hMem : item ∈ a.expansions symbol) : item.dot = 0 := by
  obtain ⟨rule, -, rfl⟩ : ∃ rule ∈ a.rulesOf.getD symbol #[], (⟨rule, 0⟩ : Item) = item := by
    simpa [expansions] using hMem
  rfl

/-- An item that has come somewhere is in the kernel. -/
theorem Closure.mem_kernel {kernel : Kernel} {item : Item} (h : a.Closure kernel item)
    (hDot : item.dot ≠ 0) : item ∈ kernel := by
  cases h with
  | kernel hMem => exact hMem
  | expand _ _ _ hExpansion => exact absurd (dot_of_mem_expansions hExpansion) hDot

theorem closure_go_sound (kernel : Kernel) (limit : Nat) (expanded : IdSet)
    (todo found : List Item) (hTodo : ∀ item ∈ todo, a.Closure kernel item)
    (hFound : ∀ item ∈ found, a.Closure kernel item) :
    ∀ item ∈ closure.go a limit expanded todo found, a.Closure kernel item := by
  induction limit generalizing expanded todo found with
  | zero => simpa [closure.go] using hFound
  | succ limit ih =>
      cases todo with
      | nil => simpa [closure.go] using hFound
      | cons first todo =>
          have hFirst := hTodo first (by simp)
          have hRest : ∀ item ∈ todo, a.Closure kernel item :=
            fun item hMem => hTodo item (by simp [hMem])
          have hMore : ∀ item ∈ first :: found, a.Closure kernel item := by
            intro item hMem
            rcases List.mem_cons.mp hMem with rfl | hMem
            · exact hFirst
            · exact hFound item hMem
          rw [closure.go]
          split
          · rename_i symbol hNext
            split
            · exact ih _ _ _ hRest hMore
            · rename_i hOpen
              simp only [Bool.or_eq_true, not_or, Bool.not_eq_true] at hOpen
              refine ih _ _ _ ?_ hMore
              intro item hMem
              rcases List.mem_append.mp hMem with hMem | hMem
              · exact .expand hFirst hNext hOpen.1 hMem
              · exact hRest item hMem
          · exact ih _ _ _ hRest hMore

/-- Every item that is found is in the closure. -/
theorem closure_sound {kernel : Kernel} {item : Item} (hMem : item ∈ a.closure kernel) :
    a.Closure kernel item :=
  closure_go_sound kernel _ _ _ _ (fun _ hMem => .kernel hMem) (by simp) item hMem

/-- Grouping loses no item and invents none. -/
theorem mem_group {moves : List (SymbolId × Item)} {symbol : SymbolId} {item : Item} :
    (∃ kernel, (symbol, kernel) ∈ group moves ∧ item ∈ kernel) ↔ (symbol, item) ∈ moves := by
  induction moves with
  | nil => simp [group]
  | cons move moves ih =>
      obtain ⟨first, head⟩ := move
      rw [List.mem_cons, ← ih, group]
      split
      · rename_i other kernel more hGroup
        rw [hGroup]
        split
        · simp only [List.mem_cons, Prod.mk.injEq]
          constructor
          · rintro ⟨found, ⟨rfl, rfl⟩ | hFound, hMem⟩
            · obtain rfl : item = head := by simpa using hMem
              exact .inl ⟨rfl, rfl⟩
            · exact .inr ⟨found, hFound, hMem⟩
          · rintro (⟨rfl, rfl⟩ | ⟨found, hFound, hMem⟩)
            · exact ⟨[item], .inl ⟨rfl, rfl⟩, by simp⟩
            · exact ⟨found, .inr hFound, hMem⟩
        · rename_i hSame
          obtain rfl : first = other := Classical.not_not.mp hSame
          split
          · rename_i hHead
            constructor
            · exact .inr
            · rintro (hFirst | hFound)
              · obtain ⟨rfl, rfl⟩ := Prod.mk.inj hFirst
                exact ⟨kernel, by simp, List.mem_of_mem_head? hHead⟩
              · exact hFound
          · simp only [List.mem_cons, Prod.mk.injEq]
            constructor
            · rintro ⟨found, ⟨rfl, rfl⟩ | hFound, hMem⟩
              · rcases List.mem_cons.mp hMem with rfl | hMem
                · exact .inl ⟨rfl, rfl⟩
                · exact .inr ⟨kernel, .inl ⟨rfl, rfl⟩, hMem⟩
              · exact .inr ⟨found, .inr hFound, hMem⟩
            · rintro (⟨rfl, rfl⟩ | ⟨found, ⟨rfl, rfl⟩ | hFound, hMem⟩)
              · exact ⟨item :: kernel, .inl ⟨rfl, rfl⟩, by simp⟩
              · exact ⟨head :: found, .inl ⟨rfl, rfl⟩, by simp [hMem]⟩
              · exact ⟨found, .inr hFound, hMem⟩
      · rename_i hGroup
        simp only [hGroup, List.mem_singleton, List.not_mem_nil, false_and, exists_false, or_false,
          Prod.mk.injEq]
        constructor
        · rintro ⟨found, ⟨rfl, rfl⟩, hMem⟩
          exact ⟨rfl, by simpa using hMem⟩
        · rintro ⟨rfl, rfl⟩
          exact ⟨[item], ⟨rfl, rfl⟩, by simp⟩

/-- A group has an item. -/
theorem ne_nil_of_mem_group {moves : List (SymbolId × Item)} {symbol : SymbolId} {kernel : Kernel}
    (hMem : (symbol, kernel) ∈ group moves) : kernel ≠ [] := by
  induction moves generalizing symbol kernel with
  | nil => simp [group] at hMem
  | cons move moves ih =>
      rw [group] at hMem
      split at hMem
      · rename_i other found more hGroup
        rw [hGroup] at ih
        split at hMem
        · rcases List.mem_cons.mp hMem with hHere | hMem
          · obtain ⟨-, rfl⟩ := Prod.mk.inj hHere
            simp
          · exact ih hMem
        · split at hMem
          · exact ih hMem
          · rcases List.mem_cons.mp hMem with hHere | hMem
            · obtain ⟨-, rfl⟩ := Prod.mk.inj hHere
              simp
            · exact ih (List.mem_cons_of_mem _ hMem)
      · obtain ⟨-, rfl⟩ := Prod.mk.inj (List.mem_singleton.mp hMem)
        simp

/-- The state behind a symbol holds the items that have taken it along. -/
theorem mem_successors {kernel : Kernel} {symbol : SymbolId} {item : Item} :
    (∃ target, (symbol, target) ∈ a.successors kernel ∧ item ∈ target) ↔
      ∃ from' ∈ a.closure kernel, a.next? from' = some symbol ∧ item = from'.advance := by
  rw [successors, mem_group, List.mem_mergeSort]
  simp only [List.mem_filterMap, Option.map_eq_some_iff, Prod.mk.injEq]
  constructor
  · rintro ⟨source, hMem, other, hNext, rfl, rfl⟩
    exact ⟨source, hMem, hNext, rfl⟩
  · rintro ⟨source, hMem, hNext, rfl⟩
    exact ⟨source, hMem, symbol, hNext, rfl, rfl⟩

/-- The items behind a symbol are those in front of it, one step on. -/
theorem advance_of_mem_successors {kernel target : Kernel} {symbol : SymbolId}
    (hTarget : (symbol, target) ∈ a.successors kernel) {item : Item} (hMem : item ∈ target) :
    ∃ source, a.Closure kernel source ∧ a.next? source = some symbol ∧ item = source.advance := by
  obtain ⟨source, hSource, hNext, hItem⟩ := mem_successors.mp ⟨target, hTarget, hMem⟩
  exact ⟨source, closure_sound hSource, hNext, hItem⟩

/-- A state is entered because some item waits for its symbol. -/
theorem exists_next_of_mem_successors {kernel target : Kernel} {symbol : SymbolId}
    (hTarget : (symbol, target) ∈ a.successors kernel) :
    ∃ source, a.Closure kernel source ∧ a.next? source = some symbol
      ∧ source.advance ∈ target := by
  obtain ⟨item, hItem⟩ := List.exists_mem_of_ne_nil target (ne_nil_of_mem_group hTarget)
  obtain ⟨source, hSource, hNext, rfl⟩ := advance_of_mem_successors hTarget hItem
  exact ⟨source, hSource, hNext, hItem⟩

end Augmented

namespace Automaton
variable {a : Augmented} {m : Automaton}

/-- The second automaton has all states of the first, and the same transitions. -/
structure Extends (m n : Automaton) : Prop where
  kernels : ∀ (state : Nat) kernel, m.kernels[state]? = some kernel →
    n.kernels[state]? = some kernel
  size : m.kernels.size ≤ n.kernels.size
  transitions : n.transitions = m.transitions

theorem Extends.refl (m : Automaton) : m.Extends m := ⟨fun _ _ => id, Nat.le_refl _, rfl⟩

theorem Extends.trans {l m n : Automaton} (hFirst : l.Extends m) (hSecond : m.Extends n) :
    l.Extends n :=
  ⟨fun state kernel hSome => hSecond.kernels state kernel (hFirst.kernels state kernel hSome),
    Nat.le_trans hFirst.size hSecond.size, hSecond.transitions.trans hFirst.transitions⟩

/-- Every state has a number of its own. -/
def Numbered (m : Automaton) : Prop :=
  ∀ (kernel : Kernel) (state : Nat),
    m.numbers[kernel]? = some state ↔ m.kernels[state]? = some kernel

/-- Looking up the number of a kernel adds the kernel if it is new, and nothing else. -/
theorem numberOf_spec (hNumbered : m.Numbered) (kernel : Kernel) :
    m.Extends (m.numberOf kernel).2 ∧ (m.numberOf kernel).2.Numbered
      ∧ (m.numberOf kernel).2.kernels[(m.numberOf kernel).1]? = some kernel
      ∧ ∀ (state : Nat) other, (m.numberOf kernel).2.kernels[state]? = some other →
          m.kernels[state]? = some other ∨ other = kernel := by
  unfold numberOf
  split
  · rename_i state hState
    exact ⟨.refl m, hNumbered, (hNumbered kernel state).mp hState, fun _ _ => .inl⟩
  · rename_i hNew
    have hFresh : ∀ state : Nat, m.kernels[state]? ≠ some kernel := by
      intro state hState
      rw [(hNumbered kernel state).mpr hState] at hNew
      simp at hNew
    refine ⟨⟨?_, by simp, rfl⟩, ?_, by simp, ?_⟩
    · intro state other hState
      have hLess : state < m.kernels.size := (Array.getElem?_eq_some_iff.mp hState).1
      rw [Array.getElem?_push, if_neg (by omega), hState]
    · intro other state
      rw [Std.HashMap.getElem?_insert, Array.getElem?_push]
      by_cases hSame : kernel = other
      · subst hSame
        simp only [beq_self_eq_true, if_true, Option.some.injEq]
        split
        · rename_i hLast
          simp [hLast]
        · rename_i hLast
          exact ⟨fun hState => absurd hState.symm hLast, fun hState => absurd hState (hFresh state)⟩
      · rw [if_neg (by simpa using hSame), hNumbered other state]
        split
        · rename_i hLast
          subst hLast
          simp [hSame]
        · rfl
    · intro state other hState
      rw [Array.getElem?_push] at hState
      split at hState
      · exact .inr (Option.some.inj hState).symm
      · exact .inl hState

/-- The transitions of one state lead to what the construction finds behind its kernel. -/
def Row (a : Augmented) (m : Automaton) (kernel : Kernel) (row : List (SymbolId × StateId)) : Prop :=
  List.Forall₂ (fun found move => found.1 = move.1 ∧ m.kernels[move.2]? = some found.2)
    (a.successors kernel) row

/-- What holds while the states are found. -/
structure Explored (a : Augmented) (m : Automaton) : Prop where
  numbered : m.Numbered
  initial : m.kernels[0]? = some [⟨a.startRule, 0⟩]
  bounded : m.transitions.size ≤ m.kernels.size
  row : ∀ (state : Nat) row, m.transitions[state]? = some row →
    ∃ kernel, m.kernels[state]? = some kernel ∧ m.Row a kernel row
  reached : ∀ (state : Nat) kernel, m.kernels[state]? = some kernel → state ≠ 0 →
    ∃ source symbol, (symbol, kernel) ∈ a.successors source

/-- So does looking up several. -/
theorem number_all (hNumbered : m.Numbered) (found : List (SymbolId × Kernel))
    (row : List (SymbolId × StateId)) :
    let result := found.foldl (fun (row, m) (symbol, target) =>
      let (state, m) := Automaton.numberOf m target
      ((symbol, state) :: row, m)) (row, m)
    m.Extends result.2 ∧ result.2.Numbered
      ∧ (∃ new, result.1.reverse = row.reverse ++ new
        ∧ List.Forall₂ (fun found move => found.1 = move.1
            ∧ result.2.kernels[move.2]? = some found.2) found new)
      ∧ ∀ (state : Nat) other, result.2.kernels[state]? = some other →
          m.kernels[state]? = some other ∨ ∃ symbol, (symbol, other) ∈ found := by
  induction found generalizing m row with
  | nil => exact ⟨.refl m, hNumbered, ⟨[], by simp, .nil⟩, fun _ _ => .inl⟩
  | cons move found ih =>
      obtain ⟨symbol, target⟩ := move
      obtain ⟨hExtends, hNext, hState, hOld⟩ := numberOf_spec hNumbered target
      obtain ⟨hRest, hDone, ⟨new, hRow, hNew⟩, hOther⟩ :=
        ih hNext ((symbol, (m.numberOf target).1) :: row)
      refine ⟨hExtends.trans hRest, hDone, ⟨(symbol, (m.numberOf target).1) :: new, ?_, ?_⟩, ?_⟩
      · simpa using hRow
      · exact .cons ⟨rfl, hRest.kernels _ _ hState⟩ hNew
      · intro state other hSome
        rcases hOther state other hSome with hSome | ⟨symbol', hMem⟩
        · rcases hOld state other hSome with hSome | rfl
          · exact .inl hSome
          · exact .inr ⟨symbol, by simp⟩
        · exact .inr ⟨symbol', by simp [hMem]⟩

theorem explored_initial (a : Augmented) : (initial a).Explored a where
  numbered := by
    intro kernel state
    simp only [initial, Std.HashMap.getElem?_insert]
    by_cases hSame : [(⟨a.startRule, 0⟩ : Item)] = kernel
    · subst hSame
      cases state with
      | zero => simp
      | succ state => simp
    · cases state with
      | zero => simp [hSame]
      | succ state => simp [hSame]
  initial := rfl
  bounded := by simp [initial]
  row := by simp [initial]
  reached := by
    intro state kernel hSome hState
    cases state with
    | zero => exact absurd rfl hState
    | succ state => simp [initial] at hSome

/-- The next state can be expanded. -/
theorem Explored.expand (h : m.Explored a) {kernel : Kernel}
    (hKernel : m.kernels[m.transitions.size]? = some kernel) : (m.expand a kernel).Explored a := by
  obtain ⟨hExtends, hNumbered, ⟨new, hRow, hNew⟩, hOld⟩ :=
    number_all h.numbered (a.successors kernel) []
  have hLess : m.transitions.size < m.kernels.size := (Array.getElem?_eq_some_iff.mp hKernel).1
  refine ⟨hNumbered, hExtends.kernels _ _ h.initial, ?_, ?_, ?_⟩
  · calc (m.expand a kernel).transitions.size
        = _ + 1 := Array.size_push _
      _ = m.transitions.size + 1 := by rw [hExtends.transitions]
      _ ≤ m.kernels.size := hLess
      _ ≤ (m.expand a kernel).kernels.size := hExtends.size
  · intro state row hSome
    replace hSome : (Array.push _ _)[state]? = some row := hSome
    rw [Array.getElem?_push, hExtends.transitions] at hSome
    split at hSome
    · rename_i hLast
      obtain rfl := Option.some.inj hSome
      refine ⟨kernel, hExtends.kernels _ _ (hLast ▸ hKernel), ?_⟩
      rw [hRow]
      exact hNew
    · obtain ⟨other, hOther, hRows⟩ := h.row state row hSome
      refine ⟨other, hExtends.kernels _ _ hOther, hRows.imp fun found move hMove => ?_⟩
      exact ⟨hMove.1, hExtends.kernels _ _ hMove.2⟩
  · intro state other hSome hState
    rcases hOld state other hSome with hSome | ⟨symbol, hMem⟩
    · exact h.reached state other hSome hState
    · exact ⟨kernel, symbol, hMem⟩

/-- What survives the expansion of a state, while there are not too many, survives the exploration. -/
theorem explore_induction {P : Automaton → Prop}
    (hExpand : ∀ {m : Automaton} {kernel : Kernel}, P m → m.kernels[m.transitions.size]? = some kernel →
      (m.expand a kernel).kernels.size ≤ maxStates → P (m.expand a kernel))
    (limit : Nat) {m n : Automaton} (h : P m) (hExplore : explore a limit m = .ok n) : P n := by
  induction limit generalizing m with
  | zero =>
      obtain rfl := Except.ok.inj hExplore
      exact h
  | succ limit ih =>
      rw [explore] at hExplore
      split at hExplore
      · obtain rfl := Except.ok.inj hExplore
        exact h
      · rename_i kernel hKernel
        dsimp only at hExplore
        split at hExplore
        · simp at hExplore
        · rename_i hFits
          exact ih (hExpand h hKernel (Nat.not_lt.mp hFits)) hExplore

/-- There are never too many states. -/
theorem size_ofGrammar (hStates : ofGrammar a = .ok m) : m.kernels.size ≤ maxStates :=
  explore_induction (P := fun m => m.kernels.size ≤ maxStates) (fun _ _ hFits => hFits) _
    (by simp [initial, maxStates]) hStates

/-- When the exploration ends, every state has its row. -/
theorem explored_ofGrammar (hStates : ofGrammar a = .ok m) : m.Explored a :=
  explore_induction (fun h hKernel _ => h.expand hKernel) _ (explored_initial a) hStates

end Automaton
end IncrementalParsing
