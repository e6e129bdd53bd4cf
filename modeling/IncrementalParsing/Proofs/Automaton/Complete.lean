import IncrementalParsing.Proofs.Automaton.Items
import Mathlib.Data.List.Sort

/-! The construction of the automaton leaves nothing out. A closure holds all expansions of its
items, every state gets its transitions, and a transition is taken wherever an item waits for its
symbol. -/
namespace IncrementalParsing
namespace Augmented
variable {g : Grammar}

/-- Every rule is listed once, under its left-hand side. -/
theorem size_rulesOf_le (rules : List (Rule × Nat)) (lists : Array (Array RuleId)) (symbol : Nat) :
    ((rules.foldl (fun lists (info, index) => lists.modify info.lhs (·.push index))
        lists).getD symbol #[]).size
      ≤ (lists.getD symbol #[]).size + rules.countP (·.1.lhs == symbol) := by
  induction rules generalizing lists with
  | nil => simp
  | cons entry rules ih =>
      obtain ⟨info, index⟩ := entry
      have hModify : ((lists.modify info.lhs (·.push index)).getD symbol #[]).size
          ≤ (lists.getD symbol #[]).size + if info.lhs == symbol then 1 else 0 := by
        simp only [Array.getD_eq_getD_getElem?, Array.getElem?_modify]
        by_cases hHere : info.lhs = symbol
        · cases lists[symbol]? <;> simp [hHere]
        · simp [hHere]
      have hRest := ih (lists.modify info.lhs (·.push index))
      rw [List.foldl_cons, List.countP_cons]
      refine Nat.le_trans hRest ?_
      dsimp only
      omega

theorem length_expansions_le (symbol : Nat) :
    ((ofGrammar g).expansions symbol).length ≤ g.rules.toList.countP (·.lhs == symbol) := by
  have hRules : (ofGrammar g).rulesOf.getD symbol #[] =
      (g.rules.toList.zipIdx.foldl (fun lists (info, index) => lists.modify info.lhs (·.push index))
        (Array.replicate g.symbols.size #[])).getD symbol #[] := by
    simp only [ofGrammar]
    rw [← Array.foldl_toList, Array.toList_zipIdx]
  have hNone : ((Array.replicate g.symbols.size (#[] : Array RuleId)).getD symbol #[]).size = 0 := by
    rw [Array.getD_eq_getD_getElem?, Array.getElem?_replicate]
    split <;> rfl
  have hCount : g.rules.toList.zipIdx.countP (·.1.lhs == symbol)
      = g.rules.toList.countP (·.lhs == symbol) := by
    conv_rhs => rw [← List.zipIdx_map_fst 0 g.rules.toList, List.countP_map]
    rfl
  have hBound := size_rulesOf_le g.rules.toList.zipIdx (Array.replicate g.symbols.size #[]) symbol
  rw [← hRules, hNone, hCount, Nat.zero_add] at hBound
  simpa [expansions] using hBound

/-- The rules that have not been begun yet. -/
def unexpanded (g : Grammar) (expanded : IdSet) : Nat :=
  g.rules.toList.countP fun rule => !expanded.contains (rule.lhs - g.terminalCount)

/-- What is begun now has not been begun before, and is not begun again. -/
theorem unexpanded_insert {expanded : IdSet} {symbol : Nat}
    (hNew : expanded.contains (symbol - g.terminalCount) = false) :
    unexpanded g (expanded.insert (symbol - g.terminalCount))
      + ((ofGrammar g).expansions symbol).length ≤ unexpanded g expanded := by
  have hEach : ∀ rule : Rule,
      (if (!(expanded.insert (symbol - g.terminalCount)).contains (rule.lhs - g.terminalCount)) = true
          then 1 else 0) + (if (rule.lhs == symbol) = true then 1 else 0)
        ≤ if (!expanded.contains (rule.lhs - g.terminalCount)) = true then 1 else 0 := by
    intro rule
    rw [IdSet.contains_insert]
    by_cases hHere : rule.lhs = symbol
    · simp [hHere, hNew]
    · cases expanded.contains (rule.lhs - g.terminalCount)
      · have hOther : (rule.lhs == symbol) = false := by simpa using hHere
        rw [hOther]
        split <;> simp
      · simp [hHere]
  refine Nat.le_trans (Nat.add_le_add_left (length_expansions_le symbol) _) ?_
  unfold unexpanded
  induction g.rules.toList with
  | nil => simp
  | cons rule rules ih =>
      have hRule := hEach rule
      simp only [List.countP_cons]
      omega

/-- A list of items holds the expansions of all its items. -/
def Closed (a : Augmented) (items : List Item) : Prop :=
  ∀ item ∈ items, ∀ symbol, a.next? item = some symbol → a.isTerminal symbol = false →
    ∀ expansion ∈ a.expansions symbol, expansion ∈ items

/-- What has been found waits for what has been expanded, and the expansions have been found or are still
to be looked at. -/
structure Expanding (g : Grammar) (expanded : IdSet) (todo found : List Item) : Prop where
  waited : ∀ item ∈ found, ∀ symbol, (ofGrammar g).next? item = some symbol →
    (ofGrammar g).isTerminal symbol = false → expanded.contains (symbol - g.terminalCount) = true
  begun : ∀ symbol, (ofGrammar g).isTerminal symbol = false →
    expanded.contains (symbol - g.terminalCount) = true →
      ∀ expansion ∈ (ofGrammar g).expansions symbol, expansion ∈ todo ∨ expansion ∈ found

/-- When nothing is left to be looked at, what has been found is closed. -/
theorem Expanding.closed {expanded : IdSet} {found : List Item} (h : Expanding g expanded [] found) :
    (ofGrammar g).Closed found := by
  intro item hMem symbol hNext hSymbol expansion hExpansion
  have hBegun := h.begun symbol hSymbol (h.waited item hMem symbol hNext hSymbol) expansion hExpansion
  exact hBegun.resolve_left List.not_mem_nil

/-- What was to be looked at first has been found now. -/
theorem mem_moved {first item : Item} {todo found : List Item} (h : item ∈ first :: todo ∨ item ∈ found) :
    item ∈ todo ∨ item ∈ first :: found := by
  simp only [List.mem_cons] at h ⊢
  tauto

/-- An item that waits for nothing new is found. -/
theorem Expanding.find {expanded : IdSet} {first : Item} {todo found : List Item}
    (h : Expanding g expanded (first :: todo) found)
    (hFirst : ∀ symbol, (ofGrammar g).next? first = some symbol →
      (ofGrammar g).isTerminal symbol = false → expanded.contains (symbol - g.terminalCount) = true) :
    Expanding g expanded todo (first :: found) where
  waited item hMem := by
    rcases List.mem_cons.mp hMem with rfl | hMem
    · exact hFirst
    · exact h.waited item hMem
  begun symbol hSymbol hMem expansion hExpansion :=
    mem_moved (h.begun symbol hSymbol hMem expansion hExpansion)

/-- An item that waits for a new nonterminal is found, and the nonterminal is expanded. -/
theorem Expanding.expand {expanded : IdSet} {first : Item} {todo found : List Item}
    (h : Expanding g expanded (first :: todo) found) {symbol : Nat}
    (hNext : (ofGrammar g).next? first = some symbol) (hSymbol : (ofGrammar g).isTerminal symbol = false) :
    Expanding g (expanded.insert (symbol - g.terminalCount))
      ((ofGrammar g).expansions symbol ++ todo) (first :: found) where
  waited item hMem other hItem hOther := by
    rw [IdSet.contains_insert]
    rcases List.mem_cons.mp hMem with rfl | hMem
    · obtain rfl : symbol = other := Option.some.inj (hNext.symm.trans hItem)
      simp
    · simp [h.waited item hMem other hItem hOther]
  begun other hOther hMem expansion hExpansion := by
    rw [IdSet.contains_insert, Bool.or_eq_true, decide_eq_true_iff] at hMem
    rcases hMem with hMem | hSame
    · exact (mem_moved (h.begun other hOther hMem expansion hExpansion)).imp_left
        (List.mem_append_right _)
    · -- Nonterminals are known by their distance from the first one.
      have hFirst : g.terminalCount ≤ symbol := by simpa [isTerminal, ofGrammar] using hSymbol
      have hSecond : g.terminalCount ≤ other := by simpa [isTerminal, ofGrammar] using hOther
      have hCancel : ∀ a b c : Nat, c ≤ a → c ≤ b → a - c = b - c → a = b := by omega
      obtain rfl : symbol = other := hCancel _ _ _ hFirst hSecond hSame
      exact .inl (List.mem_append_left _ hExpansion)

/-- What has been found, with what is still to be looked at, holds the expansions of everything that
has been expanded. -/
theorem closure_go_complete (limit : Nat) (expanded : IdSet) (todo found : List Item)
    (hLimit : todo.length + unexpanded g expanded ≤ limit) (h : Expanding g expanded todo found) :
    (∀ item, item ∈ todo ∨ item ∈ found → item ∈ closure.go (ofGrammar g) limit expanded todo found)
      ∧ (ofGrammar g).Closed (closure.go (ofGrammar g) limit expanded todo found) := by
  induction limit generalizing expanded todo found with
  | zero =>
      obtain rfl : todo = [] := List.length_eq_zero_iff.mp (by omega)
      exact ⟨by simp [closure.go], by simpa [closure.go] using h.closed⟩
  | succ limit ih =>
      cases todo with
      | nil => exact ⟨by simp [closure.go], by simpa [closure.go] using h.closed⟩
      | cons first todo =>
          rw [List.length_cons] at hLimit
          rw [closure.go]
          split
          · rename_i symbol hNext
            split
            · rename_i hDone
              have hFind : Expanding g expanded todo (first :: found) := by
                refine h.find fun other hOther hNonterminal => ?_
                obtain rfl : symbol = other := Option.some.inj (hNext.symm.trans hOther)
                rw [hNonterminal, Bool.false_or] at hDone
                exact hDone
              obtain ⟨hAll, hClosed⟩ := ih expanded todo (first :: found) (by omega) hFind
              exact ⟨fun item hMem => hAll item (mem_moved hMem), hClosed⟩
            · rename_i hNew
              rw [Bool.or_eq_true, not_or, Bool.not_eq_true, Bool.not_eq_true] at hNew
              have hSmaller := unexpanded_insert hNew.2
              obtain ⟨hAll, hClosed⟩ := ih (expanded.insert (symbol - g.terminalCount))
                ((ofGrammar g).expansions symbol ++ todo) (first :: found)
                (by rw [List.length_append]; omega) (h.expand hNext hNew.1)
              exact ⟨fun item hMem => hAll item ((mem_moved hMem).imp_left (List.mem_append_right _)),
                hClosed⟩
          · rename_i hNext
            have hFind : Expanding g expanded todo (first :: found) :=
              h.find fun other hOther => by simp [hNext] at hOther
            obtain ⟨hAll, hClosed⟩ := ih expanded todo (first :: found) (by omega) hFind
            exact ⟨fun item hMem => hAll item (mem_moved hMem), hClosed⟩

/-- The closure of a kernel is found completely. -/
theorem mem_closure_iff {kernel : Kernel} {item : Item} :
    item ∈ (ofGrammar g).closure kernel ↔ (ofGrammar g).Closure kernel item := by
  have hBound : unexpanded g .empty ≤ (ofGrammar g).rhs.size := by
    refine Nat.le_trans List.countP_le_length ?_
    simp [ofGrammar]
  obtain ⟨hAll, hClosed⟩ := @closure_go_complete g (kernel.length + (ofGrammar g).rhs.size) .empty
    kernel [] (by omega) ⟨by simp, by simp⟩
  refine ⟨closure_sound, fun h => ?_⟩
  induction h with
  | kernel hMem => exact hAll _ (.inl hMem)
  | expand _ hNext hSymbol hExpansion ih => exact hClosed _ ih _ hNext hSymbol _ hExpansion

/-- The order of moves: by symbol, then by item. -/
def MoveLe (x y : SymbolId × Item) : Prop := moveLe x y = true

instance : DecidableRel MoveLe := fun x y => inferInstanceAs (Decidable (moveLe x y = true))

/-- The three numbers that a move is compared by. -/
def weights (x : SymbolId × Item) : Nat × Nat × Nat := (x.1, x.2.rule, x.2.dot)

theorem moveLe_iff {x y : SymbolId × Item} :
    MoveLe x y ↔ (weights x).1 < (weights y).1
      ∨ (weights x).1 = (weights y).1 ∧ ((weights x).2.1 < (weights y).2.1
        ∨ (weights x).2.1 = (weights y).2.1 ∧ (weights x).2.2 ≤ (weights y).2.2) := by
  simp [MoveLe, moveLe, Item.le, weights]

instance : Std.Total MoveLe where
  total x y := by
    simp only [moveLe_iff]
    omega

instance : IsTrans (SymbolId × Item) MoveLe where
  trans x y z := by
    simp only [moveLe_iff]
    omega

instance : Std.Antisymm MoveLe where
  antisymm x y hFirst hSecond := by
    have hSame : weights x = weights y := by
      simp only [moveLe_iff] at hFirst hSecond
      refine Prod.ext ?_ (Prod.ext ?_ ?_) <;> omega
    obtain ⟨xs, xr, xd⟩ := x
    obtain ⟨ys, yr, yd⟩ := y
    simpa [weights] using hSame

/-- Moves in order are grouped by increasing symbols, so each symbol gets one group. -/
theorem group_increasing {moves : List (SymbolId × Item)} (hOrdered : moves.Pairwise MoveLe) :
    (group moves).Pairwise fun x y => x.1 < y.1 := by
  induction moves with
  | nil => simp [group]
  | cons move moves ih =>
      obtain ⟨symbol, item⟩ := move
      obtain ⟨hFirst, hRest⟩ := List.pairwise_cons.mp hOrdered
      have hKeys : ∀ found ∈ group moves, symbol ≤ found.1 := by
        intro found hMem
        obtain ⟨other, hOther⟩ := List.exists_mem_of_ne_nil _ (ne_nil_of_mem_group hMem)
        have hMove := moveLe_iff.mp (hFirst _ (mem_group.mp ⟨found.2, hMem, hOther⟩))
        exact hMove.elim Nat.le_of_lt fun hSame => Nat.le_of_eq hSame.1
      have hGroups := ih hRest
      rw [group]
      split
      · rename_i other kernel more hGroup
        rw [hGroup] at hGroups hKeys
        obtain ⟨hMore, hOthers⟩ := List.pairwise_cons.mp hGroups
        split
        · rename_i hNew
          refine List.pairwise_cons.mpr ⟨fun found hMem => ?_, hGroups⟩
          have hLess : symbol < other :=
            Nat.lt_of_le_of_ne (hKeys (other, kernel) (by simp)) hNew
          rcases List.mem_cons.mp hMem with rfl | hMem
          · exact hLess
          · exact Nat.lt_trans hLess (hMore found hMem)
        · rename_i hSame
          obtain rfl : symbol = other := Classical.not_not.mp hSame
          split
          · exact hGroups
          · exact List.pairwise_cons.mpr ⟨hMore, hOthers⟩
      · simp

theorem successors_increasing (a : Augmented) (kernel : Kernel) :
    (a.successors kernel).Pairwise fun x y => x.1 < y.1 := by
  refine group_increasing ?_
  refine (List.pairwise_mergeSort ?_ ?_ _).imp fun h => h
  · intro x y z hFirst hSecond
    exact trans_of MoveLe hFirst hSecond
  · intro x y
    rcases total_of MoveLe x y with h | h
    · simp [show moveLe x y = true from h]
    · simp [show moveLe y x = true from h]

/-- A symbol leads to one kernel, and an item is in it if it has just taken the symbol along. -/
theorem mem_of_mem_successors {kernel target : Kernel} {symbol : SymbolId} {item : Item}
    (hTarget : (symbol, target) ∈ (ofGrammar g).successors kernel) :
    item ∈ target ↔ ∃ source, (ofGrammar g).Closure kernel source
      ∧ (ofGrammar g).next? source = some symbol ∧ item = source.advance := by
  constructor
  · exact advance_of_mem_successors hTarget
  · rintro ⟨source, hSource, hNext, rfl⟩
    obtain ⟨other, hOther, hMem⟩ :=
      mem_successors.mpr ⟨source, mem_closure_iff.mpr hSource, hNext, rfl⟩
    have hKeys : (((ofGrammar g).successors kernel).map (·.1)).Nodup :=
      List.pairwise_map.mpr ((successors_increasing _ kernel).imp Nat.ne_of_lt)
    have hSame := List.inj_on_of_nodup_map hKeys hTarget hOther rfl
    rw [(Prod.mk.inj hSame).2]
    exact hMem

end Augmented

namespace Automaton
variable {g : Grammar} {m : Automaton}

theorem size_expand {a : Augmented} (h : m.Explored a) (kernel : Kernel) :
    (m.expand a kernel).transitions.size = m.transitions.size + 1 := by
  have hExtends := (number_all h.numbered (a.successors kernel) []).1
  calc (m.expand a kernel).transitions.size
      = _ + 1 := Array.size_push _
    _ = m.transitions.size + 1 := by rw [hExtends.transitions]

/-- The limit on the number of states is reached before the limit on the number of rounds. -/
theorem finished_explore {a : Augmented} (limit : Nat) (h : m.Explored a)
    (hSize : m.kernels.size ≤ maxStates) (hLimit : maxStates < limit + m.transitions.size)
    {n : Automaton} (hExplore : explore a limit m = .ok n) :
    n.transitions.size = n.kernels.size := by
  induction limit generalizing m with
  | zero =>
      have hBounded := h.bounded
      omega
  | succ limit ih =>
      rw [explore] at hExplore
      split at hExplore
      · rename_i hNone
        obtain rfl := Except.ok.inj hExplore
        exact Nat.le_antisymm h.bounded (Array.getElem?_eq_none_iff.mp hNone)
      · rename_i kernel hKernel
        dsimp only at hExplore
        split at hExplore
        · simp at hExplore
        · rename_i hFits
          refine ih (h.expand hKernel) (Nat.not_lt.mp hFits) ?_ hExplore
          rw [size_expand h]
          omega

/-- Every state has its transitions. -/
theorem finished_ofGrammar {a : Augmented} (hStates : ofGrammar a = .ok m) :
    m.transitions.size = m.kernels.size :=
  finished_explore _ (explored_initial a) (by simp [initial, maxStates]) (by simp [initial]) hStates

/-- The row of a state lists the symbols of what its kernel leads to. -/
theorem Explored.row_symbols {a : Augmented} (h : m.Explored a) {state : StateId}
    {row : List (SymbolId × StateId)} (hRow : m.transitions[state]? = some row) :
    ∃ kernel, m.kernels[state]? = some kernel
      ∧ row.map (·.1) = (a.successors kernel).map (·.1) := by
  obtain ⟨kernel, hKernel, hMoves⟩ := h.row state row hRow
  refine ⟨kernel, hKernel, ?_⟩
  unfold Row at hMoves
  clear hRow
  generalize a.successors kernel = successors at hMoves ⊢
  induction hMoves with
  | nil => rfl
  | cons hHead _ ih => rw [List.map_cons, List.map_cons, ih, hHead.1]

/-- A state has one transition for a symbol. -/
theorem Explored.move_unique {a : Augmented} (h : m.Explored a) {state next other : StateId}
    {symbol : SymbolId} (hNext : (symbol, next) ∈ m.transitions.getD state [])
    (hOther : (symbol, other) ∈ m.transitions.getD state []) : next = other := by
  obtain ⟨row, hRow, hMem⟩ := mem_moves.mp hNext
  obtain ⟨row', hRow', hMem'⟩ := mem_moves.mp hOther
  obtain rfl := Option.some.inj (hRow.symm.trans hRow')
  obtain ⟨kernel, -, hSymbols⟩ := h.row_symbols hRow
  have hKeys : (row.map (·.1)).Nodup := by
    rw [hSymbols]
    exact List.pairwise_map.mpr ((Augmented.successors_increasing a kernel).imp Nat.ne_of_lt)
  exact (Prod.mk.inj (List.inj_on_of_nodup_map hKeys hMem hMem' rfl)).2

theorem Explored.target?_eq_some {a : Augmented} (h : m.Explored a) {state next : StateId}
    {symbol : SymbolId} (hMove : (symbol, next) ∈ m.transitions.getD state []) :
    m.target? state symbol = some next := by
  unfold target?
  cases hFound : (m.transitions.getD state []).lookup symbol with
  | none =>
      have hNone := List.lookup_eq_none_iff.mp hFound _ hMove
      simp at hNone
  | some other =>
      obtain ⟨front, back, hSplit, -⟩ := List.lookup_eq_some_iff.mp hFound
      have hOther : (symbol, other) ∈ m.transitions.getD state [] := by simp [hSplit]
      rw [h.move_unique hMove hOther]

/-- Where a symbol leads, the items are those that have just taken it along. -/
theorem Explored.mem_target (h : m.Explored (.ofGrammar g)) {state next : StateId}
    {symbol : SymbolId} (hMove : (symbol, next) ∈ m.transitions.getD state []) {item : Item} :
    item ∈ m.kernels.getD next [] ↔ ∃ source, m.Holds (.ofGrammar g) state source
      ∧ (Augmented.ofGrammar g).next? source = some symbol ∧ item = source.advance := by
  obtain ⟨kernel, target, hKernel, hTarget, hSuccessor⟩ := h.transition hMove
  rw [getD_kernels hTarget]
  unfold Holds
  rw [getD_kernels hKernel]
  exact Augmented.mem_of_mem_successors hSuccessor

/-- A symbol that an item waits for leads on. -/
theorem exists_move (hStates : ofGrammar (.ofGrammar g) = .ok m) {state : StateId} {item : Item}
    {symbol : SymbolId} (hItem : m.Holds (.ofGrammar g) state item)
    (hNext : (Augmented.ofGrammar g).next? item = some symbol) :
    ∃ next, (symbol, next) ∈ m.transitions.getD state [] := by
  have h := explored_ofGrammar hStates
  obtain ⟨row, hRow⟩ : ∃ row, m.transitions[state]? = some row :=
    ⟨_, Array.getElem?_eq_getElem (finished_ofGrammar hStates ▸ hItem.lt)⟩
  obtain ⟨kernel, hKernel, hSymbols⟩ := h.row_symbols hRow
  rw [Holds, getD_kernels hKernel] at hItem
  obtain ⟨target, hTarget, -⟩ := Augmented.mem_successors.mpr
    ⟨item, Augmented.mem_closure_iff.mpr hItem, hNext, rfl⟩
  have hMem : symbol ∈ row.map (·.1) := by
    rw [hSymbols]
    exact List.mem_map.mpr ⟨_, hTarget, rfl⟩
  obtain ⟨move, hMove, rfl⟩ := List.mem_map.mp hMem
  exact ⟨move.2, mem_moves.mpr ⟨_, hRow, hMove⟩⟩

end Automaton
end IncrementalParsing
