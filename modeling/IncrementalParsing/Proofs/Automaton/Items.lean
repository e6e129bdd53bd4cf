import IncrementalParsing.Proofs.Automaton.States

/-! Items in terms of the grammar they come from, and what they say about a path through the
automaton: the symbols that an item has seen are the last ones of every path to its state. -/
namespace IncrementalParsing
namespace Augmented
variable {g : Grammar}

@[simp] theorem startRule_ofGrammar : (ofGrammar g).startRule = g.rules.size := by
  simp [startRule, ofGrammar]

theorem symbolsOf_rule {rule : Nat} {info : Rule} (hRule : g.rules[rule]? = some info) :
    (ofGrammar g).symbolsOf rule = info.symbols.toArray := by
  have hLess : rule < g.rules.size := (Array.getElem?_eq_some_iff.mp hRule).1
  simp only [symbolsOf, ofGrammar, Array.getD_eq_getD_getElem?, Array.getElem?_push, Array.size_map]
  rw [if_neg (by omega), Array.getElem?_map, hRule]
  rfl

/-- The rule that was added derives the start symbol alone. -/
theorem symbolsOf_startRule : (ofGrammar g).symbolsOf g.rules.size = #[g.start] := by
  simp only [symbolsOf, ofGrammar, Array.getD_eq_getD_getElem?, Array.getElem?_push, Array.size_map]
  rfl

theorem symbolsOf_beyond {rule : Nat} (hBeyond : g.rules.size < rule) :
    (ofGrammar g).symbolsOf rule = #[] := by
  simp only [symbolsOf, ofGrammar, Array.getD_eq_getD_getElem?, Array.getElem?_push, Array.size_map]
  rw [if_neg (by omega), Array.getElem?_eq_none (by simp; omega)]
  rfl

/-- An item waits for a symbol of its rule, or for the start symbol. -/
theorem next?_eq_some {item : Item} {symbol : SymbolId}
    (hNext : (ofGrammar g).next? item = some symbol) :
    (∃ info, g.rules[item.rule]? = some info ∧ info.symbols[item.dot]? = some symbol)
      ∨ (item.rule = g.rules.size ∧ item.dot = 0 ∧ symbol = g.start) := by
  unfold next? at hNext
  rcases Nat.lt_trichotomy item.rule g.rules.size with hLess | hSame | hMore
  · have hRule : g.rules[item.rule]? = some g.rules[item.rule] := Array.getElem?_eq_getElem hLess
    rw [symbolsOf_rule hRule] at hNext
    exact .inl ⟨_, hRule, by simpa using hNext⟩
  · rw [hSame, symbolsOf_startRule] at hNext
    refine .inr ⟨hSame, ?_⟩
    match hDot : item.dot with
    | 0 =>
        rw [hDot] at hNext
        exact ⟨rfl, (Option.some.inj hNext).symm⟩
    | dot + 1 =>
        rw [hDot] at hNext
        simp at hNext
  · rw [symbolsOf_beyond hMore] at hNext
    simp at hNext

theorem mem_rulesOf (rules : List (Rule × Nat)) (lists : Array (Array RuleId)) (symbol rule : Nat) :
    rule ∈ (rules.foldl (fun lists (info, index) => lists.modify info.lhs (·.push index))
        lists).getD symbol #[] ↔
      rule ∈ lists.getD symbol #[]
        ∨ symbol < lists.size ∧ ∃ info, (info, rule) ∈ rules ∧ info.lhs = symbol := by
  induction rules generalizing lists with
  | nil => simp
  | cons entry rules ih =>
      obtain ⟨info, index⟩ := entry
      rw [List.foldl_cons, ih]
      have hModify : rule ∈ (lists.modify info.lhs (·.push index)).getD symbol #[] ↔
          rule ∈ lists.getD symbol #[] ∨ symbol < lists.size ∧ info.lhs = symbol ∧ rule = index := by
        simp only [Array.getD_eq_getD_getElem?, Array.getElem?_modify]
        by_cases hHere : info.lhs = symbol
        · simp only [hHere, if_true]
          by_cases hLess : symbol < lists.size
          · simp [hLess]
          · simp [hLess]
        · simp [hHere]
      rw [hModify, Array.size_modify]
      constructor
      · rintro ((hOld | ⟨hLess, hHere, rfl⟩) | ⟨hLess, other, hMem, hLhs⟩)
        · exact .inl hOld
        · exact .inr ⟨hLess, info, by simp, hHere⟩
        · exact .inr ⟨hLess, other, by simp [hMem], hLhs⟩
      · rintro (hOld | ⟨hLess, other, hMem, hLhs⟩)
        · exact .inl (.inl hOld)
        · rcases List.mem_cons.mp hMem with hSame | hMem
          · obtain ⟨rfl, rfl⟩ := Prod.mk.inj hSame
            exact .inl (.inr ⟨hLess, hLhs, rfl⟩)
          · exact .inr ⟨hLess, other, hMem, hLhs⟩

/-- The expansions of a symbol are the beginnings of its rules. -/
theorem mem_expansions {symbol : Nat} {item : Item} :
    item ∈ (ofGrammar g).expansions symbol ↔
      item.dot = 0 ∧ symbol < g.symbols.size
        ∧ ∃ info, g.rules[item.rule]? = some info ∧ info.lhs = symbol := by
  have hRules : (ofGrammar g).rulesOf.getD symbol #[] =
      (g.rules.toList.zipIdx.foldl (fun lists (info, index) => lists.modify info.lhs (·.push index))
        (Array.replicate g.symbols.size #[])).getD symbol #[] := by
    simp only [ofGrammar]
    rw [← Array.foldl_toList, Array.toList_zipIdx]
  have hMem : ∀ rule, rule ∈ (ofGrammar g).rulesOf.getD symbol #[] ↔
      symbol < g.symbols.size ∧ ∃ info, g.rules[rule]? = some info ∧ info.lhs = symbol := by
    intro rule
    rw [hRules, mem_rulesOf]
    simp only [Array.size_replicate, List.mk_mem_zipIdx_iff_getElem?, Array.getElem?_toList]
    constructor
    · rintro (hOld | hNew)
      · exfalso
        simp only [Array.getD_eq_getD_getElem?, Array.getElem?_replicate] at hOld
        split at hOld <;> simp at hOld
      · exact hNew
    · exact .inr
  constructor
  · intro hItem
    obtain ⟨rule, hRule, rfl⟩ : ∃ rule ∈ (ofGrammar g).rulesOf.getD symbol #[],
        (⟨rule, 0⟩ : Item) = item := by
      simpa [expansions] using hItem
    exact ⟨rfl, (hMem rule).mp hRule⟩
  · rintro ⟨hDot, hRule⟩
    obtain ⟨rule, dot⟩ := item
    obtain rfl : dot = 0 := hDot
    simpa [expansions] using (hMem rule).mpr hRule

end Augmented

namespace Automaton
variable {a : Augmented} {m : Automaton}

theorem mem_moves {state : StateId} {move : SymbolId × StateId} :
    move ∈ m.transitions.getD state [] ↔
      ∃ row, m.transitions[state]? = some row ∧ move ∈ row := by
  rw [Array.getD_eq_getD_getElem?]
  cases m.transitions[state]? <;> simp

theorem getD_kernels {state : StateId} {kernel : Kernel} (hKernel : m.kernels[state]? = some kernel) :
    m.kernels.getD state [] = kernel := by
  rw [Array.getD_eq_getD_getElem?, hKernel]
  rfl

/-- A transition leads from one state to another along the construction. -/
theorem Explored.transition (h : m.Explored a) {state next : StateId} {symbol : SymbolId}
    (hMove : (symbol, next) ∈ m.transitions.getD state []) :
    ∃ source target, m.kernels[state]? = some source ∧ m.kernels[next]? = some target
      ∧ (symbol, target) ∈ a.successors source := by
  obtain ⟨row, hRow, hMem⟩ := mem_moves.mp hMove
  obtain ⟨source, hSource, hMoves⟩ := h.row state row hRow
  obtain ⟨found, hFound, hSame, hNext⟩ : ∃ found ∈ a.successors source,
      found.1 = symbol ∧ m.kernels[next]? = some found.2 := by
    unfold Row at hMoves
    clear hRow
    generalize a.successors source = successors at hMoves ⊢
    induction hMoves with
    | nil => simp at hMem
    | cons hHead _ ih =>
        rcases List.mem_cons.mp hMem with rfl | hMem
        · exact ⟨_, by simp, hHead.1, hHead.2⟩
        · obtain ⟨found, hFound, hRest⟩ := ih hMem
          exact ⟨found, by simp [hFound], hRest⟩
  exact ⟨source, found.2, hSource, hNext, hSame ▸ hFound⟩

/-- The state at the end of a path, its last step first. -/
def endOf : List (SymbolId × StateId) → StateId
  | [] => 0
  | step :: _ => step.2

/-- Steps from the first state along transitions, the last one first. -/
inductive Path (m : Automaton) : List (SymbolId × StateId) → Prop
  | nil : Path m []
  | cons {steps : List (SymbolId × StateId)} {symbol : SymbolId} {next : StateId}
      (hPath : Path m steps) (hMove : (symbol, next) ∈ m.transitions.getD (endOf steps) []) :
      Path m ((symbol, next) :: steps)

/-- The items that may hold in a state. -/
def Holds (a : Augmented) (m : Automaton) (state : StateId) (item : Item) : Prop :=
  a.Closure (m.kernels.getD state []) item

/-- Items hold in states only. -/
theorem Holds.lt {state : StateId} {item : Item} (h : m.Holds a state item) :
    state < m.kernels.size := by
  by_contra hBeyond
  have hEmpty : m.kernels.getD state [] = [] := by
    rw [Array.getD_eq_getD_getElem?, Array.getElem?_eq_none (Nat.not_lt.mp hBeyond)]
    rfl
  rw [Holds, hEmpty] at h
  induction h with
  | kernel hMem => simp at hMem
  | expand _ _ _ _ ih => exact ih

/-- A transition takes along a symbol that some item waits for. -/
theorem Explored.exists_waiting (h : m.Explored a)
    {state next : StateId} {symbol : SymbolId}
    (hMove : (symbol, next) ∈ m.transitions.getD state []) :
    ∃ item, m.Holds a state item ∧ a.next? item = some symbol := by
  obtain ⟨source, target, hSource, -, hSuccessor⟩ := h.transition hMove
  obtain ⟨item, hItem, hNext, -⟩ := Augmented.exists_next_of_mem_successors hSuccessor
  refine ⟨item, ?_, hNext⟩
  rw [Holds, getD_kernels hSource]
  exact hItem

theorem Path.of_append {steps rest : List (SymbolId × StateId)} (h : m.Path (steps ++ rest)) :
    m.Path rest := by
  induction steps with
  | nil => exact h
  | cons step steps ih =>
      cases h with
      | cons hPath => exact ih hPath

/-- An item of the last state that has come somewhere comes from the state before. -/
theorem Explored.step_back (h : m.Explored a) {steps : List (SymbolId × StateId)}
    (hPath : m.Path steps) {item : Item} (hMem : item ∈ m.kernels.getD (endOf steps) [])
    (hDot : item.dot ≠ 0) :
    ∃ symbol next rest source, steps = (symbol, next) :: rest ∧ m.Holds a (endOf rest) source
      ∧ a.next? source = some symbol ∧ item = source.advance := by
  cases hPath with
  | nil =>
      rw [endOf, getD_kernels h.initial] at hMem
      obtain rfl := List.mem_singleton.mp hMem
      exact absurd rfl hDot
  | @cons rest symbol next hPath hMove =>
      obtain ⟨kernel, target, hKernel, hTarget, hSuccessor⟩ := h.transition hMove
      rw [endOf, getD_kernels hTarget] at hMem
      obtain ⟨source, hSource, hNext, hItem⟩ :=
        Augmented.advance_of_mem_successors hSuccessor hMem
      refine ⟨symbol, next, rest, source, rfl, ?_, hNext, hItem⟩
      rw [Holds, getD_kernels hKernel]
      exact hSource

/-- The symbols that an item has seen lie at the end of every path to its state, and its rule was
begun in front of them. -/
theorem Explored.seen (h : m.Explored a) {steps : List (SymbolId × StateId)}
    (hPath : m.Path steps) {item : Item} (hItem : m.Holds a (endOf steps) item) :
    ∃ seen rest, steps = seen ++ rest ∧ seen.length = item.dot
      ∧ (seen.map (·.1)).reverse = (a.symbolsOf item.rule).toList.take item.dot
      ∧ item.dot ≤ (a.symbolsOf item.rule).size ∧ m.Holds a (endOf rest) ⟨item.rule, 0⟩ := by
  induction hDot : item.dot generalizing steps item with
  | zero =>
      obtain ⟨rule, dot⟩ := item
      obtain rfl : dot = 0 := hDot
      exact ⟨[], steps, rfl, rfl, by simp, Nat.zero_le _, hItem⟩
  | succ dot ih =>
      have hMem := hItem.mem_kernel (by omega)
      obtain ⟨symbol, next, rest, source, rfl, hSource, hNext, rfl⟩ :=
        h.step_back hPath hMem (by omega)
      have hSourceDot : source.dot = dot := by
        simp only [Item.advance] at hDot
        omega
      obtain ⟨seen, below, hSplit, hLength, hSeen, hBound, hHolds⟩ :=
        ih (@Path.of_append m [(symbol, next)] rest hPath) hSource hSourceDot
      have hNextSymbol : (a.symbolsOf source.rule)[dot]? = some symbol := hSourceDot ▸ hNext
      refine ⟨(symbol, next) :: seen, below, by rw [hSplit]; rfl, by simp [hLength], ?_, ?_, hHolds⟩
      · simp only [Item.advance, List.map_cons, List.reverse_cons, hSeen]
        rw [List.take_add_one, Array.getElem?_toList, hNextSymbol]
        rfl
      · exact (Array.getElem?_eq_some_iff.mp hNextSymbol).1

/-- Items are made of the rules and the added one. -/
theorem Explored.rule_le {g : Grammar} (h : m.Explored (.ofGrammar g)) {state : StateId}
    {item : Item} (hItem : m.Holds (.ofGrammar g) state item) : item.rule ≤ g.rules.size := by
  have hWaiting : ∀ {item : Item} {symbol : SymbolId},
      (Augmented.ofGrammar g).next? item = some symbol → item.rule ≤ g.rules.size := by
    intro item symbol hNext
    rcases Augmented.next?_eq_some hNext with ⟨info, hRule, -⟩ | ⟨hRule, -⟩
    · exact Nat.le_of_lt (Array.getElem?_eq_some_iff.mp hRule).1
    · exact Nat.le_of_eq hRule
  rw [Holds, Array.getD_eq_getD_getElem?] at hItem
  cases hItem with
  | kernel hMem =>
      cases hKernel : m.kernels[state]? with
      | none => simp [hKernel] at hMem
      | some kernel =>
          rw [hKernel] at hMem
          by_cases hState : state = 0
          · rw [hState, h.initial] at hKernel
            obtain rfl := Option.some.inj hKernel
            obtain rfl := List.mem_singleton.mp hMem
            exact Nat.le_of_eq Augmented.startRule_ofGrammar
          · obtain ⟨source, symbol, hSuccessor⟩ := h.reached state kernel hKernel hState
            obtain ⟨from', -, hNext, rfl⟩ := Augmented.advance_of_mem_successors hSuccessor hMem
            exact @hWaiting from' symbol hNext
  | expand _ _ _ hExpansion =>
      obtain ⟨-, -, info, hRule, -⟩ := Augmented.mem_expansions.mp hExpansion
      exact Nat.le_of_lt (Array.getElem?_eq_some_iff.mp hRule).1

end Automaton
end IncrementalParsing
