import IncrementalParsing.Proofs.Automaton.Complete
import IncrementalParsing.Tables.Construction

/-! The construction of the automaton on plain lists, without its hash map and its arrays. It finds
the same states and transitions, and can be evaluated in a proof. -/
namespace IncrementalParsing
namespace Grammar

/-- The right-hand sides of all rules, that of the added rule last. -/
def sides (g : Grammar) : List (List SymbolId) := g.rules.toList.map (·.symbols) ++ [[g.start]]

/-- The rules of a symbol from their beginning, numbered from `rule` on. -/
def beginnings (symbol : Nat) : List Rule → (rule : Nat) → List Item
  | [], _ => []
  | info :: rules, rule =>
      bif Nat.beq info.lhs symbol then ⟨rule, 0⟩ :: beginnings symbol rules (rule + 1)
      else beginnings symbol rules (rule + 1)

/-- What the items of a closure wait for, with the items that come after it. -/
def moves (g : Grammar) : (limit : Nat) → (expanded : IdSet) → (todo : List Item) →
    (found : List (SymbolId × Item)) → List (SymbolId × Item)
  | 0, _, _, found => found
  | _, _, [], found => found
  | limit + 1, expanded, item :: todo, found =>
      match (g.sides.getD item.rule [])[item.dot]? with
      | some (symbol : Nat) =>
          bif Nat.blt symbol g.terminalCount || expanded.contains (symbol - g.terminalCount) then
            g.moves limit expanded todo ((symbol, item.advance) :: found)
          else
            g.moves limit (expanded.insert (symbol - g.terminalCount))
              (beginnings symbol g.rules.toList 0 ++ todo) ((symbol, item.advance) :: found)
      | none => g.moves limit expanded todo found

/-- Compares by symbol, then by rule, then by how far the item has come. -/
def precedes (x y : SymbolId × Item) : Bool :=
  Nat.blt x.1 y.1 || (Nat.beq x.1 y.1 &&
    (Nat.blt x.2.rule y.2.rule || (Nat.beq x.2.rule y.2.rule && Nat.ble x.2.dot y.2.dot)))

/-- The kernels reached from a kernel. -/
def reached (g : Grammar) (kernel : Kernel) : List (SymbolId × Kernel) :=
  Augmented.group ((g.moves (kernel.length + (g.rules.size + 1)) .empty kernel []).insertionSort
    fun x y => precedes x y = true)

section
variable {g : Grammar}

theorem getElem?_sides (item : Item) :
    (g.sides.getD item.rule [])[item.dot]? = (Augmented.ofGrammar g).next? item := by
  rw [Augmented.next?, sides]
  rcases Nat.lt_trichotomy item.rule g.rules.size with hLess | hSame | hMore
  · rw [Augmented.symbolsOf_rule (Array.getElem?_eq_getElem hLess)]
    simp [List.getElem?_append_left, hLess]
  · rw [hSame, Augmented.symbolsOf_startRule]
    simp
  · have hNone : (g.rules.toList.map (·.symbols) ++ [[g.start]])[item.rule]? = none := by
      refine List.getElem?_eq_none ?_
      simp only [List.length_append, List.length_map, Array.length_toList, List.length_singleton]
      exact hMore
    rw [Augmented.symbolsOf_beyond hMore, List.getD_eq_getElem?_getD, hNone]
    simp

/-- The rules of a symbol are entered at their first place, in the order of the grammar. -/
theorem beginnings_eq (symbol : Nat) (rules : List Rule) (rule : Nat) :
    beginnings symbol rules rule
      = ((rules.zipIdx rule).filter fun x => x.1.lhs == symbol).map fun x => ⟨x.2, 0⟩ := by
  induction rules generalizing rule with
  | nil => rfl
  | cons info rules ih =>
      rw [beginnings, ih, List.zipIdx_cons, List.filter_cons]
      cases hIs : Nat.beq info.lhs symbol with
      | true => rw [if_pos (by simpa using Nat.eq_of_beq_eq_true hIs)]; rfl
      | false =>
          rw [if_neg (by simpa using Nat.ne_of_beq_eq_false hIs)]
          rfl

/-- The index by left hand sides lists the rules of each symbol in this order too. -/
theorem rulesOf_eq (rules : List (Rule × Nat)) (lists : Array (Array RuleId)) {symbol : Nat}
    (hSymbol : symbol < lists.size) :
    ((rules.foldl (fun lists (info, index) => lists.modify info.lhs (·.push index)) lists).getD
        symbol #[]).toList
      = (lists.getD symbol #[]).toList
        ++ (rules.filter fun x => x.1.lhs == symbol).map (·.2) := by
  induction rules generalizing lists with
  | nil => simp
  | cons rule rules ih =>
      obtain ⟨info, index⟩ := rule
      rw [List.foldl_cons, ih _ (by simpa using hSymbol), List.filter_cons]
      simp only [Array.getD_eq_getD_getElem?, Array.getElem?_modify]
      by_cases hIs : info.lhs = symbol
      · simp [hIs, hSymbol]
      · simp [hIs]

/-- So both sides expand a symbol to the same items. -/
theorem expansions_eq (hRules : ∀ info ∈ g.rules, info.lhs < g.symbols.size) (symbol : Nat) :
    (Augmented.ofGrammar g).expansions symbol = beginnings symbol g.rules.toList 0 := by
  rcases Nat.lt_or_ge symbol g.symbols.size with hLess | hMore
  · rw [beginnings_eq, Augmented.expansions, Array.toList_map]
    simp only [Augmented.ofGrammar]
    rw [← Array.foldl_toList, rulesOf_eq _ _ (by simpa using hLess)]
    simp [Array.getD_eq_getD_getElem?, hLess, Function.comp_def]
  · have hNone : (Augmented.ofGrammar g).expansions symbol = [] := by
      refine List.eq_nil_iff_forall_not_mem.mpr fun item hMem => ?_
      exact Nat.not_lt.mpr hMore (Augmented.mem_expansions.mp hMem).2.1
    rw [hNone, beginnings_eq, eq_comm, List.map_eq_nil_iff]
    refine List.filter_eq_nil_iff.mpr fun x hMem => ?_
    have hInfo := hRules x.1 (Array.mem_toList_iff.mp (List.fst_mem_of_mem_zipIdx hMem))
    simpa using Nat.ne_of_lt (Nat.lt_of_lt_of_le hInfo hMore)

theorem moves_eq (hRules : ∀ info ∈ g.rules, info.lhs < g.symbols.size) (limit : Nat)
    (expanded : IdSet) (todo found : List Item) :
    let move := fun item => ((Augmented.ofGrammar g).next? item).map fun symbol =>
      (symbol, Item.advance item)
    g.moves limit expanded todo (found.filterMap move)
      = (Augmented.closure.go (.ofGrammar g) limit expanded todo found).filterMap move := by
  intro move
  induction limit generalizing expanded todo found with
  | zero => simp [moves, Augmented.closure.go]
  | succ limit ih =>
      cases todo with
      | nil => simp [moves, Augmented.closure.go]
      | cons item todo =>
          rw [moves, Augmented.closure.go, getElem?_sides]
          cases hNext : (Augmented.ofGrammar g).next? item with
          | none =>
              have hMove : move item = none := by simp [move, hNext]
              dsimp only
              rw [← ih, List.filterMap_cons_none hMove]
          | some symbol =>
              have hMove : move item = some (symbol, item.advance) := by simp [move, hNext]
              have hTerminal : Nat.blt symbol g.terminalCount
                  = (Augmented.ofGrammar g).isTerminal symbol := by
                refine Bool.eq_iff_iff.mpr ?_
                rw [Nat.blt_eq]
                exact decide_eq_true_iff.symm
              dsimp only
              rw [← List.filterMap_cons_some hMove, ih, ih, expansions_eq hRules, cond_eq_ite,
                apply_ite (List.filterMap move), hTerminal]
              rfl

theorem precedes_eq : precedes = Augmented.moveLe := by
  funext x y
  refine Bool.eq_iff_iff.mpr ?_
  simp [precedes, Augmented.moveLe, Item.le]

/-- The two sorts put the moves of a state into the same order. -/
theorem insertionSort_precedes (found : List (SymbolId × Item)) :
    found.insertionSort (fun x y => precedes x y = true) = found.mergeSort Augmented.moveLe := by
  have hOrder : (fun x y => decide (Augmented.MoveLe x y)) = Augmented.moveLe := by
    funext x y
    exact Bool.decide_eq_true
  have hSort := List.mergeSort_eq_insertionSort Augmented.MoveLe found
  rw [hOrder] at hSort
  rw [hSort, precedes_eq]
  rfl

/-- The kernels reached from a kernel are the same ones. -/
theorem reached_eq (hRules : ∀ info ∈ g.rules, info.lhs < g.symbols.size) (kernel : Kernel) :
    g.reached kernel = (Augmented.ofGrammar g).successors kernel := by
  have hMoves := moves_eq hRules (kernel.length + (g.rules.size + 1)) .empty kernel []
  have hSize : (Augmented.ofGrammar g).rhs.size = g.rules.size + 1 := by simp [Augmented.ofGrammar]
  dsimp only at hMoves
  rw [reached, insertionSort_precedes, Augmented.successors, Augmented.closure, hSize, ← hMoves]
  rfl

end
end Grammar

namespace Automaton

/-- The states that have been found and the rows of those that have been expanded, the last ones
first. -/
structure Found where
  kernels : List Kernel
  rows : List (List (SymbolId × StateId))

namespace Found

def same : Kernel → Kernel → Bool
  | [], [] => true
  | x :: xs, y :: ys => Nat.beq x.rule y.rule && (Nat.beq x.dot y.dot && same xs ys)
  | _, _ => false

/-- The number of a kernel. -/
def place? (kernel : Kernel) : List Kernel → Option StateId
  | [] => none
  | other :: rest => bif same kernel other then some rest.length else place? kernel rest

/-- The numbers of the kernels that are reached. New kernels are put behind all others. -/
def enter : (reached : List (SymbolId × Kernel)) → (row : List (SymbolId × StateId)) →
    (kernels : List Kernel) → List (SymbolId × StateId) × List Kernel
  | [], row, kernels => (row, kernels)
  | (symbol, kernel) :: reached, row, kernels =>
      match place? kernel kernels with
      | some state => enter reached ((symbol, state) :: row) kernels
      | none => enter reached ((symbol, kernels.length) :: row) (kernel :: kernels)

def explore (g : Grammar) : (limit : Nat) → Found → Except GrammarFault Found
  | 0, f => .ok f
  | limit + 1, f =>
      match f.kernels.reverse[f.rows.length]? with
      | none => .ok f
      | some kernel =>
          let (row, kernels) := enter (g.reached kernel) [] f.kernels
          bif Nat.blt maxStates kernels.length then .error (.tooManyStates maxStates)
          else explore g limit ⟨kernels, row.reverse :: f.rows⟩

/-- All states of a grammar. -/
def ofGrammar (g : Grammar) : Except GrammarFault Found :=
  explore g (maxStates + 1) ⟨[[⟨g.rules.size, 0⟩]], []⟩

/-- An automaton with the same states and transitions. -/
structure Agrees (f : Found) (m : Automaton) : Prop where
  kernels : m.kernels.toList = f.kernels.reverse
  transitions : m.transitions.toList = f.rows.reverse

section
variable {g : Grammar} {f : Found} {m : Automaton}

theorem same_iff {x y : Kernel} : same x y = true ↔ x = y := by
  induction x generalizing y with
  | nil => cases y <;> simp [same]
  | cons item x ih =>
      cases y with
      | nil => simp [same]
      | cons other y =>
          obtain ⟨rule, dot⟩ := item
          obtain ⟨otherRule, otherDot⟩ := other
          simp [same, ih, and_assoc]

/-- A kernel is found at the number of its state, or it is none so far. -/
theorem place?_spec (kernel : Kernel) (kernels : List Kernel) :
    (∃ state, place? kernel kernels = some state ∧ kernels.reverse[state]? = some kernel)
      ∨ place? kernel kernels = none ∧ kernel ∉ kernels := by
  induction kernels with
  | nil => exact .inr ⟨rfl, by simp⟩
  | cons other kernels ih =>
      rw [place?]
      cases hSame : same kernel other with
      | true =>
          obtain rfl := same_iff.mp hSame
          refine .inl ⟨kernels.length, rfl, ?_⟩
          simp
      | false =>
          have hNe : kernel ≠ other := fun hIs => by simp [same_iff.mpr hIs] at hSame
          rcases ih with ⟨state, hPlace, hKernel⟩ | ⟨hPlace, hNew⟩
          · refine .inl ⟨state, hPlace, ?_⟩
            have hLess := (List.getElem?_eq_some_iff.mp hKernel).1
            rw [List.reverse_cons, List.getElem?_append_left hLess, hKernel]
          · exact .inr ⟨hPlace, by simp [hNe, hNew]⟩

/-- A kernel gets the same number. -/
theorem Agrees.numberOf (h : f.Agrees m) (hNumbered : m.Numbered) (kernel : Kernel) :
    (m.numberOf kernel).1 = (place? kernel f.kernels).getD f.kernels.length
      ∧ Agrees ⟨if (place? kernel f.kernels).isSome then f.kernels else kernel :: f.kernels, f.rows⟩
          (m.numberOf kernel).2 := by
  have hSize : m.kernels.size = f.kernels.length := by
    rw [← Array.length_toList, h.kernels, List.length_reverse]
  unfold Automaton.numberOf
  rcases place?_spec kernel f.kernels with ⟨state, hPlace, hKernel⟩ | ⟨hPlace, hNew⟩
  · have hNumber : m.numbers[kernel]? = some state := by
      refine (hNumbered kernel state).mpr ?_
      rw [← Array.getElem?_toList, h.kernels, hKernel]
    rw [hNumber, hPlace]
    exact ⟨rfl, h⟩
  · have hNumber : m.numbers[kernel]? = none := by
      refine Option.eq_none_iff_forall_ne_some.mpr fun state hState => hNew ?_
      have hMem := Array.mem_of_getElem? ((hNumbered kernel state).mp hState)
      rwa [← Array.mem_toList_iff, h.kernels, List.mem_reverse] at hMem
    rw [hNumber, hPlace]
    refine ⟨hSize, ?_, h.transitions⟩
    simp [h.kernels]

/-- Entering the kernels that a state reaches keeps both sides in step. -/
theorem Agrees.enter (reached : List (SymbolId × Kernel)) (row : List (SymbolId × StateId))
    (h : f.Agrees m) (hNumbered : m.Numbered) :
    let result := reached.foldl (fun (row, m) (symbol, target) =>
      let (state, m) := Automaton.numberOf m target
      ((symbol, state) :: row, m)) (row, m)
    (Found.enter reached row f.kernels).1 = result.1
      ∧ Agrees ⟨(Found.enter reached row f.kernels).2, f.rows⟩ result.2 := by
  induction reached generalizing row f m with
  | nil => exact ⟨rfl, h⟩
  | cons move reached ih =>
      obtain ⟨symbol, kernel⟩ := move
      obtain ⟨hNumber, hNext⟩ := h.numberOf hNumbered kernel
      have hRest := ih ((symbol, (m.numberOf kernel).1) :: row) hNext
        (numberOf_spec hNumbered kernel).2.1
      rw [Found.enter]
      cases hPlace : place? kernel f.kernels with
      | some state =>
          rw [hPlace] at hRest hNumber
          simpa [hNumber] using hRest
      | none =>
          rw [hPlace] at hRest hNumber
          simpa [hNumber] using hRest

/-- Expanding a state keeps both sides in step. -/
theorem Agrees.expand (hRules : ∀ info ∈ g.rules, info.lhs < g.symbols.size) (h : f.Agrees m)
    (hNumbered : m.Numbered) (kernel : Kernel) :
    Agrees ⟨(Found.enter (g.reached kernel) [] f.kernels).2,
        (Found.enter (g.reached kernel) [] f.kernels).1.reverse :: f.rows⟩
      (m.expand (.ofGrammar g) kernel) := by
  obtain ⟨hRow, hNext⟩ := h.enter ((Augmented.ofGrammar g).successors kernel) [] hNumbered
  rw [Grammar.reached_eq hRules]
  refine ⟨hNext.kernels, ?_⟩
  have hTransitions := hNext.transitions
  dsimp only at hTransitions hRow
  rw [Automaton.expand]
  simp only [Array.toList_push, List.reverse_cons]
  rw [hTransitions, hRow]

/-- The two constructions go on in step. -/
theorem Agrees.explore (hRules : ∀ info ∈ g.rules, info.lhs < g.symbols.size) (limit : Nat)
    (h : f.Agrees m) (hExplored : m.Explored (.ofGrammar g)) {found : Found}
    (hFound : Found.explore g limit f = .ok found) :
    ∃ n, Automaton.explore (.ofGrammar g) limit m = .ok n ∧ found.Agrees n := by
  induction limit generalizing f m with
  | zero =>
      obtain rfl := Except.ok.inj hFound
      exact ⟨m, rfl, h⟩
  | succ limit ih =>
      have hSize : m.transitions.size = f.rows.length := by
        rw [← Array.length_toList, h.transitions, List.length_reverse]
      rw [Found.explore, ← h.kernels, ← hSize, Array.getElem?_toList] at hFound
      rw [Automaton.explore]
      cases hKernel : m.kernels[m.transitions.size]? with
      | none =>
          rw [hKernel] at hFound
          obtain rfl := Except.ok.inj hFound
          exact ⟨m, rfl, h⟩
      | some kernel =>
          have hNext := h.expand hRules hExplored.numbered kernel
          have hCount : (m.expand (.ofGrammar g) kernel).kernels.size
              = (Found.enter (g.reached kernel) [] f.kernels).2.length := by
            rw [← Array.length_toList, hNext.kernels, List.length_reverse]
          rw [hKernel] at hFound
          dsimp only at hFound ⊢
          rw [← hCount] at hFound
          cases hFull : Nat.blt maxStates (m.expand (.ofGrammar g) kernel).kernels.size with
          | true => simp [hFull] at hFound
          | false =>
              have hFits : ¬ maxStates < (m.expand (.ofGrammar g) kernel).kernels.size := by
                rw [← Nat.blt_eq, hFull]
                exact Bool.false_ne_true
              rw [hFull] at hFound
              rw [if_neg hFits]
              exact ih hNext (hExplored.expand hKernel) hFound

end

/-- The automaton itself. -/
def toAutomaton (f : Found) : Automaton :=
  ⟨f.kernels.reverse.toArray, ∅, f.rows.reverse.toArray⟩

end Found

/-- The automaton of a grammar is found on lists. -/
theorem exists_ofGrammar {g : Grammar} (hRules : ∀ info ∈ g.rules, info.lhs < g.symbols.size)
    {found : Found} (hFound : Found.ofGrammar g = .ok found) :
    ∃ m, ofGrammar (.ofGrammar g) = .ok m ∧ found.Agrees m := by
  refine Found.Agrees.explore hRules _ ⟨?_, rfl⟩ (explored_initial _) hFound
  simp [initial]

end Automaton

namespace Tables

/-- The tables for an automaton. -/
def ofAutomaton (g : Grammar) (m : Automaton) : Tables :=
  let a := Augmented.ofGrammar g
  let offsets := m.offsets
  let sets := m.lookaheads a
  let states := Array.range m.kernels.size
  { name := g.name
    symbols := g.symbols
    fields := g.fields
    terminalCount := g.terminalCount
    start := g.start
    rules := g.rules.map (·.toProduction)
    tokenPrecedence := g.tokenPrecedence
    stateCount := m.kernels.size
    actions := states.flatMap fun state => m.actions g (m.completions a offsets sets state) state
    gotos := states.flatMap fun state => m.gotos g state }

/-- The tables of a grammar are those for the automaton that is found on lists. -/
theorem ofGrammar_eq_ok {g : Grammar} (hRules : ∀ info ∈ g.rules, info.lhs < g.symbols.size)
    {found : Automaton.Found} (hFound : Automaton.Found.ofGrammar g = .ok found) :
    ofGrammar g = .ok (ofAutomaton g found.toAutomaton) := by
  obtain ⟨⟨kernels, numbers, transitions⟩, hStates, hKernels, hTransitions⟩ :=
    Automaton.exists_ofGrammar hRules hFound
  obtain rfl : kernels = found.kernels.reverse.toArray := Array.toList_inj.mp hKernels
  obtain rfl : transitions = found.rows.reverse.toArray := Array.toList_inj.mp hTransitions
  rw [ofGrammar, hStates]
  rfl

end Tables
end IncrementalParsing
