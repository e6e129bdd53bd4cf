import IncrementalParsing.Proofs.Automaton.Bounding
import IncrementalParsing.Proofs.Automaton.Reaching
import IncrementalParsing.Proofs.Automaton.Viable
import IncrementalParsing.Proofs.Grammar.Beginning

/-! The canonical automaton, whose items have one terminal behind them each. The lookahead sets of the
automaton are exactly what its states of the same items have behind them. -/
namespace IncrementalParsing
namespace Canonical

/-- A state of the canonical automaton: its items, each with a terminal that may stand behind it. -/
abbrev State := Item → SymbolId → Prop

/-- The items that some items stand for: themselves, and the beginnings of the rules of every symbol that
one of them waits for. What may stand behind such a rule begins what stands behind the symbol. -/
inductive Closure (g : Grammar) (kernel : State) : Item → SymbolId → Prop
  | kernel {item : Item} {behind : SymbolId} (hKernel : kernel item behind) :
      Closure g kernel item behind
  | expand {item : Item} {behind : SymbolId} {rule : RuleId} {info : Rule} {tokens : List SymbolId}
      (hItem : Closure g kernel item behind) (hRule : g.rules[rule]? = some info)
      (hNext : (Augmented.ofGrammar g).next? item = some info.lhs)
      (hRest : g.StandsFor ((Augmented.ofGrammar g).rest item) tokens) :
      Closure g kernel ⟨rule, 0⟩ (tokens.headD behind)

/-- The first state. Only the end of the input stands behind the added rule. -/
def start (g : Grammar) : State :=
  Closure g fun item behind => item = ⟨g.rules.size, 0⟩ ∧ behind = endSymbol

/-- The state behind a symbol, made from the items that have taken it along. -/
def goto (g : Grammar) (I : State) (symbol : SymbolId) : State :=
  Closure g fun item behind => ∃ source, I source behind
    ∧ (Augmented.ofGrammar g).next? source = some symbol ∧ item = source.advance

/-- The states that the first one leads to. A symbol leads on if an item waits for it. -/
inductive Reachable (g : Grammar) : State → Prop
  | start : Reachable g (start g)
  | goto {I : State} {item : Item} {behind symbol : SymbolId} (h : Reachable g I)
      (hItem : I item behind) (hNext : (Augmented.ofGrammar g).next? item = some symbol) :
      Reachable g (goto g I symbol)

/-- The items of a state without what stands behind them. -/
def core (I : State) (item : Item) : Prop := ∃ behind, I item behind

/-- The state behind some symbols, the last one first. -/
def after (g : Grammar) : List SymbolId → State
  | [] => start g
  | symbol :: stack => goto g (after g stack) symbol

variable {g : Grammar} {m : Automaton}

section Closures
variable {kernel : State} {item : Item} {behind : SymbolId}

theorem Closure.begins (h : Closure g kernel item behind) {symbol : SymbolId} {expansion : Item}
    (hNext : (Augmented.ofGrammar g).next? item = some symbol)
    (hExpansion : expansion ∈ (Augmented.ofGrammar g).expansions symbol) {tokens : List SymbolId}
    (hRest : g.StandsFor ((Augmented.ofGrammar g).rest item) tokens) :
    Closure g kernel expansion (tokens.headD behind) := by
  obtain ⟨hDot, -, info, hRule, rfl⟩ := Augmented.mem_expansions.mp hExpansion
  obtain ⟨rule, dot⟩ := expansion
  obtain rfl : dot = 0 := hDot
  exact h.expand hRule hNext hRest

/-- Without what stands behind them, the items of a closure are those of the closure without lookahead. -/
theorem Closure.closure (hProper : g.Proper) {items : Kernel}
    (hKernel : ∀ item behind, kernel item behind → item ∈ items) (h : Closure g kernel item behind) :
    (Augmented.ofGrammar g).Closure items item := by
  induction h with
  | kernel hItem => exact .kernel (hKernel _ _ hItem)
  | @expand _ _ rule info _ _ hRule hNext _ ih =>
      obtain ⟨hFirst, hLast⟩ := hProper.lhs info (Array.mem_of_getElem? hRule)
      refine .expand ih hNext (decide_eq_false (Nat.not_lt.mpr hFirst)) ?_
      exact Augmented.mem_expansions.mpr ⟨rfl, hLast, info, hRule, rfl⟩

/-- All symbols of an item are symbols of the grammar. -/
theorem lt_of_mem_rest (hProper : g.Proper) (item : Item) :
    ∀ symbol ∈ (Augmented.ofGrammar g).rest item, symbol < g.symbols.size := by
  intro symbol hMem
  have hIn : symbol ∈ ((Augmented.ofGrammar g).symbolsOf item.rule).toList := by
    rw [Augmented.rest, Array.toList_extract, List.extract_eq_take_drop] at hMem
    exact List.mem_of_mem_drop (List.mem_of_mem_take hMem)
  rcases Nat.lt_trichotomy item.rule g.rules.size with hLess | hSame | hMore
  · rw [Augmented.symbolsOf_rule (Array.getElem?_eq_getElem hLess)] at hIn
    exact (hProper.symbol _ (Array.getElem_mem hLess) symbol (by simpa using hIn)).1
  · rw [hSame, Augmented.symbolsOf_startRule] at hIn
    obtain rfl : symbol = g.start := by simpa using hIn
    exact hProper.start.2
  · rw [Augmented.symbolsOf_beyond hMore] at hIn
    simp at hIn

/-- Every item of a closure has something behind it. -/
theorem exists_behind (hProper : g.Proper) (hProductive : g.Productive) {items : Kernel}
    (hItems : ∀ item ∈ items, ∃ behind, Closure g kernel item behind)
    (h : (Augmented.ofGrammar g).Closure items item) : ∃ behind, Closure g kernel item behind := by
  induction h with
  | kernel hMem => exact hItems _ hMem
  | @expand item _ _ _ hNext _ hExpansion ih =>
      obtain ⟨behind, hBehind⟩ := ih
      obtain ⟨tokens, hTokens⟩ := Grammar.exists_standsFor_form fun other hMem =>
        hProductive other (lt_of_mem_rest hProper item other hMem)
      exact ⟨_, hBehind.begins hNext hExpansion hTokens⟩

/-- In the closure of one item with a mark, an item has behind it what begins something there, and where
it has the mark it has whatever stands behind the item that the closure is made from. -/
theorem of_follower (hProper : g.Proper) (hProductive : g.Productive) {k : Item} {i : Nat}
    (hK : Closure g kernel k behind)
    (h : Augmented.Follower g [(k, .singleton g.terminalCount)] item i) :
    (i < g.terminalCount ∧ Closure g kernel item i)
      ∨ (i = g.terminalCount ∧ Closure g kernel item behind) := by
  induction h with
  | seed hMem hSet =>
      obtain rfl := List.mem_singleton.mp hMem
      exact .inr ⟨by simpa using Eq.symm (of_decide_eq_true (by simpa using hSet)), hK⟩
  | @begins item _ _ i hItem hNext _ hExpansion hFirst =>
      obtain ⟨other, hOther⟩ := exists_behind hProper hProductive (by simpa using ⟨behind, hK⟩) hItem
      obtain ⟨tokens, hTokens, hHead⟩ :=
        Grammar.begins_ofSequence hProper hProductive (lt_of_mem_rest hProper item) hFirst
      have hBegins : tokens.headD other = i := by simp [List.headD_eq_head?_getD, hHead]
      obtain ⟨_, hYields⟩ := hTokens
      exact .inl ⟨of_decide_eq_true (hYields.isTerminal i (List.mem_of_mem_head? hHead)),
        hBegins ▸ hOther.begins hNext hExpansion ⟨_, hYields⟩⟩
  | @passes item _ _ i _ hNext _ hExpansion hEmpty ih =>
      have hNone : g.StandsFor ((Augmented.ofGrammar g).rest item) [] := by
        refine Grammar.standsFor_nil_of_nullable fun other hMem => ?_
        rw [← Grammar.isNullable_firstSets]
        exact hEmpty other hMem
      exact ih.imp (And.imp_right fun hItem => hItem.begins hNext hExpansion hNone)
        (And.imp_right fun hItem => hItem.begins hNext hExpansion hNone)

/-- The same for the closures that states are. -/
theorem after_of_follower (hProper : g.Proper) (hProductive : g.Productive) {stack : List SymbolId}
    {k : Item} {i : Nat} (hK : after g stack k behind)
    (h : Augmented.Follower g [(k, .singleton g.terminalCount)] item i) :
    (i < g.terminalCount ∧ after g stack item i) ∨ (i = g.terminalCount ∧ after g stack item behind) := by
  cases stack with
  | nil => exact of_follower hProper hProductive hK h
  | cons symbol stack => exact of_follower hProper hProductive hK h

end Closures

section Paths
variable {steps : List (SymbolId × StateId)} {item : Item}

/-- Behind the symbols of a path the items are those of the state at its end. -/
theorem core_after (hStates : Automaton.ofGrammar (.ofGrammar g) = .ok m) (hProper : g.Proper)
    (hProductive : g.Productive) (hPath : m.Path steps) :
    core (after g (steps.map (·.1))) item ↔ m.Holds (.ofGrammar g) (Automaton.endOf steps) item := by
  have h := Automaton.explored_ofGrammar hStates
  have hClosures : ∀ {kernel : State} {items : Kernel},
      (∀ item, (∃ behind, kernel item behind) ↔ item ∈ items) → ∀ item,
        core (Closure g kernel) item ↔ (Augmented.ofGrammar g).Closure items item := by
    intro kernel items hKernel item
    refine ⟨fun ⟨behind, hItem⟩ => hItem.closure hProper fun item behind hItem =>
      (hKernel item).mp ⟨behind, hItem⟩, exists_behind hProper hProductive fun item hMem => ?_⟩
    obtain ⟨behind, hItem⟩ := (hKernel item).mpr hMem
    exact ⟨behind, .kernel hItem⟩
  induction hPath generalizing item with
  | nil =>
      refine hClosures (fun item => ?_) item
      rw [Automaton.endOf, Automaton.getD_kernels h.initial, Augmented.startRule_ofGrammar]
      simp
  | @cons steps symbol next hPath hMove ih =>
      refine hClosures (fun item => ?_) item
      rw [Automaton.endOf, h.mem_target hMove]
      constructor
      · rintro ⟨behind, source, hSource, hNext, rfl⟩
        exact ⟨source, ih.mp ⟨behind, hSource⟩, hNext, rfl⟩
      · rintro ⟨source, hSource, hNext, rfl⟩
        obtain ⟨behind, hBehind⟩ := ih.mpr hSource
        exact ⟨behind, source, hBehind, hNext, rfl⟩

/-- What stands behind an item in the canonical automaton is expected there. -/
theorem viable_of_after (hStates : Automaton.ofGrammar (.ofGrammar g) = .ok m) (hProper : g.Proper)
    (hPath : m.Path steps) {behind : SymbolId} (hItem : after g (steps.map (·.1)) item behind) :
    m.Viable g steps item behind := by
  have h := Automaton.explored_ofGrammar hStates
  have hClosures : ∀ {kernel : State} {steps : List (SymbolId × StateId)},
      (∀ item behind, kernel item behind → m.Viable g steps item behind) →
        ∀ {item behind}, Closure g kernel item behind → m.Viable g steps item behind := by
    intro kernel steps hKernel item behind hItem
    induction hItem with
    | kernel hItem => exact hKernel _ _ hItem
    | expand _ hRule hNext hRest ih =>
        obtain ⟨_, hYields⟩ := hRest
        exact ih.expand hProper hRule hNext hYields
  induction hPath generalizing item behind with
  | nil =>
      refine hClosures ?_ hItem
      rintro _ _ ⟨rfl, rfl⟩
      exact h.viable_start hProper
  | @cons steps symbol next hPath hMove ih =>
      refine hClosures ?_ hItem
      rintro _ behind ⟨source, hSource, hNext, rfl⟩
      obtain ⟨other, hOther, hViable⟩ := (ih hSource).advance hStates hProper hNext
      obtain rfl := h.move_unique hMove hOther
      exact hViable

/-- The symbols of a path lead through the canonical automaton. -/
theorem reachable_after (hStates : Automaton.ofGrammar (.ofGrammar g) = .ok m) (hProper : g.Proper)
    (hProductive : g.Productive) (hPath : m.Path steps) : Reachable g (after g (steps.map (·.1))) := by
  induction hPath with
  | nil => exact .start
  | cons hPath hMove ih =>
      obtain ⟨waiting, hHolds, hNext⟩ := (Automaton.explored_ofGrammar hStates).exists_waiting hMove
      obtain ⟨behind, hBehind⟩ := (core_after hStates hProper hProductive hPath).mpr hHolds
      exact .goto ih hBehind hNext

/-- Every state of the canonical automaton lies behind the symbols of a path. -/
theorem Reachable.exists_path (hStates : Automaton.ofGrammar (.ofGrammar g) = .ok m)
    (hProper : g.Proper) (hProductive : g.Productive) {I : State} (h : Reachable g I) :
    ∃ steps, m.Path steps ∧ I = after g (steps.map (·.1)) := by
  induction h with
  | start => exact ⟨[], .nil, rfl⟩
  | goto _ hItem hNext ih =>
      obtain ⟨steps, hPath, rfl⟩ := ih
      have hHolds := (core_after hStates hProper hProductive hPath).mp ⟨_, hItem⟩
      obtain ⟨next, hMove⟩ := Automaton.exists_move hStates hHolds hNext
      exact ⟨_, hPath.cons hMove, rfl⟩

end Paths
end Canonical
end IncrementalParsing
