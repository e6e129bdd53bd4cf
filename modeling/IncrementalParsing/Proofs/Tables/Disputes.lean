import IncrementalParsing.Proofs.Automaton.Awaiting
import IncrementalParsing.Proofs.Automaton.Bounding
import IncrementalParsing.Proofs.Automaton.Search
import IncrementalParsing.Proofs.Tables.Precedence

/-! What is left to be settled when tables are made. For many grammars it can be listed where a shift
and a reduction meet, because nowhere else may the terminal stand behind the rule. Apart from these
places, tables do what a sentence needs. -/
namespace IncrementalParsing

/-- No two complete items of a state may have the same terminal behind their rules, and a transition
by such a terminal meets a complete item only where this is disputed. -/
structure Automaton.Disputes (g : Grammar) (m : Automaton) (follow : SymbolId → IdSet)
    (disputed : Rule → SymbolId → Bool) : Prop where
  complete : ∀ {state : StateId} {item other : Item} {terminal : SymbolId},
    m.Holds (.ofGrammar g) state item → (Augmented.ofGrammar g).next? item = none →
    m.Holds (.ofGrammar g) state other → (Augmented.ofGrammar g).next? other = none →
    (g.behind follow item.rule).contains terminal = true →
    (g.behind follow other.rule).contains terminal = true → item.rule = other.rule
  shift : ∀ {state next : StateId} {item : Item} {info : Rule} {terminal : SymbolId},
    m.Holds (.ofGrammar g) state item → (Augmented.ofGrammar g).next? item = none →
    g.rules[item.rule]? = some info → (terminal, next) ∈ m.transitions.getD state [] →
    g.isTerminal terminal = true → (g.behind follow item.rule).contains terminal = true →
    disputed info terminal = true

section Check
variable (g : Grammar) (first : FirstSets) (follow : SymbolId → IdSet)
  (disputed : Rule → SymbolId → Bool)

/-- Whether one set holds another. -/
def IdSet.covers (s t : IdSet) : Bool := (t.union s).bits == s.bits

/-- Whether sets are closed under the rules. -/
def Grammar.closedFirst : Bool :=
  Nat.beq first.terminalCount g.terminalCount && g.rules.toList.all fun info =>
    (!info.symbols.all first.isNullable || first.isNullable info.lhs)
      && (first.nonterminals.getD (info.lhs - g.terminalCount) .empty).covers
        (first.ofSequence info.symbols .empty)

/-- Whether the sets hold what follows each of the last symbols of a rule. -/
def Grammar.followsIn (lhs : SymbolId) : (form : List SymbolId) → Bool
  | [] => true
  | symbol :: back =>
      (follow symbol).covers (first.ofSequence back (follow lhs)) && followsIn lhs back

/-- The rules that are complete in a state: those of complete items of the kernel, and the empty rules
of the symbols that lead on. -/
def Automaton.Found.completed (kernel : Kernel) (row : List (SymbolId × StateId)) : List RuleId :=
  (kernel.filter fun item => ((g.sides.getD item.rule [])[item.dot]?).isNone).map (·.rule)
    ++ ((g.rules.toList.zipIdx.filter fun x =>
      x.1.symbols.isEmpty && row.any fun move => Nat.beq move.1 x.1.lhs).map (·.2))

/-- Whether nothing else meets in a state than what is disputed. -/
def Automaton.Found.peaceful (kernel : Kernel) (row : List (SymbolId × StateId)) : Bool :=
  let complete := completed g kernel row
  complete.all fun rule =>
    (complete.all fun other =>
      Nat.beq rule other || ((g.behind follow rule).inter (g.behind follow other)).bits == 0)
    && row.all fun move =>
      !Nat.blt move.1 g.terminalCount || !(g.behind follow rule).contains move.1
        || (g.rules.toList[rule]?).any fun info => disputed info move.1

/-- Whether the states that are found are peaceful. -/
def Automaton.Found.allPeaceful (f : Automaton.Found) : Bool :=
  Nat.beq f.kernels.length f.rows.length
    && (f.kernels.zip f.rows).all fun x => peaceful g follow disputed x.1 x.2

end Check

variable {g : Grammar} {m : Automaton} {first : FirstSets} {follow : SymbolId → IdSet}
  {disputed : Rule → SymbolId → Bool}

theorem IdSet.subset_of_covers {s t : IdSet} (h : s.covers t = true) : t.Subset s := by
  have hSame : t.union s = s := congrArg IdSet.mk (eq_of_beq h)
  have hSubset := IdSet.subset_union_left t s
  rwa [hSame] at hSubset

theorem IdSet.not_contains_of_inter {s t : IdSet} (h : (s.inter t).bits = 0) {i : Nat}
    (hFirst : s.contains i = true) : t.contains i = false := by
  have hNone : (s.inter t).contains i = false := by
    rw [IdSet.contains, h, Nat.zero_testBit]
  simpa [hFirst] using hNone

theorem Grammar.closes_of_check (hCheck : g.closedFirst first = true) : g.Closes first := by
  rw [closedFirst, Bool.and_eq_true] at hCheck
  have hRules : ∀ info ∈ g.rules, _ := fun info hMem =>
    Bool.and_eq_true_iff.mp (List.all_eq_true.mp hCheck.2 info (Array.mem_toList_iff.mpr hMem))
  refine ⟨Nat.eq_of_beq_eq_true hCheck.1, fun info hMem hAll => ?_, fun info hMem => ?_⟩
  · simpa [List.all_eq_true.mpr hAll] using (hRules info hMem).1
  · exact IdSet.subset_of_covers (hRules info hMem).2

theorem Grammar.following_of_check (hFirst : g.closedFirst first = true)
    (hStart : (follow g.start).contains endSymbol = true)
    (hRules : (g.rules.toList.all fun info => followsIn first follow info.lhs info.symbols) = true) :
    g.Following follow where
  start := hStart
  rule := by
    intro info hMem front symbol back hSymbols
    have hInfo := List.all_eq_true.mp hRules info (by simpa using hMem)
    rw [hSymbols] at hInfo
    clear hSymbols
    induction front with
    | nil =>
        rw [List.nil_append, followsIn, Bool.and_eq_true] at hInfo
        exact ((closes_of_check hFirst).firstSets_below.ofSequence (.refl _) back).trans
          (IdSet.subset_of_covers hInfo.1)
    | cons first front ih =>
        rw [List.cons_append, followsIn, Bool.and_eq_true] at hInfo
        exact ih hInfo.2

namespace Automaton

/-- An item that is complete in a state is listed there. -/
theorem Found.mem_completed (hStates : Automaton.ofGrammar (.ofGrammar g) = .ok m) {state : StateId}
    {item : Item}
    (hHolds : m.Holds (.ofGrammar g) state item)
    (hComplete : (Augmented.ofGrammar g).next? item = none) :
    item.rule ∈ completed g (m.kernels.getD state []) (m.transitions.getD state []) := by
  cases hHolds with
  | kernel hMem =>
      refine List.mem_append_left _ (List.mem_map_of_mem (List.mem_filter.mpr ⟨hMem, ?_⟩))
      rw [Grammar.getElem?_sides, hComplete]
      rfl
  | @expand source _ symbol hSource hNext _ hExpansion =>
      obtain ⟨hDot, -, info, hRule, rfl⟩ := Augmented.mem_expansions.mp hExpansion
      obtain ⟨next, hMove⟩ := exists_move hStates hSource hNext
      refine List.mem_append_right _ (List.mem_map.mpr ⟨(info, item.rule), ?_, rfl⟩)
      have hEmpty : info.symbols = [] := by
        rw [Augmented.next?, Augmented.symbolsOf_rule hRule, hDot] at hComplete
        simpa using hComplete
      refine List.mem_filter.mpr ⟨?_, ?_⟩
      · rw [List.mk_mem_zipIdx_iff_getElem?, Array.getElem?_toList]
        exact hRule
      · simp only [hEmpty, List.isEmpty_nil, Bool.true_and, List.any_eq_true]
        exact ⟨_, hMove, Nat.beq_refl _⟩

/-- The states are peaceful if those are that are found on lists. -/
theorem Found.peaceful_of_check {f : Found} (h : f.Agrees m)
    (hCheck : f.allPeaceful g follow disputed = true) {state : Nat} {kernel : Kernel}
    (hKernel : m.kernels[state]? = some kernel) :
    peaceful g follow disputed kernel (m.transitions.getD state []) = true := by
  rw [allPeaceful, Bool.and_eq_true] at hCheck
  have hLength : f.kernels.length = f.rows.length := Nat.eq_of_beq_eq_true hCheck.1
  rw [← Array.getElem?_toList, h.kernels] at hKernel
  have hLess : state < f.kernels.length := by
    simpa using (List.getElem?_eq_some_iff.mp hKernel).1
  rw [List.getElem?_reverse hLess] at hKernel
  obtain ⟨row, hRow⟩ : ∃ row, f.rows[f.kernels.length - 1 - state]? = some row :=
    ⟨_, List.getElem?_eq_getElem (by omega)⟩
  have hGet : m.transitions.getD state [] = row := by
    rw [Array.getD_eq_getD_getElem?, ← Array.getElem?_toList, h.transitions,
      List.getElem?_reverse (hLength ▸ hLess), ← hLength, hRow]
    rfl
  rw [hGet]
  exact List.all_eq_true.mp hCheck.2 (kernel, row)
    (List.mem_of_getElem? (List.getElem?_zip_eq_some.mpr ⟨hKernel, hRow⟩))

theorem disputes_of_check (hStates : ofGrammar (.ofGrammar g) = .ok m) {f : Found} (h : f.Agrees m)
    (hCheck : f.allPeaceful g follow disputed = true) : m.Disputes g follow disputed := by
  have hPeaceful : ∀ {state : StateId} {item : Item}, m.Holds (.ofGrammar g) state item →
      Found.peaceful g follow disputed (m.kernels.getD state [])
        (m.transitions.getD state []) = true := by
    intro state item hHolds
    cases hKernel : m.kernels[state]? with
    | none =>
        have hNone : m.kernels.getD state [] = [] := by
          rw [Array.getD_eq_getD_getElem?, hKernel]
          rfl
        rw [Holds, hNone] at hHolds
        obtain ⟨slot, k, hSlot, -⟩ := hHolds.from_one
        simp at hSlot
    | some kernel =>
        have hHere := Automaton.getD_kernels hKernel
        rw [hHere]
        exact Found.peaceful_of_check h hCheck hKernel
  refine ⟨?_, ?_⟩
  · intro state item other terminal hItem hItemDone hOther hOtherDone hFirst hSecond
    have hAll := List.all_eq_true.mp (hPeaceful hItem) _ (Found.mem_completed hStates hItem hItemDone)
    rw [Bool.and_eq_true] at hAll
    have hApart := List.all_eq_true.mp hAll.1 _ (Found.mem_completed hStates hOther hOtherDone)
    rw [Bool.or_eq_true, beq_iff_eq] at hApart
    rcases hApart with hSame | hNone
    · exact Nat.eq_of_beq_eq_true hSame
    · rw [IdSet.not_contains_of_inter hNone hFirst] at hSecond
      simp at hSecond
  · intro state next item info terminal hItem hItemDone hRule hMove hTerminal hBehind
    have hAll := List.all_eq_true.mp (hPeaceful hItem) _ (Found.mem_completed hStates hItem hItemDone)
    rw [Bool.and_eq_true] at hAll
    have hHere := List.all_eq_true.mp hAll.2 _ hMove
    have hLess : Nat.blt terminal g.terminalCount = true := by
      rw [Nat.blt_eq]
      exact of_decide_eq_true hTerminal
    simpa [hLess, hBehind, hRule] using hHere

end Automaton

namespace Tables

/-- What the tables do next on a path, so that its symbols and the rest still make up a sentence. -/
inductive Guided (t : Tables) (g : Grammar) (steps : List (SymbolId × StateId))
    (rest : List SymbolId) : Prop
  | shift (token : SymbolId) (tokens : List SymbolId) (next : StateId) (hRest : rest = token :: tokens)
      (hShift : t.action (Automaton.endOf steps) token = .shift next)
      (hAwaits : g.Awaits (steps.map (·.1)) token tokens)
  | reduce (rule : RuleId) (info : Rule) (above below : List (SymbolId × StateId))
      (hRule : g.rules[rule]? = some info) (hSteps : steps = above ++ below)
      (hSymbols : (above.map (·.1)).reverse = info.symbols)
      (hReduce : t.action (Automaton.endOf steps) (rest.headD endSymbol) = .reduce rule)
      (hAwaits : g.Awaits (below.map (·.1)) info.lhs rest)
  | accept (hAccept : t.action (Automaton.endOf steps) endSymbol = .accept) (hRest : rest = [])

/-- A disputed place on a path: a shift and a reduction are both considered, and one of them keeps a
sentence. -/
structure Disputed (g : Grammar) (m : Automaton) (disputed : Rule → SymbolId → Bool)
    (steps : List (SymbolId × StateId)) (token : SymbolId) (next : StateId) (rule : RuleId) (info : Rule)
    (above below : List (SymbolId × StateId)) : Prop where
  isRule : g.rules[rule]? = some info
  split : steps = above ++ below
  symbols : (above.map (·.1)).reverse = info.symbols
  shift : .shift next ∈ m.candidates g (Automaton.endOf steps) token
  reduce : .reduce rule ∈ m.candidates g (Automaton.endOf steps) token
  disputed : disputed info token = true

/-- The next action of the tables is disputed, and the action that has lost keeps a sentence. -/
def AtDispute (t : Tables) (g : Grammar) (m : Automaton) (disputed : Rule → SymbolId → Bool)
    (steps : List (SymbolId × StateId)) (rest : List SymbolId) : Prop :=
  ∃ token tokens next rule info above below, rest = token :: tokens
    ∧ Disputed g m disputed steps token next rule info above below
    ∧ ((t.action (Automaton.endOf steps) token = .shift next ∧ g.Awaits (below.map (·.1)) info.lhs rest)
      ∨ (t.action (Automaton.endOf steps) token = .reduce rule
        ∧ g.Awaits (steps.map (·.1)) token tokens))

namespace Faithful
open Generated
variable {t : Tables}

/-- Where a token is awaited, its shift is considered. -/
theorem exists_shift_candidate (h : Faithful g m t) (hProper : g.Proper)
    {steps : List (SymbolId × StateId)} (hPath : m.Path steps) {token : SymbolId}
    {rest : List SymbolId} (hAwaits : g.Awaits (steps.map (·.1)) token rest)
    (hTerminal : g.isTerminal token = true) :
    ∃ next, (token, next) ∈ m.transitions.getD (Automaton.endOf steps) []
      ∧ .shift next ∈ m.candidates g (Automaton.endOf steps) token := by
  obtain ⟨item, hNext, _, _, _, _, hViable⟩ :=
    Automaton.exists_waits h.states hProper hAwaits hPath rfl
  obtain ⟨next, hMove⟩ := Automaton.exists_move h.states hViable.holds hNext
  exact ⟨next, hMove, h.shift_mem_candidates hMove hTerminal⟩

/-- Where a rule is awaited below its symbols, its reduction is considered. -/
theorem reduce_candidate (h : Faithful g m t) (hProper : g.Proper)
    {above below : List (SymbolId × StateId)} (hPath : m.Path (above ++ below)) {rule : RuleId}
    {info : Rule} (hRule : g.rules[rule]? = some info)
    (hSymbols : (above.map (·.1)).reverse = info.symbols) {rest : List SymbolId}
    (hAwaits : g.Awaits (below.map (·.1)) info.lhs rest) :
    .reduce rule ∈ m.candidates g (Automaton.endOf (above ++ below)) (rest.headD endSymbol) := by
  have hViable := Automaton.viable_complete h.states hProper hPath hRule hSymbols hAwaits
  have hNone : (Augmented.ofGrammar g).next? ⟨rule, info.symbols.length⟩ = none :=
    next?_of_drop_nil (by simp [Augmented.symbolsOf_rule hRule])
  refine h.complete_mem_candidates hProper hViable hNone fun set hContains => ?_
  have hLess : rule < g.rules.size := (Array.getElem?_eq_some_iff.mp hRule).1
  rw [Grammar.candidate?, if_pos hContains, if_neg (Nat.ne_of_lt hLess), h.cellRule_eq hLess]

/-- Behind the start symbol, accepting is considered. -/
theorem accept_candidate (h : Faithful g m t) (hProper : g.Proper) {next : StateId}
    (hPath : m.Path [(g.start, next)]) :
    .accept ∈ m.candidates g (Automaton.endOf [(g.start, next)]) endSymbol := by
  have hNext : (Augmented.ofGrammar g).next? ⟨g.rules.size, 0⟩ = some g.start := by
    rw [Augmented.next?, Augmented.symbolsOf_startRule]
    rfl
  obtain ⟨other, hOther, hViable⟩ := (h.explored.viable_start hProper).advance h.states hProper hNext
  cases hPath with
  | cons _ hMove =>
  obtain rfl := h.explored.move_unique hMove hOther
  have hNone : (Augmented.ofGrammar g).next? (Item.advance ⟨g.rules.size, 0⟩) = none := by
    rw [Augmented.next?, Item.advance, Augmented.symbolsOf_startRule]
    rfl
  refine h.complete_mem_candidates hProper hViable hNone fun set hContains => ?_
  simp [Grammar.candidate?, hContains, Item.advance]

/-- A reduction that is considered finds its rule and the symbols of the rule on the path. -/
theorem exists_symbols_of_candidate (h : Faithful g m t) (hFollow : g.Following follow)
    {steps : List (SymbolId × StateId)} (hPath : m.Path steps) {terminal : SymbolId} {rule : RuleId}
    (hReduce : .reduce rule ∈ m.candidates g (Automaton.endOf steps) terminal) :
    ∃ info above below, g.rules[rule]? = some info ∧ steps = above ++ below
      ∧ (above.map (·.1)).reverse = info.symbols := by
  cases h.candidate_of_mem hFollow hReduce with
  | reduce item hHolds hComplete hRule _ =>
      have hLess : item.rule < g.rules.size := Nat.lt_of_le_of_ne (h.explored.rule_le hHolds) hRule
      have hInfo : g.rules[item.rule]? = some g.rules[item.rule] := Array.getElem?_eq_getElem hLess
      obtain ⟨seen, rest, rfl, -, hSeen, -, -⟩ := h.explored.seen hPath hHolds
      rw [Augmented.symbolsOf_rule hInfo] at hSeen
      rw [Augmented.next?, Augmented.symbolsOf_rule hInfo] at hComplete
      refine ⟨_, seen, rest, hInfo, rfl, ?_⟩
      rw [hSeen, List.take_of_length_le (by simpa using hComplete)]

/-- A rule whose reduction is considered is awaited below its symbols. -/
theorem exists_awaits_of_candidate (h : Faithful g m t) (hProper : g.Proper)
    (hProductive : g.Productive) (hFollow : g.Following follow)
    {above below : List (SymbolId × StateId)} (hPath : m.Path (above ++ below)) {rule : RuleId}
    {info : Rule} (hRule : g.rules[rule]? = some info)
    (hSymbols : (above.map (·.1)).reverse = info.symbols) {terminal : SymbolId}
    (hReduce : .reduce rule ∈ m.candidates g (Automaton.endOf (above ++ below)) terminal) :
    ∃ rest, g.Awaits (below.map (·.1)) info.lhs rest := by
  cases h.candidate_of_mem hFollow hReduce with
  | reduce item hHolds hComplete _ _ =>
      refine h.exists_awaits_below hProper hProductive hPath hHolds ?_ hRule
      obtain ⟨seen, _, _, hSize, hSeen, -, -⟩ := h.explored.seen hPath hHolds
      rw [Augmented.symbolsOf_rule hRule] at hSeen
      have hTaken := congrArg List.length hSeen
      rw [List.length_reverse, List.length_map, hSize, List.length_take] at hTaken
      rw [Augmented.next?, Augmented.symbolsOf_rule hRule] at hComplete
      have hAll : info.symbols.length ≤ item.dot := by simpa using hComplete
      rw [← List.length_map (f := (·.1)), ← List.length_reverse, hSymbols]
      exact Nat.le_antisymm hAll (hTaken ▸ Nat.min_le_right _ _)

/-- Only cells of the automaton have an action. -/
theorem bounds_of_action (h : Faithful g m t) {state : StateId} {token : SymbolId} {action : Action}
    (hAction : t.action state token = action) (hSome : action ≠ .error) :
    token < g.terminalCount ∧ state < m.kernels.size := by
  by_contra hOutside
  rw [h.action_eq, if_neg hOutside] at hAction
  exact hSome hAction.symm

/-- A reduction that stands in a cell was considered for it. -/
theorem reduce_mem_candidates (h : Faithful g m t) (hAssociates : g.Associates) {state : StateId}
    {token : SymbolId} {rule : RuleId} (hReduce : t.action state token = .reduce rule) :
    .reduce rule ∈ m.candidates g state token := by
  obtain ⟨hTerminal, hState⟩ := h.bounds_of_action hReduce (by simp)
  have hSettles := h.settles hAssociates hState hTerminal
  rw [hReduce] at hSettles
  exact mem_candidates.mpr (hSettles.known.imp_left fun hSame => ⟨hSame, by simp⟩)

/-- A reduction that stands in a cell where a shift is considered has won against it. -/
theorem arbitrate_of_reduce (h : Faithful g m t) (hAssociates : g.Associates)
    (hFollow : g.Following follow) (hDisputes : m.Disputes g follow disputed) {state next : StateId}
    {token : SymbolId} {rule : RuleId} (hReduce : t.action state token = .reduce rule)
    (hShift : .shift next ∈ m.candidates g state token) :
    g.arbitrate token (.shift next) rule = .reduce rule := by
  obtain ⟨hTerminal, hState⟩ := h.bounds_of_action hReduce (by simp)
  have hMem := h.reduce_mem_candidates hAssociates hReduce
  obtain ⟨other, hOther, hBeats⟩ := h.reduce_wins hAssociates hState hTerminal hReduce hShift
  cases h.candidate_of_mem hFollow hOther with
  | reduce item hHolds hComplete _ hBehind =>
  cases h.candidate_of_mem hFollow hMem with
  | reduce item' hHolds' hComplete' _ hBehind' =>
      rw [← hDisputes.complete hHolds hComplete hHolds' hComplete' hBehind hBehind']
      exact hBeats

/-- A shift has won against every reduction by a rule that is awaited in front of its token. -/
theorem arbitrate_of_shift (h : Faithful g m t) (hProper : g.Proper) (hAssociates : g.Associates)
    {above below : List (SymbolId × StateId)} (hPath : m.Path (above ++ below)) {rule : RuleId}
    {info : Rule} (hRule : g.rules[rule]? = some info)
    (hSymbols : (above.map (·.1)).reverse = info.symbols) {token : SymbolId} {rest : List SymbolId}
    (hAwaits : g.Awaits (below.map (·.1)) info.lhs (token :: rest)) {next : StateId}
    (hShift : t.action (Automaton.endOf (above ++ below)) token = .shift next) :
    g.arbitrate token (.shift next) rule = .shift next := by
  obtain ⟨hTerminal, hState⟩ := h.bounds_of_action hShift (by simp)
  exact h.shift_wins hAssociates hState hTerminal hShift
    (h.reduce_candidate hProper hPath hRule hSymbols hAwaits)

/-- Where an action is considered, the tables have one that is. -/
theorem winner_mem_candidates (h : Faithful g m t) (hAssociates : g.Associates)
    {steps : List (SymbolId × StateId)} (hPath : m.Path steps) {terminal : SymbolId} {action : Action}
    (hTerminal : g.isTerminal terminal = true)
    (hMem : action ∈ m.candidates g (Automaton.endOf steps) terminal) :
    t.action (Automaton.endOf steps) terminal ∈ m.candidates g (Automaton.endOf steps) terminal :=
  h.action_mem_candidates hAssociates (hPath.endOf_lt h.explored) (of_decide_eq_true hTerminal)
    (List.ne_nil_of_mem hMem)

section
variable (h : Faithful g m t) (hProper : g.Proper) (hAssociates : g.Associates)
  (hFollow : g.Following follow) (hDisputes : m.Disputes g follow disputed)
  {steps : List (SymbolId × StateId)} (hPath : m.Path steps) {rest : List SymbolId}
include h hProper hAssociates hFollow hDisputes hPath

/-- Where a token is awaited it is shifted, or a reduction has won a dispute against that. -/
theorem shifts_or_disputed {token : SymbolId} {tokens : List SymbolId} (hRest : rest = token :: tokens)
    (hTerminal : g.isTerminal token = true) (hAwaits : g.Awaits (steps.map (·.1)) token tokens) :
    t.Guided g steps rest ∨ t.AtDispute g m disputed steps rest := by
  obtain ⟨next, hMove, hShift⟩ := h.exists_shift_candidate hProper hPath hAwaits hTerminal
  have hMem := h.winner_mem_candidates hAssociates hPath hTerminal hShift
  generalize hAction : t.action (Automaton.endOf steps) token = action at hMem
  cases h.candidate_of_mem hFollow hMem with
  | shift other _ => exact .inl (.shift token tokens other hRest hAction hAwaits)
  | reduce item hHolds hComplete _ hBehind =>
      obtain ⟨info, above, below, hRule, hSteps, hSymbols⟩ :=
        h.exists_symbols_of_candidate hFollow hPath hMem
      have hDisputed := hDisputes.shift hHolds hComplete hRule hMove hTerminal hBehind
      exact .inr ⟨token, tokens, next, item.rule, info, above, below, hRest,
        ⟨hRule, hSteps, hSymbols, hShift, hMem, hDisputed⟩, .inr ⟨hAction, hAwaits⟩⟩
  | accept _ _ _ _ hEnd => exact absurd hEnd (h.symbol_of_transition hProper hMove).2.1

/-- Where a rule that has been read is awaited it is reduced, or a shift has won a dispute against that. -/
theorem reduces_or_disputed {above below : List (SymbolId × StateId)} (hSteps : steps = above ++ below)
    {rule : RuleId} {info : Rule} (hRule : g.rules[rule]? = some info)
    (hSymbols : (above.map (·.1)).reverse = info.symbols)
    (hAwaits : g.Awaits (below.map (·.1)) info.lhs rest) :
    t.Guided g steps rest ∨ t.AtDispute g m disputed steps rest := by
  subst hSteps
  have hReduce := h.reduce_candidate hProper hPath hRule hSymbols hAwaits
  have hTerminal : g.isTerminal (rest.headD endSymbol) = true := by
    have hViable := Automaton.viable_complete h.states hProper hPath hRule hSymbols hAwaits
    exact decide_eq_true (hViable.expects.lt hProper)
  have hMem := h.winner_mem_candidates hAssociates hPath hTerminal hReduce
  generalize hAction : t.action (Automaton.endOf (above ++ below)) (rest.headD endSymbol) = action at hMem
  cases h.candidate_of_mem hFollow hReduce with
  | reduce item hHolds hComplete _ hBehind =>
  cases h.candidate_of_mem hFollow hMem with
  | reduce other hOther hOtherComplete _ hOtherBehind =>
      have hSame := hDisputes.complete hHolds hComplete hOther hOtherComplete hBehind hOtherBehind
      rw [← hSame] at hAction
      exact .inl (.reduce item.rule info above below hRule rfl hSymbols hAction hAwaits)
  | accept other hOther hOtherComplete hAdded hEnd =>
      have hLess : item.rule < g.rules.size := (Array.getElem?_eq_some_iff.mp hRule).1
      have hNone : g.rules[other.rule]? = none := by rw [hAdded]; simp
      have hSame := hDisputes.complete hHolds hComplete hOther hOtherComplete hBehind
        (by rw [Grammar.behind, hNone, hEnd]; simp)
      exact absurd (hSame.trans hAdded) (Nat.ne_of_lt hLess)
  | shift next hMove =>
      cases rest with
      | nil => exact absurd rfl (h.symbol_of_transition hProper hMove).2.1
      | cons token tokens =>
          rw [List.headD_cons] at hAction hTerminal hBehind hMove hMem hReduce
          have hDisputed := hDisputes.shift hHolds hComplete hRule hMove hTerminal hBehind
          exact .inr ⟨token, tokens, next, item.rule, info, above, below, rfl,
            ⟨hRule, rfl, hSymbols, hMem, hReduce, hDisputed⟩, .inl ⟨hAction, hAwaits⟩⟩

/-- Behind the start symbol and nothing else the text is accepted at its end. -/
theorem accepts_at_end {next : StateId} (hSteps : steps = [(g.start, next)]) (hRest : rest = []) :
    t.Guided g steps rest := by
  subst hSteps
  have hTerminal : g.isTerminal endSymbol = true :=
    decide_eq_true (Nat.lt_of_lt_of_le Nat.two_pos hProper.reserved)
  have hAccept := h.accept_candidate hProper hPath
  have hMem := h.winner_mem_candidates hAssociates hPath hTerminal hAccept
  generalize hAction : t.action (Automaton.endOf [(g.start, next)]) endSymbol = action at hMem
  cases h.candidate_of_mem hFollow hAccept with
  | accept item hHolds hComplete hAdded _ =>
  cases h.candidate_of_mem hFollow hMem with
  | accept => exact .accept hAction hRest
  | shift _ hMove => exact absurd rfl (h.symbol_of_transition hProper hMove).2.1
  | reduce other hOther hOtherComplete hOtherRule hOtherBehind =>
      have hNone : g.rules[item.rule]? = none := by rw [hAdded]; simp
      have hSame := hDisputes.complete hHolds hComplete hOther hOtherComplete
        (by rw [Grammar.behind, hNone]; simp) hOtherBehind
      exact absurd (hSame.symm.trans hAdded) hOtherRule

/-- As long as a path and the rest make up a sentence, the tables go on with it, or the next action is
disputed. -/
theorem guided_or_disputed (hContinues : g.Continues (steps.map (·.1)) rest) :
    t.Guided g steps rest ∨ t.AtDispute g m disputed steps rest := by
  cases hContinues.wants with
  | shift token tokens hRest hTerminal hAwaits =>
      exact h.shifts_or_disputed hProper hAssociates hFollow hDisputes hPath hRest hTerminal hAwaits
  | reduce info below hInfo hStack hAwaits =>
      obtain ⟨rule, hRule⟩ := Array.mem_iff_getElem?.mp hInfo
      obtain ⟨above, below, hSteps, hAbove, rfl⟩ := List.map_eq_append_iff.mp hStack
      have hSymbols : (above.map (·.1)).reverse = info.symbols := by
        rw [hAbove, List.reverse_reverse]
      exact h.reduces_or_disputed hProper hAssociates hFollow hDisputes hPath hSteps hRule hSymbols hAwaits
  | accept hStack hRest =>
      obtain ⟨⟨symbol, next⟩, hSteps, rfl⟩ := List.map_eq_singleton_iff.mp hStack
      exact .inl (h.accepts_at_end hProper hAssociates hFollow hDisputes hPath hSteps hRest)

end

end Faithful
end Tables
end IncrementalParsing
