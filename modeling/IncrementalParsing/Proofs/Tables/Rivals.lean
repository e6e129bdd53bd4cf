import IncrementalParsing.Proofs.Letters.Language
import IncrementalParsing.Proofs.Tables.Precedence

/-! Which reduction stands where a state could shift. The reductions that compete for the cell are
entered one after the other. The first that binds tighter than the terminal takes the cell from the
shift, and from then on the earliest rule wins, whether it binds tighter or not. -/
namespace IncrementalParsing
namespace Grammar
variable {g : Grammar} {terminal : SymbolId} {rule : RuleId}

/-- A rule binds tighter than a terminal. Both have a precedence. -/
def Outranks (g : Grammar) (rule : RuleId) (terminal : SymbolId) : Prop :=
  ∃ ours theirs, g.rules[rule]?.bind (·.precedence) = some ours
    ∧ g.tokenPrecedence[terminal]?.join = some theirs
    ∧ (theirs.level < ours.level ∨ ours.level = theirs.level ∧ ours.assoc = .left)

/-- A rule and a terminal are operators of one level that does not associate. -/
def Clashes (g : Grammar) (rule : RuleId) (terminal : SymbolId) : Prop :=
  ∃ ours theirs, g.rules[rule]?.bind (·.precedence) = some ours
    ∧ g.tokenPrecedence[terminal]?.join = some theirs
    ∧ ours.level = theirs.level ∧ ours.assoc = .nonAssoc

/-- How a reduction fares against the shift. -/
theorem arbitrate_shift_cases (g : Grammar) (terminal : SymbolId) (next : StateId) (rule : RuleId) :
    g.Outranks rule terminal ∧ g.arbitrate terminal (.shift next) rule = .reduce rule
      ∨ ¬ g.Outranks rule terminal ∧ g.Clashes rule terminal
        ∧ g.arbitrate terminal (.shift next) rule = .error
      ∨ ¬ g.Outranks rule terminal ∧ ¬ g.Clashes rule terminal
        ∧ g.arbitrate terminal (.shift next) rule = .shift next := by
  unfold arbitrate Outranks Clashes
  cases hOurs : g.rules[rule]?.bind (·.precedence) with
  | none => simp
  | some ours =>
      cases hTheirs : g.tokenPrecedence[terminal]?.join with
      | none => simp
      | some theirs =>
          dsimp only
          rcases Nat.lt_trichotomy ours.level theirs.level with hLess | hSame | hMore
          · simp [hLess, Nat.lt_asymm hLess, Nat.ne_of_lt hLess]
          · cases hAssoc : ours.assoc <;> simp [hSame, hAssoc]
          · simp [hMore, Nat.ne_of_gt hMore]

/-- A reduction is entered into a cell that may be barred. -/
def duel (g : Grammar) (terminal : SymbolId) (cell : Action × Bool) (rule : RuleId) :
    Action × Bool :=
  if cell.2 then cell
  else (g.arbitrate terminal cell.1 rule, g.arbitrate terminal cell.1 rule = .error)

theorem foldl_duel_barred (rules : List RuleId) (action : Action) :
    rules.foldl (g.duel terminal) (action, true) = (action, true) := by
  induction rules with
  | nil => rfl
  | cons rule rules ih => simpa [duel] using ih

/-- Among reductions the earliest rule wins. -/
theorem foldl_duel_reduce (rules : List RuleId) (rule : RuleId) :
    rules.foldl (g.duel terminal) (.reduce rule, false) = (.reduce (rules.foldl min rule), false) := by
  induction rules generalizing rule with
  | nil => rfl
  | cons other rules ih => simpa [duel, arbitrate] using ih (min rule other)

/-- A rule comes out of the contests for a cell that began with a shift: the rules in front lose
against the shift, one outranks the terminal, and this is the earliest rule from there on. -/
def Prevails (g : Grammar) (terminal : SymbolId) (rivals : List RuleId) (rule : RuleId) : Prop :=
  ∃ front first back, rivals = front ++ first :: back
    ∧ (∀ other ∈ front, ¬ g.Outranks other terminal ∧ ¬ g.Clashes other terminal)
    ∧ g.Outranks first terminal ∧ (first :: back).min? = some rule

theorem not_prevails_nil : ¬ g.Prevails terminal [] rule := by
  rintro ⟨front, first, back, hSplit, -⟩
  simp at hSplit

/-- The first rival decides, or it loses against the shift. -/
theorem prevails_cons {other : RuleId} {rivals : List RuleId} :
    g.Prevails terminal (other :: rivals) rule ↔
      g.Outranks other terminal ∧ (other :: rivals).min? = some rule
        ∨ (¬ g.Outranks other terminal ∧ ¬ g.Clashes other terminal)
          ∧ g.Prevails terminal rivals rule := by
  constructor
  · rintro ⟨front, first, back, hSplit, hFront, hFirst, hLeast⟩
    cases front with
    | nil =>
        obtain ⟨rfl, rfl⟩ := List.cons.inj hSplit
        exact .inl ⟨hFirst, hLeast⟩
    | cons head front =>
        obtain ⟨rfl, rfl⟩ := List.cons.inj hSplit
        exact .inr ⟨hFront other (by simp), front, first, back, rfl,
          fun r hMem => hFront r (by simp [hMem]), hFirst, hLeast⟩
  · rintro (⟨hFirst, hLeast⟩ | ⟨hLoses, front, first, back, rfl, hFront, hFirst, hLeast⟩)
    · exact ⟨[], other, rivals, rfl, by simp, hFirst, hLeast⟩
    · exact ⟨other :: front, first, back, rfl, List.forall_mem_cons.mpr ⟨hLoses, hFront⟩, hFirst,
        hLeast⟩

theorem foldl_duel_shift (rivals : List RuleId) (next : StateId) :
    (rivals.foldl (g.duel terminal) (.shift next, false)).1 = .reduce rule ↔
      g.Prevails terminal rivals rule := by
  induction rivals with
  | nil => simp [not_prevails_nil]
  | cons other rivals ih =>
      rw [List.foldl_cons, prevails_cons]
      rcases g.arbitrate_shift_cases terminal next other with
        ⟨hOutranks, hAction⟩ | ⟨hLoses, hClashes, hAction⟩ | ⟨hLoses, hPeace, hAction⟩
      · have hDuel : g.duel terminal (.shift next, false) other = (.reduce other, false) := by
          simp [duel, hAction]
        rw [hDuel, foldl_duel_reduce, List.min?_cons']
        simp [hOutranks]
      · have hDuel : g.duel terminal (.shift next, false) other = (.error, true) := by
          simp [duel, hAction]
        rw [hDuel, foldl_duel_barred]
        simp [hLoses, hClashes]
      · have hDuel : g.duel terminal (.shift next, false) other = (.shift next, false) := by
          simp [duel, hAction]
        rw [hDuel, ih]
        simp [hLoses, hPeace]

/-- Where the rivals are entered in the order of their rules, the one that prevails is the first that
outranks the terminal. -/
theorem Prevails.outranks {rivals : List RuleId} (h : g.Prevails terminal rivals rule)
    (hOrdered : rivals.Pairwise (· ≤ ·)) : g.Outranks rule terminal := by
  obtain ⟨front, first, back, rfl, -, hFirst, hLeast⟩ := h
  obtain ⟨hMem, hLe⟩ := List.min?_eq_some_iff.mp hLeast
  have hBehind := (List.pairwise_cons.mp (List.pairwise_append.mp hOrdered).2.1).1
  have hSame : first = rule := by
    rcases List.mem_cons.mp hMem with rfl | hMem
    · rfl
    · exact Nat.le_antisymm (hBehind rule hMem) (hLe first (by simp))
  exact hSame ▸ hFirst

/-- The rule by which a complete item asks to be reduced at a terminal. -/
def rival? (g : Grammar) (terminal : Nat) (entry : LookaheadItem) : Option RuleId :=
  if entry.2.contains terminal ∧ entry.1.rule ≠ g.rules.size then some (cellRule entry.1.rule) else none

theorem rival?_eq_some {terminal : Nat} {entry : LookaheadItem}
    (h : g.rival? terminal entry = some rule) :
    entry.1.rule ≠ g.rules.size ∧ cellRule entry.1.rule = rule := by
  unfold rival? at h
  split at h
  · rename_i hAsks
    exact ⟨hAsks.2, Option.some.inj h⟩
  · simp at h

/-- In front of a terminal other than the end, every contest is with a reduction. -/
theorem foldl_contest_eq {terminal : Nat} (hTerminal : terminal ≠ endSymbol)
    (entries : List LookaheadItem) (cell : Action × Bool) :
    entries.foldl (g.contest terminal) cell =
      (entries.filterMap (g.rival? terminal)).foldl (g.duel terminal) cell := by
  induction entries generalizing cell with
  | nil => rfl
  | cons entry entries ih =>
      rw [List.foldl_cons, ih]
      cases hAsks : entry.2.contains terminal with
      | false =>
          have hNone : g.rival? terminal entry = none := by simp [rival?, hAsks]
          rw [List.filterMap_cons_none hNone]
          simp [contest, candidate?, hAsks]
      | true =>
          by_cases hAdded : entry.1.rule = g.rules.size
          · have hNone : g.rival? terminal entry = none := by simp [rival?, hAdded]
            rw [List.filterMap_cons_none hNone]
            simp [contest, candidate?, hAsks, hAdded, hTerminal]
          · have hSome : g.rival? terminal entry = some (cellRule entry.1.rule) := by
              simp [rival?, hAsks, hAdded]
            rw [List.filterMap_cons_some hSome]
            simp [contest, candidate?, hAsks, hAdded, duel]

end Grammar

/-- The rules that compete for a cell, in the order in which they are entered. -/
def Automaton.rivals (m : Automaton) (g : Grammar) (state : StateId) (terminal : Nat) :
    List RuleId :=
  (m.completions (.ofGrammar g) m.offsets (m.lookaheads (.ofGrammar g)) state).filterMap
    (g.rival? terminal)

namespace Automaton
variable {g : Grammar} {m : Automaton}

/-- A rival is a rule that an item of the state completes. -/
theorem Explored.rival_complete (h : m.Explored (.ofGrammar g)) (hFits : g.rules.size ≤ ruleBound)
    {state : StateId} {terminal : Nat} {entry : LookaheadItem}
    (hMem : entry ∈ m.completions (.ofGrammar g) m.offsets (m.lookaheads (.ofGrammar g)) state)
    {rule : RuleId} (hRival : g.rival? terminal entry = some rule) :
    (Augmented.ofGrammar g).isComplete entry.1 = true ∧ entry.1.rule = rule
      ∧ entry.1.rule < g.rules.size := by
  obtain ⟨hAdded, rfl⟩ := Grammar.rival?_eq_some hRival
  obtain ⟨hComplete, hHolds⟩ := completions_sound hMem
  have hLess : entry.1.rule < g.rules.size := Nat.lt_of_le_of_ne (h.rule_le hHolds) hAdded
  exact ⟨hComplete, (Nat.mod_eq_of_lt (Nat.lt_of_lt_of_le hLess hFits)).symm, hLess⟩

/-- Where no empty rule competes, the rivals are entered in the order of their rules. -/
theorem Explored.rivals_ordered (h : m.Explored (.ofGrammar g)) (hProper : g.Proper)
    (hFits : g.rules.size ≤ ruleBound) {state : StateId} {terminal : Nat}
    (hSolid : ∀ rule ∈ m.rivals g state terminal, ∀ info, g.rules[rule]? = some info →
      info.rhs ≠ []) : (m.rivals g state terminal).Pairwise (· ≤ ·) := by
  obtain ⟨added, hItems, hAdded⟩ := Augmented.closureWithLookahead_items
    (h.nodup_stateItems m.offsets (m.lookaheads (.ofGrammar g)) state)
    fun entry hMem => (within_stateItems hProper _ state entry hMem).mono (Nat.le_succ _)
  rw [map_fst_stateItems] at hItems
  -- Beginnings of rules come last, and everything in front of them is in order.
  have hOrder : (((Augmented.ofGrammar g).closureWithLookahead (m.stateItems m.offsets
      (m.lookaheads (.ofGrammar g)) state)).toList.map (·.1)).Pairwise
        fun x y => y.dot ≠ 0 → x.rule ≤ y.rule := by
    rw [hItems]
    refine List.pairwise_append.mpr ⟨?_, ?_, ?_⟩
    · rw [Array.getD_eq_getD_getElem?]
      cases hKernel : m.kernels[state]? with
      | none => exact List.Pairwise.nil
      | some kernel =>
          refine (h.kernel_sorted hKernel).imp fun {x y} hLess _ => ?_
          rcases hLess with hRule | ⟨hRule, -⟩
          · exact Nat.le_of_lt hRule
          · exact Nat.le_of_eq hRule
    · exact List.pairwise_of_forall_mem_list fun x _ y hMem hDot => absurd (hAdded y hMem) hDot
    · exact fun x _ y hMem hDot => absurd (hAdded y hMem) hDot
  rw [List.pairwise_map] at hOrder
  refine List.pairwise_filterMap.mpr ((hOrder.filter _).imp_of_mem ?_)
  intro x y hBefore hMem hLe rule hX other hY
  have hRival := hSolid other (List.mem_filterMap.mpr ⟨y, hMem, hY⟩)
  obtain ⟨-, rfl, -⟩ := h.rival_complete hFits hBefore hX
  obtain ⟨hComplete, rfl, hLess⟩ := h.rival_complete hFits hMem hY
  have hRule : g.rules[y.1.rule]? = some g.rules[y.1.rule] := Array.getElem?_eq_getElem hLess
  refine hLe fun hDot => hRival _ hRule ?_
  rw [Augmented.isComplete, Augmented.next?, Augmented.symbolsOf_rule hRule, hDot] at hComplete
  simpa [Production.symbols] using hComplete

end Automaton

/-- Beside a shift, the cell has the rule that prevails among its rivals. -/
theorem Tables.Generated.reduce_iff_prevails {g : Grammar} {m : Automaton} {t : Tables}
    (h : Generated g m t) (hProper : g.Proper) {state next : StateId} {terminal : Nat}
    (hTerminal : terminal < g.terminalCount)
    (hMove : (terminal, next) ∈ m.transitions.getD state []) (rule : RuleId) :
    t.action state terminal = .reduce rule ↔ g.Prevails terminal (m.rivals g state terminal) rule := by
  obtain ⟨source, -, hSource, -⟩ := h.explored.transition hMove
  have hState : state < m.kernels.size := (Array.getElem?_eq_some_iff.mp hSource).1
  obtain ⟨other, hShift⟩ := Automaton.shifts_of_move hMove (decide_eq_true hTerminal)
  rw [h.action_eq, if_pos ⟨hTerminal, hState⟩, Automaton.getD_actions _ _ hTerminal,
    Array.getD_eq_getD_getElem?, hShift, Option.getD_some,
    Grammar.foldl_contest_eq (h.symbol_of_transition hProper hMove).2.1, Grammar.foldl_duel_shift]
  rfl

/-- Where a state can shift a terminal, the tables reduce exactly by the rule that prevails: the
earliest of the rivals from the first one on that outranks the terminal, if none before it clashes with
the terminal. If no empty rule is among the rivals and every rule has its own number, what they reduce by
outranks the terminal. -/
theorem Tables.reduces_beside_shift {b : GrammarDraft} {g : Grammar} {m : Automaton} {t : Tables}
    (hDescribed : GrammarDraft.Described b) (hBuild : b.build = .ok g)
    (hTables : Tables.ofGrammar g = .ok t) (hStates : Automaton.ofGrammar (.ofGrammar g) = .ok m)
    {state next : StateId} {terminal : SymbolId} (hTerminal : g.isTerminal terminal = true)
    (hMove : m.target? state terminal = some next) (rule : RuleId) :
    (t.action state terminal = .reduce rule ↔ g.Prevails terminal (m.rivals g state terminal) rule)
    ∧ (g.rules.size ≤ ruleBound →
      (∀ other ∈ m.rivals g state terminal, ∀ info, g.rules[other]? = some info → info.rhs ≠ []) →
      t.action state terminal = .reduce rule → g.Outranks rule terminal) := by
  have hProper := hDescribed.proper hBuild
  obtain ⟨m', hGenerated⟩ := Tables.generated_ofGrammar hTables
  obtain rfl := Except.ok.inj (hStates.symm.trans hGenerated.states)
  have hListed : (terminal, next) ∈ m.transitions.getD state [] := by
    obtain ⟨front, back, hSplit, -⟩ := List.lookup_eq_some_iff.mp hMove
    simp [hSplit]
  have hPrevails := hGenerated.reduce_iff_prevails hProper (of_decide_eq_true hTerminal) hListed rule
  refine ⟨hPrevails, fun hFits hSolid hReduce => (hPrevails.mp hReduce).outranks ?_⟩
  exact hGenerated.explored.rivals_ordered hProper hFits hSolid

namespace Letters

/-- Behind `a` there are three ways to go on with `b`: `e` outranks it, and an empty `o` does not. -/
def rivalry : Grammar :=
  { grammar 2 [⟨"s", ⟨false, true, false, false⟩⟩, ⟨"e", ⟨false, true, false, false⟩⟩,
      ⟨"o", ⟨false, true, false, false⟩⟩] #[
      ⟨⟨6, []⟩, none⟩,
      ⟨⟨5, [.plain 2]⟩, some ⟨2, .left⟩⟩,
      ⟨⟨4, [.plain 5, .plain 3]⟩, none⟩,
      ⟨⟨4, [.plain 2, .plain 6, .plain 3]⟩, none⟩,
      ⟨⟨4, [.plain 2, .plain 3]⟩, none⟩] with
    tokenPrecedence := #[none, none, none, some ⟨1, .left⟩] }

def rivalryTables : Tables :=
  tables rivalry 8 [
    [.error, .error, .shift 1, .error],
    [.error, .error, .error, .reduce 0],
    [.accept, .error, .error, .error],
    [.error, .error, .error, .shift 6],
    [.reduce 4, .error, .error, .error],
    [.error, .error, .error, .shift 7],
    [.reduce 2, .error, .error, .error],
    [.reduce 3, .error, .error, .error]] [
    [some 2, some 3, none], [none, none, some 5], [none, none, none], [none, none, none],
    [none, none, none], [none, none, none], [none, none, none], [none, none, none]]

theorem described_rivalry : ∃ b : GrammarDraft, b.Described ∧ b.build = .ok rivalry := by
  have hPlain : GrammarDraft.Plain { rivalry with tokenPrecedence := Array.replicate 4 none }
      (letters 2) [⟨"s", ⟨false, true, false, false⟩⟩, ⟨"e", ⟨false, true, false, false⟩⟩,
        ⟨"o", ⟨false, true, false, false⟩⟩] := {
    symbols := rfl
    terminalEntries := by decide
    nonterminalEntries := by decide +kernel
    names := by decide +kernel
    room := by decide
    fields := by decide
    rules := by decide +kernel
    terminalCount := rfl
    start := by decide
    productive := by decide +kernel
    precedence := rfl }
  obtain ⟨b, hDescribed, hBuild⟩ := hPlain.described
  exact hDescribed.withPrecedence hBuild 3 ⟨1, .left⟩

/-- The state behind `a` can shift `b`. -/
theorem rivalry_automaton : Tables.ofGrammar rivalry = .ok rivalryTables
    ∧ ∃ m, Automaton.ofGrammar (.ofGrammar rivalry) = .ok m ∧ m.target? 1 3 = some 4 := by
  have hRules : ∀ info ∈ rivalry.rules, info.lhs < rivalry.symbols.size := by decide +kernel
  have hSame : ((Automaton.Found.ofGrammar rivalry).toOption.map fun found =>
      (Tables.ofAutomaton rivalry found.toAutomaton, found.toAutomaton.target? 1 3))
      = some (rivalryTables, some 4) := by decide +kernel
  cases hFound : Automaton.Found.ofGrammar rivalry with
  | error cause => simp [hFound, Except.toOption] at hSame
  | ok found =>
      obtain ⟨hTables, hTarget⟩ : Tables.ofAutomaton rivalry found.toAutomaton = rivalryTables
          ∧ found.toAutomaton.target? 1 3 = some 4 := by
        simpa [hFound, Except.toOption] using hSame
      obtain ⟨m, hStates, hAgrees⟩ := Automaton.exists_ofGrammar hRules hFound
      refine ⟨by rw [Tables.ofGrammar_eq_ok hRules hFound, hTables], m, hStates, ?_⟩
      rw [← hTarget, Automaton.target?, Automaton.target?, Automaton.Found.toAutomaton,
        ← hAgrees.transitions]

/-- The empty rule is reduced in front of `b`, since another one has beaten the shift. -/
theorem reduces_beside_shift_of_rivalry : ∃ (b : GrammarDraft) (m : Automaton),
    b.Described ∧ b.build = .ok rivalry ∧ Tables.ofGrammar rivalry = .ok rivalryTables
      ∧ Automaton.ofGrammar (.ofGrammar rivalry) = .ok m ∧ rivalry.isTerminal 3 = true
      ∧ m.target? 1 3 = some 4 ∧ rivalry.Prevails 3 (m.rivals rivalry 1 3) 0 := by
  obtain ⟨b, hDescribed, hBuild⟩ := described_rivalry
  obtain ⟨hTables, m, hStates, hMove⟩ := rivalry_automaton
  have hTerminal : rivalry.isTerminal 3 = true := by decide
  have hReduce : rivalryTables.action 1 3 = .reduce 0 := by decide +kernel
  exact ⟨b, m, hDescribed, hBuild, hTables, hStates, hTerminal, hMove,
    (Tables.reduces_beside_shift hDescribed hBuild hTables hStates hTerminal hMove 0).1.mp hReduce⟩

/-- The rule that is reduced has no precedence, so it does not outrank the terminal. -/
theorem not_outranks_of_rivalry : ∃ (b : GrammarDraft) (m : Automaton),
    b.Described ∧ b.build = .ok rivalry ∧ Tables.ofGrammar rivalry = .ok rivalryTables
      ∧ Automaton.ofGrammar (.ofGrammar rivalry) = .ok m ∧ m.target? 1 3 = some 4
      ∧ rivalryTables.action 1 3 = .reduce 0 ∧ ¬ rivalry.Outranks 0 3 := by
  obtain ⟨b, hDescribed, hBuild⟩ := described_rivalry
  obtain ⟨hTables, m, hStates, hMove⟩ := rivalry_automaton
  refine ⟨b, m, hDescribed, hBuild, hTables, hStates, hMove, by decide +kernel, ?_⟩
  rintro ⟨ours, theirs, hOurs, -⟩
  have hNone : rivalry.rules[0]?.bind (·.precedence) = none := rfl
  simp [hNone] at hOurs

end Letters
end IncrementalParsing
