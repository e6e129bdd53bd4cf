import IncrementalParsing.Proofs.Parser.LegalStack
import IncrementalParsing.Proofs.Parser.Reading

/-! Every node that a parse makes follows a rule of the grammar, apart from the error nodes in it.
An accepted stack holds one node of the start symbol, with nothing but error nodes around it. -/
namespace IncrementalParsing
open Subtree

namespace ParseStack
variable {g : Grammar} {m : Automaton} {t : Tables} {s : ParseStack}

theorem outline_rootPieces_of_errors (hErrors : ∀ e ∈ s.entries,
    e.extra = true ∧ e.subtree.kind = errorSymbol) : outline (s.rootPieces t) = []
      ∧ ∀ u ∈ s.rootPieces t, u.kind = errorSymbol := by
  have hAll : ∀ u ∈ s.rootPieces t, u.kind = errorSymbol := by
    intro u hMem
    obtain ⟨e, hEntry, hPiece⟩ := List.mem_flatMap.mp hMem
    obtain ⟨hExtra, hKind⟩ := hErrors e (List.mem_reverse.mp hEntry)
    rw [if_neg (by simp [hExtra])] at hPiece
    obtain rfl := List.mem_singleton.mp hPiece
    simpa using hKind
  refine ⟨?_, hAll⟩
  simp only [outline, List.map_eq_nil_iff, List.filter_eq_nil_iff]
  intro u hMem
  simp [hAll u hMem]

/-- With one step to the start symbol on the stack, the pieces of the root are what is below it. -/
theorem outline_rootPieces_of_start (hAligned : Aligned m s.entries) {next : StateId}
    (hSteps : steps s.entries = [(t.start, next)]) :
    ∃ e ∈ s.entries, e.subtree.kind = t.start
      ∧ outline (s.rootPieces t) = outline e.subtree.children := by
  rw [rootPieces]
  generalize s.entries = es at hAligned hSteps
  induction es with
  | nil => simp at hSteps
  | cons e es ih =>
      have hHead := hAligned.1
      rw [List.reverse_cons, List.flatMap_append, outline_append, List.flatMap_singleton]
      cases hExtra : e.extra with
      | true =>
          rw [if_pos hExtra] at hHead
          rw [steps_cons_of_extra hExtra] at hSteps
          obtain ⟨f, hMem, hKind, hOutline⟩ := ih hAligned.2 hSteps
          refine ⟨f, by simp [hMem], hKind, ?_⟩
          rw [hOutline, if_neg (by simp), outline_cons_of_error (by simpa using hHead.2)]
          simp
      | false =>
          rw [steps_cons_of_not_extra hExtra] at hSteps
          obtain ⟨⟨hKind, -⟩, hRest⟩ : (e.subtree.kind = t.start ∧ e.state = next) ∧ steps es = [] := by
            simpa using hSteps
          refine ⟨e, by simp, hKind, ?_⟩
          have hErrors : ∀ f ∈ es, f.extra = true ∧ f.subtree.kind = errorSymbol := by
            intro f hMem
            have hAside : f.extra = true := by
              simp only [steps, List.map_eq_nil_iff, List.filter_eq_nil_iff] at hRest
              simpa using hRest f hMem
            exact ⟨hAside, hAligned.2.kind_of_extra f hMem hAside⟩
          have hBelow := (outline_rootPieces_of_errors (t := t) (s := ⟨es, #[], 0, 0, 0⟩) hErrors).1
          rw [rootPieces] at hBelow
          rw [hBelow, if_pos (by simp [hKind])]
          rfl

theorem all_rootPieces {P : Subtree → Prop} (hLasting : Lasting t P) (h : s.Legal t P m) :
    ∀ u ∈ s.rootPieces t, All P u := by
  intro u hMem
  obtain ⟨e, hEntry, hPiece⟩ := List.mem_flatMap.mp hMem
  have hSubtree := (h.entries e (List.mem_reverse.mp hEntry)).nodes
  split at hPiece
  · exact hSubtree.child hPiece
  · obtain rfl := List.mem_singleton.mp hPiece
    exact hSubtree.withField hLasting.withField _

/-- What the tables accept is one node of the start symbol over the first state. -/
theorem Legal.steps_of_accept {P : Subtree → Prop} (hGenerated : t.Generated g m) (h : s.Legal t P m)
    {symbol : SymbolId}
    (hAccept : t.action s.state symbol = .accept) :
    ∃ next, steps s.entries = [(t.start, next)] := by
  rw [state, ← h.aligned.endOf_steps] at hAccept
  exact hGenerated.steps_of_accept h.aligned.path hAccept

theorem all_children_toRoot {P : Subtree → Prop} (hLasting : Lasting t P) (h : s.Legal t P m)
    (length : Nat) (accepted : Bool) : ∀ u ∈ (s.toRoot t length accepted).1.children, All P u := by
  rw [children_toRoot]
  exact forall_all_unwrapped hLasting.withField _ (all_rootPieces hLasting (h.closeError hLasting))

/-- The root over an accepted stack follows a rule of the start symbol. -/
theorem derives_toRoot (hGenerated : t.Generated g m) (hProper : g.Proper)
    (hError : t.isTerminal errorSymbol = true) (h : s.Legal t (Grammatical t) m) {symbol : SymbolId}
    (hAccept : t.action s.state symbol = .accept) (length : Nat) (accepted : Bool) :
    Derives t t.start (outline (s.toRoot t length accepted).1.children) := by
  have hClosed := h.closeError (lasting_grammatical hError)
  rw [← state_closeError] at hAccept
  obtain ⟨next, hSteps⟩ := hClosed.steps_of_accept hGenerated hAccept
  obtain ⟨e, hEntry, hKind, hOutline⟩ := outline_rootPieces_of_start hClosed.aligned hSteps
  have hNode := (hClosed.entries e hEntry).nodes.self
  have hNonterminal : t.isTerminal e.subtree.kind = false := by
    rw [hKind, hGenerated.isTerminal_iff, hGenerated.start, Grammar.isTerminal]
    exact decide_eq_false (Nat.not_lt.mpr hProper.start.1)
  have hShown : ∀ kind, t.isTerminal kind = true → t.isHidden kind = false :=
    fun kind hTerminal => (hGenerated.splices_of_isTerminal hProper hTerminal).1
  have hPieces := all_rootPieces (t := t) (lasting_grammatical hError) hClosed
  rw [children_toRoot]
  cases hHidden : t.isHidden e.subtree.kind with
  | true =>
      obtain ⟨rule, hRule, hLhs, hChildren⟩ := hNode.hidden hNonterminal hHidden
      refine ⟨rule, hRule, hLhs.trans hKind, flattens_unwrapped hShown hError _ hPieces _ _ ?_⟩
      rw [hOutline, hChildren]
      simp [slotOutline]
  | false =>
      obtain ⟨rule, hRule, hLhs, hFlattens⟩ := hNode.shown hNonterminal hHidden
      refine ⟨rule, hRule, hLhs.trans hKind, ?_⟩
      rw [← hOutline] at hFlattens
      rw [unwrapped_eq_self]
      · exact hFlattens
      · intro u hMem
        by_cases hIs : u.kind = errorSymbol
        · rw [hIs]
          exact hShown _ hError
        · refine hFlattens.shown_of_mem (u.kind, u.field) ?_
          simp only [outline, List.mem_map, List.mem_filter]
          exact ⟨u, ⟨hMem, by simpa using hIs⟩, rfl⟩

theorem outline_toRoot_of_errors (hError : t.isHidden errorSymbol = false)
    (hErrors : ∀ e ∈ s.closeError.entries, e.extra = true ∧ e.subtree.kind = errorSymbol)
    (length : Nat) (accepted : Bool) : outline (s.toRoot t length accepted).1.children = [] := by
  obtain ⟨hNone, hKinds⟩ := outline_rootPieces_of_errors (t := t) hErrors
  rw [children_toRoot, unwrapped_eq_self, hNone]
  intro u hMem
  rw [hKinds u hMem]
  exact hError

theorem entries_closeError_of_nil (hNone : s.entries = []) :
    ∀ e ∈ s.closeError.entries, e.extra = true ∧ e.subtree.kind = errorSymbol := by
  unfold closeError
  split
  · simp [hNone]
  · intro e hMem
    obtain rfl : e = _ := by simpa [pushAside, stacked, hNone] using hMem
    exact ⟨rfl, rfl⟩

end ParseStack

namespace ParseJob
variable {job : ParseJob} {g : Grammar} {m : Automaton}

/-- The nodes at hand all have a property, and the stack is a path. -/
structure Lawful (job : ParseJob) (P : Subtree → Prop) (m : Automaton) (s : ParseState) : Prop where
  stack : s.stack.Legal job.tables P m
  pending : ∀ u ∈ s.pending, All P u
  queue : ∀ q, s.queue = some q → ∀ u ∈ q.ahead, All P u

/-- A property that every node of a parse has: tokens have it, and a reduction passes it on. Nodes
with children are error nodes or of a symbol of the grammar. -/
structure Upheld (job : ParseJob) (g : Grammar) (m : Automaton) (P : Subtree → Prop) : Prop where
  generated : job.tables.Generated g m
  proper : g.Proper
  lasting : ParseStack.Lasting job.tables P
  read : ∀ serial position, P (job.readAt serial position)
  inserted : ∀ serial, ∀ terminal ∈ job.tables.insertable, P (.inserted serial terminal)
  reduced : ∀ {s : ParseStack} {rule : RuleId} {info : Production},
    job.tables.rules[rule]? = some info →
    ParseStack.Taken job.tables P m s info (ParseStack.takeChildren info.rhs.reverse
      (s.entries.dropWhile (·.extra)) []).1 (s.uncovered info) →
    ∀ lookaheadStop, P (s.reduced job.tables info lookaheadStop)
  inner : ∀ u, P u → u.isLeaf = false → u.kind = errorSymbol ∨ u.kind < g.symbols.size

section Upheld
variable {P : Subtree → Prop}

theorem all_behind {q r : ReuseQueue} (hBehind : q.Behind r) (h : ∀ u ∈ q.ahead, All P u) :
    ∀ u ∈ r.ahead, All P u := by
  have hPass : ∀ r : ReuseQueue, (∀ u ∈ r.ahead, All P u) → ∀ u ∈ r.pass.ahead, All P u := by
    intro r hAhead u hMem
    unfold ReuseQueue.pass at hMem
    split at hMem
    · exact hAhead u hMem
    · rename_i v vs hQueue
      exact hAhead u (by simp [hQueue, hMem])
  induction hBehind with
  | refl => exact h
  | pass _ ih => exact hPass _ ih
  | @enter r _ ih =>
      intro u hMem
      unfold ReuseQueue.enter at hMem
      split at hMem
      · exact ih u hMem
      · rename_i v vs hQueue
        split at hMem
        · exact hPass r ih u hMem
        · rcases List.mem_append.mp hMem with hMem | hMem
          · exact (ih v (by simp [hQueue])).child hMem
          · exact ih u (by simp [hQueue, hMem])

/-- What is upheld in a parse, apart from what reductions do. -/
structure Borne (job : ParseJob) (g : Grammar) (m : Automaton) (P : Subtree → Prop) : Prop where
  generated : job.tables.Generated g m
  proper : g.Proper
  lasting : ParseStack.Lasting job.tables P
  read : ∀ serial position, P (job.readAt serial position)
  inserted : ∀ serial, ∀ terminal ∈ job.tables.insertable, P (.inserted serial terminal)
  inner : ∀ u, P u → u.isLeaf = false → u.kind = errorSymbol ∨ u.kind < g.symbols.size

theorem Upheld.borne (h : job.Upheld g m P) : job.Borne g m P :=
  ⟨h.generated, h.proper, h.lasting, h.read, h.inserted, h.inner⟩

/-- The symbols that stand for an error and for the end are terminals. -/
theorem isTerminal_reserved (hGenerated : job.tables.Generated g m) (hProper : g.Proper) :
    ∀ symbol < 2, job.tables.isTerminal symbol = true := by
  intro symbol hLess
  rw [hGenerated.isTerminal_iff]
  exact decide_eq_true (Nat.lt_of_lt_of_le hLess hProper.reserved)

theorem Upheld.isTerminal_errorSymbol (h : job.Upheld g m P) :
    job.tables.isTerminal errorSymbol = true :=
  isTerminal_reserved h.generated h.proper errorSymbol (by decide)

/-- Where a subtree with children is shifted, the automaton has a transition. -/
theorem Borne.transition (h : job.Borne g m P) {u : Subtree} (hNode : P u)
    (hLeaf : u.isLeaf = false) {state next : StateId}
    (hGoto : job.tables.goto state u.kind = some next) :
    (u.kind, next) ∈ m.transitions.getD state [] := by
  rcases h.inner u hNode hLeaf with hKind | hBound
  · exfalso
    have hTerminal := isTerminal_reserved h.generated h.proper errorSymbol (by decide)
    rw [hKind, Tables.goto, if_pos (of_decide_eq_true hTerminal)] at hGoto
    simp at hGoto
  · exact (h.generated.goto hBound hGoto).2

/-- One move keeps what the nodes at hand have, if a reduction of this stack does. -/
theorem Lawful.move_of_reduced (hBorne : job.Borne g m P) {s r : ParseState} (hMove : job.Move s r)
    (h : job.Lawful P m s)
    (hReduced : ∀ {rule : RuleId} {info : Production}, job.tables.rules[rule]? = some info →
      ParseStack.Taken job.tables P m s.stack.closeError info (ParseStack.takeChildren info.rhs.reverse
        (s.stack.closeError.entries.dropWhile (·.extra)) []).1 (s.stack.closeError.uncovered info) →
      ∀ lookaheadStop, P (s.stack.closeError.reduced job.tables info lookaheadStop)) :
    job.Lawful P m r := by
  have hLasting := hBorne.lasting
  cases hMove with
  | note => exact ⟨h.stack.noteDecision, h.pending, h.queue⟩
  | read hLeaves hLast =>
      refine ⟨h.stack.withSerial _, ?_, h.queue⟩
      intro u hMem
      rcases List.mem_append.mp hMem with hMem | hMem
      · exact h.pending u hMem
      · obtain rfl := List.mem_singleton.mp hMem
        exact all_of_isLeaf (isLeaf_readAt _ _ _) (hBorne.read _ _)
  | offer q t ts hPending hQueue hAhead hStart hReusable =>
      refine ⟨h.stack, ?_, ?_⟩
      · intro u hMem
        obtain rfl := List.mem_singleton.mp hMem
        exact h.queue q hQueue u (by simp [hAhead])
      · intro p hSome
        obtain rfl := Option.some.inj hSome
        exact all_behind (q.behind_of_offer t) (h.queue q hQueue)
  | advance q p hPending hQueue hBehind =>
      refine ⟨h.stack, h.pending, ?_⟩
      intro p' hSome
      obtain rfl := Option.some.inj hSome
      exact all_behind hBehind (h.queue q hQueue)
  | drop t hPending hLeaf => exact ⟨h.stack, by simp, h.queue⟩
  | insert ts nextSerial hLeaves hInserted =>
      refine ⟨h.stack.withSerial _, ?_, h.queue⟩
      intro u hMem
      rcases List.mem_append.mp hMem with hMem | hMem
      · obtain ⟨serial, terminal, hInsertable, rfl⟩ := hInserted u hMem
        exact all_of_isLeaf rfl (hBorne.inserted serial terminal hInsertable)
      · exact h.pending u hMem
  | shift t ts next hPending hLeaf hShift =>
      have hStep := hBorne.generated.shift hShift
      refine ⟨?_, fun u hMem => h.pending u (by simp [hPending, hMem]), h.queue⟩
      refine h.stack.push hLasting hStep ?_ (h.pending t (by simp [hPending]))
      exact (hBorne.generated.symbol_of_transition hBorne.proper hStep).2.2
  | reuse t ts next hPending hLeaf hState hGoto =>
      have hNode := h.pending t (by simp [hPending])
      have hStep := hBorne.transition hNode.self hLeaf hGoto
      refine ⟨?_, fun u hMem => h.pending u (by simp [hPending, hMem]), ?_⟩
      · refine h.stack.push hLasting hStep ?_ hNode
        exact (hBorne.generated.symbol_of_transition hBorne.proper hStep).2.2
      · intro p hSome
        obtain ⟨q, hQueue, rfl⟩ := Option.map_eq_some_iff.mp hSome
        exact all_behind (.pass (.refl q)) (h.queue q hQueue)
  | reduce t ts rule info lookaheadStop hPending hReduce hRule =>
      refine ⟨?_, h.pending, h.queue⟩
      exact h.stack.reduce hBorne.generated hBorne.proper hLasting hReduce hRule _
        fun hTaken => hReduced hRule hTaken _
  | skip t ts hPending hLeaf hKind =>
      refine ⟨h.stack.pushSkipped hLasting ?_, fun u hMem => h.pending u (by simp [hPending, hMem]),
        h.queue⟩
      intro u hMem
      obtain rfl := List.mem_singleton.mp hMem
      exact h.pending u (by simp [hPending])
  | cut depth ts u us hPending =>
      obtain ⟨hPopped, hPieces⟩ := h.stack.pop hLasting depth
      refine ⟨?_, fun v hMem => h.pending v (by simp [hPending, hMem]), h.queue⟩
      dsimp only
      split
      · exact hPopped.noteDecision
      · refine hPopped.noteDecision.pushSkipped hLasting ?_
        intro v hMem
        rcases List.mem_append.mp hMem with hMem | hMem
        · exact hPieces v hMem
        · exact h.pending v (by simp [hPending, hMem])

theorem Lawful.move (hUpheld : job.Upheld g m P) {s r : ParseState} (hMove : job.Move s r)
    (h : job.Lawful P m s) : job.Lawful P m r :=
  h.move_of_reduced hUpheld.borne hMove fun hRule hTaken => hUpheld.reduced hRule hTaken

theorem Lawful.moves (hUpheld : job.Upheld g m P) {s r : ParseState} (hMoves : job.Moves s r)
    (h : job.Lawful P m s) : job.Lawful P m r :=
  keep_of_moves (fun hMove hBefore => hBefore.move hUpheld hMove) hMoves h

theorem lawful_start {queue : Option ReuseQueue}
    (hQueue : ∀ q, queue = some q → ∀ u ∈ q.ahead, All P u) (nextSerial : Nat) :
    job.Lawful P m (start queue nextSerial) where
  stack := ParseStack.legal_empty nextSerial
  pending := by simp [start]
  queue := hQueue

end Upheld

/-- What is read is a terminal, if the lexer finds terminals only. -/
theorem isTerminal_readAt (hReserved : ∀ symbol < 2, job.tables.isTerminal symbol = true)
    (hLexer : ∀ position token, job.lexer.next job.text position = some token →
      job.tables.isTerminal token.kind = true)
    (serial position : Nat) : job.tables.isTerminal (job.readAt serial position).kind = true := by
  rcases job.readAt_cases serial position with ⟨_, _, _, _, -, rfl | ⟨_, token, hNext, rfl⟩, hRead⟩ | ⟨_, hRead⟩
  · rw [hRead]
    exact hReserved errorSymbol (by decide)
  · rw [hRead]
    exact hLexer _ token hNext
  · rw [hRead]
    exact hReserved endSymbol (by decide)

/-- Only terminals are inserted. -/
theorem isTerminal_insertable (hGenerated : job.tables.Generated g m) (hProper : g.Proper)
    {terminal : SymbolId} (hInsertable : terminal ∈ job.tables.insertable) :
    job.tables.isTerminal terminal = true := by
  have hCount : 2 ≤ job.tables.terminalCount := by
    rw [hGenerated.terminalCount]
    exact hProper.reserved
  simp only [Tables.insertable, List.mem_filter, List.mem_range'_1] at hInsertable
  have hBelow := hInsertable.1.2
  rw [Nat.add_sub_cancel' hCount] at hBelow
  exact decide_eq_true hBelow

/-- The nodes of a parse follow the rules, if the lexer finds terminals only. -/
theorem upheld_grammatical (hGenerated : job.tables.Generated g m) (hProper : g.Proper)
    (hFits : job.tables.rules.size ≤ ruleBound)
    (hLexer : ∀ position token, job.lexer.next job.text position = some token →
      job.tables.isTerminal token.kind = true) :
    job.Upheld g m (Grammatical job.tables) := by
  have hReserved := isTerminal_reserved hGenerated hProper
  have hError := hReserved errorSymbol (by decide)
  refine ⟨hGenerated, hProper, ParseStack.lasting_grammatical hError, ?_, ?_, ?_, ?_⟩
  · exact fun serial position => .of_terminal (isTerminal_readAt hReserved hLexer serial position)
      (isLeaf_readAt job serial position)
  · exact fun serial terminal hInsertable =>
      .of_terminal (isTerminal_insertable hGenerated hProper hInsertable) rfl
  · exact fun hRule hTaken =>
      ParseStack.grammatical_reduced hGenerated hProper hFits hError hRule hTaken
  · intro u hNode hLeaf
    rcases hNode.inner hLeaf with hKind | ⟨rule, hRule, hLhs⟩
    · exact .inl hKind
    · obtain ⟨i, hIndex, hSome⟩ := Array.mem_iff_getElem.mp hRule
      obtain ⟨source, hSource, rfl⟩ := hGenerated.rule_of_rules
        (Array.getElem?_eq_some_iff.mpr ⟨hIndex, hSome⟩)
      exact .inr (hLhs ▸ (hProper.lhs source (Array.mem_of_getElem? hSource)).2)

/-- A root follows the grammar: the nodes below it do, and so do its own children, unless the input
was not accepted and they are all error nodes. -/
structure LawfulRoot (t : Tables) (accepted : Bool) (root : Subtree) : Prop where
  below : ∀ u ∈ root.children, All (Grammatical t) u
  derives : accepted = true → Derives t t.start (outline root.children)
  abandoned : accepted = false → outline root.children = []

/-- However a parse ends, its stack is legal. -/
theorem Lawful.ended {P : Subtree → Prop} (hLasting : ParseStack.Lasting job.tables P)
    {s : ParseState} (h : job.Lawful P m s) {accepted : Bool} {stack : ParseStack}
    (hOutcome : job.Outcome s accepted stack) : stack.Legal job.tables P m := by
  cases hOutcome with
  | accepted t ts hPending hAccept => exact h.stack
  | abandoned t ts hPending hLeaf hKind =>
      have hClosed := h.stack.closeError hLasting
      have hEmpty : s.stack.popAll.2.Legal job.tables P m :=
        hClosed.of_entries (List.append_nil s.stack.closeError.entries).symm hClosed.opened
      have hPieces : ∀ u ∈ s.stack.popAll.1, All P u := by
        intro u hMem
        obtain ⟨e, hEntry, rfl⟩ : ∃ e ∈ s.stack.closeError.entries, e.subtree = u := by
          simpa [ParseStack.popAll] using hMem
        exact (hClosed.entries e hEntry).nodes
      split
      · exact hEmpty
      · exact hEmpty.pushSkipped hLasting hPieces

/-- The nodes below the root of a parse have the property. -/
theorem Lawful.below {P : Subtree → Prop} (hUpheld : job.Upheld g m P) {s : ParseState}
    (h : job.Lawful P m s) {accepted : Bool} {stack : ParseStack}
    (hOutcome : job.Outcome s accepted stack) (length : Nat) :
    ∀ u ∈ (stack.toRoot job.tables length accepted).1.children, All P u :=
  ParseStack.all_children_toRoot hUpheld.lasting (h.ended hUpheld.lasting hOutcome) _ _

/-- What is left when a parse gives up has been skipped. -/
theorem Outcome.outline_eq_nil {s : ParseState} {stack : ParseStack}
    (hPlain : job.tables.isHidden errorSymbol = false) (h : job.Outcome s false stack)
    (length : Nat) : outline (stack.toRoot job.tables length false).1.children = [] := by
  cases h with
  | abandoned t ts hPending hLeaf hKind =>
      refine ParseStack.outline_toRoot_of_errors hPlain (ParseStack.entries_closeError_of_nil ?_) _ _
      obtain ⟨top, hSplit⟩ :=
        ParseStack.entries_pushSkipped job.tables s.stack.popAll.2 s.stack.popAll.1
      split
      · rfl
      · exact (List.append_eq_nil_iff.mp hSplit.symm).2

theorem Lawful.outcome (hUpheld : job.Upheld g m (Grammatical job.tables)) {s : ParseState}
    (h : job.Lawful (Grammatical job.tables) m s) {accepted : Bool} {stack : ParseStack}
    (hOutcome : job.Outcome s accepted stack) (length : Nat) :
    LawfulRoot job.tables accepted (stack.toRoot job.tables length accepted).1 := by
  have hError := hUpheld.isTerminal_errorSymbol
  have hPlain := (hUpheld.generated.splices_of_isTerminal hUpheld.proper hError).1
  refine ⟨h.below hUpheld hOutcome length, ?_, ?_⟩
  · rintro rfl
    cases hOutcome with
    | accepted t ts hPending hAccept =>
        exact ParseStack.derives_toRoot hUpheld.generated hUpheld.proper hError h.stack hAccept _ _
  · rintro rfl
    exact hOutcome.outline_eq_nil hPlain length

/-- Every parse makes a root that follows the grammar. -/
theorem lawful_parseWithin (hUpheld : job.Upheld g m (Grammatical job.tables)) {limit : Nat}
    {queue : Option ReuseQueue}
    (hQueue : ∀ q, queue = some q → ∀ u ∈ q.ahead, All (Grammatical job.tables) u)
    {nextSerial : Nat} {made : Subtree × Nat}
    (hParse : job.parseWithin limit queue nextSerial = some made) :
    ∃ accepted, job.verdict? limit queue nextSerial = some accepted
      ∧ LawfulRoot job.tables accepted made.1 := by
  obtain ⟨r, accepted, stack, hVerdict, hMoves, hOutcome, rfl⟩ :=
    parseWithin_moves (hUpheld.generated.stops hUpheld.proper) hParse
  exact ⟨accepted, hVerdict,
    ((lawful_start hQueue nextSerial).moves hUpheld hMoves).outcome hUpheld hOutcome _⟩

end ParseJob
end IncrementalParsing
