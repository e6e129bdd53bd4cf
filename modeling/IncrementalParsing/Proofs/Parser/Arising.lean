import IncrementalParsing.Proofs.Tables.Trials
import IncrementalParsing.Proofs.Tree.Grammatical

/-! The configurations that a parse or a reparse comes to, whatever the lexer finds. Their stacks
are paths through the automaton, so a reduction never fails, on the stack or in a trial. -/
namespace IncrementalParsing
open Subtree

/-- A node with children is an error node or of a symbol of the grammar. -/
def Subtree.Rooted (g : Grammar) (u : Subtree) : Prop :=
  u.isLeaf = false → u.kind = errorSymbol ∨ u.kind < g.symbols.size

/-- Whatever the lexer finds, the nodes of a parse are of symbols of the grammar. -/
theorem ParseJob.upheld_rooted {job : ParseJob} {g : Grammar} {m : Automaton}
    (hGenerated : job.tables.Generated g m) (hProper : g.Proper) :
    job.Upheld g m (Rooted g) where
  generated := hGenerated
  proper := hProper
  lasting := ⟨fun _ _ h => by simpa [Rooted] using h, fun _ _ _ _ _ _ => .inl rfl⟩
  read := fun serial position hLeaf => by
    rw [isLeaf_readAt] at hLeaf
    simp at hLeaf
  inserted := fun _ _ _ hLeaf => by
    rw [isLeaf_inserted] at hLeaf
    simp at hLeaf
  reduced := by
    intro s rule info hRule _ lookaheadStop _
    obtain ⟨source, hSource, rfl⟩ := hGenerated.rule_of_rules hRule
    exact .inr (hProper.lhs source (Array.mem_of_getElem? hSource)).2
  inner := fun _ h hLeaf => h hLeaf

/-- What tokens and error nodes have, and reductions pass on, holds of the nodes of a parse beside
that. -/
theorem ParseJob.upheld_beside {job : ParseJob} {g : Grammar} {m : Automaton}
    (hGenerated : job.tables.Generated g m) (hProper : g.Proper) {Q : Subtree → Prop}
    (hLasting : ParseStack.Lasting job.tables Q)
    (hRead : ∀ serial position, Q (job.readAt serial position))
    (hInserted : ∀ serial, ∀ terminal ∈ job.tables.insertable, Q (.inserted serial terminal))
    (hReduced : ∀ {s : ParseStack} {rule : RuleId} {info : Production},
      job.tables.rules[rule]? = some info →
      ParseStack.Taken job.tables (fun u => Rooted g u ∧ Q u) m s info
        (ParseStack.takeChildren info.rhs.reverse (s.entries.dropWhile (·.extra)) []).1
        (s.uncovered info) →
      ∀ lookaheadStop, Q (s.reduced job.tables info lookaheadStop)) :
    job.Upheld g m fun u => Rooted g u ∧ Q u where
  generated := hGenerated
  proper := hProper
  lasting :=
    let hRooted := (upheld_rooted hGenerated hProper).lasting
    ⟨fun field u h => ⟨hRooted.withField field u h.1, hLasting.withField field u h.2⟩,
      fun serial state children hSome hClosed => ⟨hRooted.error serial state children hSome hClosed,
        hLasting.error serial state children hSome hClosed⟩⟩
  read := fun serial position => ⟨(upheld_rooted hGenerated hProper).read serial position,
    hRead serial position⟩
  inserted := fun serial terminal hMem =>
    ⟨(upheld_rooted hGenerated hProper).inserted serial terminal hMem, hInserted serial terminal hMem⟩
  reduced := by
    intro s rule info hRule hTaken lookaheadStop
    obtain ⟨source, hSource, rfl⟩ := hGenerated.rule_of_rules hRule
    exact ⟨fun _ => .inr (hProper.lhs source (Array.mem_of_getElem? hSource)).2,
      hReduced hRule hTaken lookaheadStop⟩
  inner := fun _ h hLeaf => h.1 hLeaf

/-- The configurations of the parses of a language: of parses from scratch, and of reparses of any
tree that has come about. -/
inductive Arises (language : Language) : ParseJob → ParseState → Lookahead → Prop
  | parse (p : Parser) (hLanguage : p.language = language) (text : ByteArray) (nextSerial : Nat) :
      Arises language (p.job text) ((p.job text).nextInput (ParseJob.start none nextSerial)).2
        ((p.job text).nextInput (ParseJob.start none nextSerial)).1
  | reparse (p : Parser) (hLanguage : p.language = language) (text : ByteArray) {edited : Tree}
      {accepted : Bool} (hGrown : Grown language edited accepted) (nextSerial : Nat) :
      Arises language (p.job text)
        ((p.job text).nextInput (ParseJob.start (p.queueOf edited) nextSerial)).2
        ((p.job text).nextInput (ParseJob.start (p.queueOf edited) nextSerial)).1
  | step {job : ParseJob} {s r : ParseState} {lookahead next : Lookahead}
      (h : Arises language job s lookahead) (hStep : job.step s lookahead = .next next r) :
      Arises language job r next

section
variable {language : Language} {g : Grammar} {m : Automaton}

/-- The root of a tree is what a parse has left on its stack, on a run where the property held. -/
structure ParseJob.Rests (job : ParseJob) (m : Automaton) (P : Subtree → Prop) (s : ParseState)
    (stack : ParseStack) (accepted : Bool) (root : Subtree) : Prop where
  lawful : job.Lawful P m s
  outcome : job.Outcome s accepted stack
  root : ∃ length, root = (stack.toRoot job.tables length accepted).1

/-- Where the stack rests, what is upheld holds below the root. -/
theorem ParseJob.Rests.below {job : ParseJob} {P : Subtree → Prop} (hUpheld : job.Upheld g m P)
    {s : ParseState} {stack : ParseStack} {accepted : Bool} {root : Subtree}
    (h : job.Rests m P s stack accepted root) : ∀ u ∈ root.children, All P u := by
  obtain ⟨length, rfl⟩ := h.root
  exact h.lawful.below hUpheld h.outcome length

/-- What is upheld in every parse of a language holds of the run that made a tree. -/
theorem Grown.rests {P : Subtree → Prop}
    (hUpheld : ∀ (p : Parser) (text : ByteArray), p.language = language →
      (p.job text).Upheld g m P)
    {tree : Tree} {accepted : Bool} (h : Grown language tree accepted) :
    tree.language = language ∧ ∃ (p : Parser) (text : ByteArray) (s : ParseState) (stack : ParseStack),
      p.language = language ∧ (p.job text).Rests m P s stack accepted tree.root := by
  refine h.of_runs (P := P) (Q := fun accepted root => ∃ (p : Parser) (text : ByteArray)
    (s : ParseState) (stack : ParseStack),
    p.language = language ∧ (p.job text).Rests m P s stack accepted root) ?_ ?_
  · rintro accepted root ⟨p, text, s, stack, hLanguage, hRests⟩
    exact hRests.below (hUpheld p text hLanguage)
  · intro p text queue limit nextSerial made accepted hLanguage hQueue hMade hVerdict
    have hUp := hUpheld p text hLanguage
    obtain ⟨s, verdict, stack, hSame, hMoves, hOutcome, rfl⟩ :=
      ParseJob.parseWithin_moves (hUp.generated.stops hUp.proper) hMade
    obtain rfl : verdict = accepted := Option.some.inj (hSame.symm.trans hVerdict)
    exact ⟨p, text, s, stack, hLanguage,
      (ParseJob.lawful_start hQueue nextSerial).moves hUp hMoves, hOutcome, _, rfl⟩

theorem Grown.language_eq {tree : Tree} {accepted : Bool} (h : Grown language tree accepted) :
    tree.language = language :=
  (h.of_runs (P := fun _ => True) (Q := fun _ root => ∀ u ∈ root.children, All (fun _ => True) u)
    (fun _ _ hRoot => hRoot) fun _ _ _ _ _ _ _ _ _ _ _ u _ =>
      children_induction (fun _ ih => all_iff.mpr ⟨trivial, ih⟩) u).1

/-- Every node of a grown tree is rooted in the grammar. -/
theorem Grown.rooted (hGenerated : language.tables.Generated g m) (hProper : g.Proper) {tree : Tree}
    {accepted : Bool} (h : Grown language tree accepted) :
    ∀ u ∈ tree.root.children, All (Rooted g) u := by
  have hUpheld : ∀ (p : Parser) (text : ByteArray), p.language = language →
      (p.job text).Upheld g m (Rooted g) := by
    rintro p text rfl
    exact ParseJob.upheld_rooted hGenerated hProper
  obtain ⟨-, p, text, s, stack, hLanguage, hRests⟩ := h.rests hUpheld
  exact hRests.below (hUpheld p text hLanguage)

theorem all_ahead_queueOf {P : Subtree → Prop} {edited : Tree}
    (hTree : ∀ u ∈ edited.root.children, All P u) (p : Parser) (q : ReuseQueue)
    (hQueue : p.queueOf edited = some q) : ∀ u ∈ q.ahead, All P u := by
  obtain rfl := Parser.queueOf_eq_some hQueue
  exact hTree

/-- What holds wherever a parse comes to. -/
structure ParseJob.Along (job : ParseJob) (g : Grammar) (m : Automaton) (s : ParseState)
    (lookahead : Lookahead) : Prop where
  lawful : job.Lawful (Rooted g) m (s.facing lookahead)
  tidy : ParseJob.Tidy s lookahead

theorem ParseJob.Along.start {job : ParseJob} (hGenerated : job.tables.Generated g m)
    (hProper : g.Proper) {queue : Option ReuseQueue}
    (hQueue : ∀ q, queue = some q → ∀ u ∈ q.ahead, All (Rooted g) u) (nextSerial : Nat) :
    job.Along g m (job.nextInput (ParseJob.start queue nextSerial)).2
      (job.nextInput (ParseJob.start queue nextSerial)).1 := by
  obtain ⟨hMoves, hTidy⟩ :=
    @nextInput_moves job (ParseJob.start queue nextSerial) (by simp [ParseJob.start])
  exact ⟨(lawful_start hQueue nextSerial).moves (upheld_rooted hGenerated hProper) hMoves, hTidy⟩

/-- Steps stay along the automaton. -/
theorem ParseJob.Along.step {job : ParseJob} (hGenerated : job.tables.Generated g m)
    (hProper : g.Proper) {s r : ParseState} {lookahead next : Lookahead}
    (h : job.Along g m s lookahead) (hStep : job.step s lookahead = .next next r) :
    job.Along g m r next := by
  have hLeads := leads_step (hGenerated.stops hProper) s lookahead h.tidy
  rw [hStep] at hLeads
  exact ⟨h.lawful.moves (upheld_rooted hGenerated hProper) hLeads.1, hLeads.2⟩

theorem Arises.tables {job : ParseJob} {s : ParseState} {lookahead : Lookahead}
    (h : Arises language job s lookahead) : job.tables = language.tables := by
  induction h with
  | parse p hLanguage => rw [← hLanguage]; rfl
  | reparse p hLanguage => rw [← hLanguage]; rfl
  | step _ _ ih => exact ih

/-- So every arising configuration is. -/
theorem Arises.along (hGenerated : language.tables.Generated g m) (hProper : g.Proper)
    {job : ParseJob} {s : ParseState} {lookahead : Lookahead}
    (h : Arises language job s lookahead) : job.Along g m s lookahead := by
  induction h with
  | parse p hLanguage text nextSerial =>
      subst hLanguage
      exact .start hGenerated hProper (by simp) nextSerial
  | reparse p hLanguage text hGrown nextSerial =>
      have hQueue := all_ahead_queueOf (hGrown.rooted hGenerated hProper) p
      subst hLanguage
      exact .start hGenerated hProper hQueue nextSerial
  | step h hStep ih =>
      rw [← h.tables] at hGenerated
      exact ih.step hGenerated hProper hStep

/-- A configuration where a reduction that the tables ask for never fails. -/
structure ParseJob.Reducible (job : ParseJob) (s : ParseState) : Prop where
  /-- On the stack there are the children of the rule, and the tables lead on below them. -/
  stack : ∀ terminal rule, job.tables.action s.stack.state terminal = .reduce rule →
    ∃ info, job.tables.rules[rule]? = some info ∧ info.rhs.length ≤ s.stack.states.length
      ∧ (job.tables.goto ((s.stack.states.drop info.rhs.length).headD 0) info.lhs).isSome = true
      ∧ ∀ lookaheadStop, (s.stack.reduce job.tables info lookaheadStop).1 = true
  /-- So a step that reduces does nothing else. -/
  step : ∀ lookahead rule,
    job.tables.action s.stack.state (lookahead.subtree.leftmost 0).1.kind = .reduce rule →
      ∃ info, job.tables.rules[rule]? = some info ∧ job.step s lookahead
        = .next lookahead { s with
            stack := (s.stack.reduce job.tables info (s.stack.stop
              + (lookahead.subtree.leftmost 0).2 + (lookahead.subtree.leftmost 0).1.lookahead)).2 }
  /-- The same holds for the states in a trial. -/
  trials : ∀ tried, job.tables.Tried s.stack.states tried → job.tables.CanReduce tried
  /-- Repair starts its trials from such states, and comes to such states. -/
  popped : ∀ depth, job.tables.Tried s.stack.states
    ((resumePoint?.suffixes s.stack.states #[]).getD depth [])
  after : ∀ tried, job.tables.Tried s.stack.states tried → ∀ terminal next,
    job.tables.after? tried terminal = some next → job.tables.Tried s.stack.states next
  /-- A trial fails for want of an action or at its limit, and for no other reason. -/
  fails : ∀ tried, job.tables.Tried s.stack.states tried → ∀ terminal limit,
    job.tables.act terminal limit tried = none →
      ∃ count last, job.tables.Reductions terminal tried count last
        ∧ (job.tables.action (last.headD 0) terminal = .error ∨ count = limit)

/-- The candidates to resume at are the tails of the stack. -/
theorem suffixes_eq (states : List StateId) (found : Array (List StateId)) :
    ParseJob.resumePoint?.suffixes states found = found ++ states.tails.toArray := by
  induction states generalizing found with
  | nil => simp [ParseJob.resumePoint?.suffixes]
  | cons state states ih => simp [ParseJob.resumePoint?.suffixes, ih]

/-- The states that are left after some pops. -/
theorem getD_suffixes (states : List StateId) (depth : Nat) :
    (ParseJob.resumePoint?.suffixes states #[]).getD depth [] = states.drop depth := by
  rw [suffixes_eq]
  induction states generalizing depth with
  | nil => cases depth <;> simp
  | cons state states ih =>
      cases depth with
      | zero => simp
      | succ depth => simpa using ih depth

/-- On the states alone, a reduction of the stack is the one that is tried out. If it fails, the states
of the rule are gone all the same. -/
theorem ParseStack.Legal.states_reduce {t : Tables} {P : Subtree → Prop} {s : ParseStack}
    (hGenerated : t.Generated g m) (hProper : g.Proper) (hLasting : Lasting t P) (h : s.Legal t P m)
    {terminal : SymbolId} {rule : RuleId} {info : Production}
    (hReduce : t.action s.state terminal = .reduce rule) (hRule : t.rules[rule]? = some info)
    (lookaheadStop : Nat) :
    (s.reduce t info lookaheadStop).1 = (t.reduction? terminal s.states).isSome
      ∧ (s.reduce t info lookaheadStop).2.states
        = (t.reduction? terminal s.states).getD (s.states.drop info.rhs.length) := by
  obtain ⟨hDone, hSteps⟩ := h.steps_reduce hGenerated hProper hLasting hReduce hRule lookaheadStop
  have hReduction : t.reduction? terminal s.states
      = (t.goto (Automaton.endOf ((steps s.entries).drop info.rhs.length)) info.lhs).map
          (· :: s.states.drop info.rhs.length) := by
    rw [Tables.reduction?, states_eq, Tables.Generated.headD_states, h.aligned.endOf_steps]
    rw [state] at hReduce
    simp only [hReduce, hRule]
    rw [← List.map_drop, Tables.Generated.headD_states]
  rw [hDone, hReduction, (s.reduce t info lookaheadStop).2.states_eq, hSteps, states_eq]
  cases t.goto (Automaton.endOf ((steps s.entries).drop info.rhs.length)) info.lhs <;> simp

/-- What a step comes to where the tables ask for a reduction: it is done, or it fails and there is no
action left. -/
inductive ParseJob.ReduceOutcome (job : ParseJob) (s : ParseState) (lookahead : Lookahead) (rule : RuleId) :
    ParseStep → Prop
  | done (info : Production) (stack : ParseStack) (hRule : job.tables.rules[rule]? = some info)
      (hReduced : s.stack.reduce job.tables info (s.stack.stop + (lookahead.subtree.leftmost 0).2
        + (lookahead.subtree.leftmost 0).1.lookahead) = (true, stack))
      (hStates : job.tables.reduction? (lookahead.subtree.leftmost 0).1.kind s.stack.states
        = some stack.states) :
      ReduceOutcome job s lookahead rule (.next lookahead { s with stack })
  | failed (info : Production) (stack : ParseStack) (hRule : job.tables.rules[rule]? = some info)
      (hReduced : s.stack.reduce job.tables info (s.stack.stop + (lookahead.subtree.leftmost 0).2
        + (lookahead.subtree.leftmost 0).1.lookahead) = (false, stack))
      (hNone : job.tables.reduction? (lookahead.subtree.leftmost 0).1.kind s.stack.states = none)
      (hStates : stack.states = s.stack.states.drop info.rhs.length) :
      ReduceOutcome job s lookahead rule (job.stuck { s with stack } lookahead)

theorem ParseStack.Legal.reduces {job : ParseJob} {P : Subtree → Prop} {s : ParseState}
    (hGenerated : job.tables.Generated g m) (hProper : g.Proper)
    (hLasting : ParseStack.Lasting job.tables P) (h : s.stack.Legal job.tables P m)
    {lookahead : Lookahead} {rule : RuleId}
    (hReduce : job.tables.action s.stack.state (lookahead.subtree.leftmost 0).1.kind = .reduce rule) :
    job.ReduceOutcome s lookahead rule (job.step s lookahead) := by
  have hLess := hGenerated.rule_lt hReduce
  have hRule : job.tables.rules[rule]? = some job.tables.rules[rule] := Array.getElem?_eq_getElem hLess
  obtain ⟨hDone, hStates⟩ := h.states_reduce hGenerated hProper hLasting hReduce hRule
    (s.stack.stop + (lookahead.subtree.leftmost 0).2 + (lookahead.subtree.leftmost 0).1.lookahead)
  rw [ParseJob.step]
  simp only [hReduce, ParseJob.reduceBy, hRule]
  generalize hReduced : s.stack.reduce job.tables job.tables.rules[rule]
    (s.stack.stop + (lookahead.subtree.leftmost 0).2 + (lookahead.subtree.leftmost 0).1.lookahead)
    = reduced at hDone hStates
  obtain ⟨pushed, stack⟩ := reduced
  cases hReduction : job.tables.reduction? (lookahead.subtree.leftmost 0).1.kind s.stack.states with
  | some after =>
      rw [hReduction] at hDone hStates
      obtain rfl : pushed = true := hDone
      obtain rfl : stack.states = after := hStates
      exact .done _ stack hRule hReduced hReduction
  | none =>
      rw [hReduction] at hDone hStates
      obtain rfl : pushed = false := hDone
      exact .failed _ stack hRule hReduced hReduction hStates

/-- Faithful tables never let a reduction fail. -/
theorem ParseStack.Legal.reducible {job : ParseJob} {P : Subtree → Prop} {s : ParseState}
    (hFaithful : job.tables.Faithful g m) (hProper : g.Proper)
    (hLasting : ParseStack.Lasting job.tables P) (h : s.stack.Legal job.tables P m) :
    job.Reducible s := by
  have hGenerated := hFaithful.toGenerated
  have hTrials : ∀ tried, job.tables.Tried s.stack.states tried → job.tables.CanReduce tried := by
    rw [ParseStack.states_eq]
    exact fun tried => hFaithful.canReduce_of_tried hProper h.aligned.path
  have hHead : s.stack.states.headD 0 = s.stack.state := by
    rw [ParseStack.states_eq, Tables.Generated.headD_states, h.aligned.endOf_steps]
    rfl
  have hSome : ∀ {terminal rule}, job.tables.action s.stack.state terminal = .reduce rule →
      ∃ info next, job.tables.rules[rule]? = some info ∧ info.rhs.length ≤ s.stack.states.length
        ∧ job.tables.goto ((s.stack.states.drop info.rhs.length).headD 0) info.lhs = some next
        ∧ job.tables.reduction? terminal s.stack.states
          = some (next :: s.stack.states.drop info.rhs.length) := by
    intro terminal rule hReduce
    rw [← hHead] at hReduce
    obtain ⟨info, next, hRule, hBound, hGoto⟩ := hTrials _ (.cut 0) terminal rule hReduce
    exact ⟨info, next, hRule, hBound, hGoto, Tables.reduction?_of_reduce hReduce hRule hGoto⟩
  refine ⟨?_, ?_, hTrials, ?_, fun tried hTried terminal next => hTried.act hTrials, ?_⟩
  · intro terminal rule hReduce
    obtain ⟨info, next, hRule, hBound, hGoto, hReduction⟩ := hSome hReduce
    refine ⟨info, hRule, hBound, by rw [hGoto]; rfl, fun lookaheadStop => ?_⟩
    rw [(h.states_reduce hGenerated hProper hLasting hReduce hRule lookaheadStop).1, hReduction]
    rfl
  · intro lookahead rule hReduce
    obtain ⟨_, _, -, -, -, hReduction⟩ := hSome hReduce
    have hReduces := h.reduces hGenerated hProper hLasting hReduce
    generalize job.step s lookahead = outcome at hReduces
    cases hReduces with
    | done info stack hRule hReduced _ => exact ⟨info, hRule, by rw [hReduced]⟩
    | failed _ _ _ _ hNone => simp [hNone] at hReduction
  · intro depth
    rw [getD_suffixes]
    exact .cut depth
  · intro tried hTried terminal limit hFails
    obtain ⟨count, last, -, hReductions, hEnd⟩ :=
      Tables.act_cases hTrials terminal limit hTried
    refine ⟨count, last, hReductions, ?_⟩
    rw [hFails] at hEnd
    rcases hEnd with ⟨_, _, hNone⟩ | ⟨_, hNone⟩ | ⟨hError, -⟩ | ⟨hCount, -⟩
    · simp at hNone
    · simp at hNone
    · exact .inl hError
    · exact .inr hCount

/-- In every configuration, a reduction that the tables ask for finds its rule and its children,
and the tables lead on from there, both on the stack and in the trials of a repair. -/
theorem reducible_of_arises (hBuilt : language.tables.Built)
    (hFits : language.tables.rules.size ≤ ruleBound) {job : ParseJob} {s : ParseState}
    {lookahead : Lookahead} (h : Arises language job s lookahead) : job.Reducible s := by
  obtain ⟨g, m, hFaithful, hProper⟩ := hBuilt.faithful hFits
  have hAlong := h.along hFaithful.toGenerated hProper
  rw [← h.tables] at hFaithful
  exact hAlong.lawful.stack.reducible hFaithful hProper
    (ParseJob.upheld_rooted hFaithful.toGenerated hProper).lasting

end

/-- Where a step goes on. -/
def ParseStep.next? : ParseStep → Option (Lookahead × ParseState)
  | .next lookahead s => some (lookahead, s)
  | .done _ _ => none

/-- A number behind a letter asks for the reduction of the letter. -/
theorem reducible_behind_letter : ∃ s lookahead,
    Arises Labels.language (Labels.parser.job "a5".toUTF8) s lookahead
      ∧ Labels.tables.action s.stack.state lookahead.subtree.kind = .reduce 5
      ∧ (Labels.parser.job "a5".toUTF8).Reducible s := by
  let job := Labels.parser.job "a5".toUTF8
  let first := job.nextInput (ParseJob.start none 0)
  have hFirst : Arises Labels.language job first.2 first.1 := .parse Labels.parser rfl _ 0
  have hReduce : ((job.step first.2 first.1).next?.any fun found =>
      Labels.tables.action found.2.stack.state found.1.subtree.kind == .reduce 5) = true := by
    decide +kernel
  cases hStep : job.step first.2 first.1 with
  | done accepted stack =>
      rw [hStep] at hReduce
      exact absurd hReduce Bool.false_ne_true
  | next lookahead s =>
      rw [hStep] at hReduce
      have hArises := hFirst.step hStep
      exact ⟨s, lookahead, hArises, eq_of_beq hReduce,
        reducible_of_arises Labels.built_tables Labels.fits_tables hArises⟩

end IncrementalParsing
