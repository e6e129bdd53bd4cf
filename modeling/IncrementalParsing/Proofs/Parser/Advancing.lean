import IncrementalParsing.Proofs.Parser.Budget

/-! Every step gets a parse on. It ends the parse, or reduces, or uses up some of what there is left
to do. Recovery may pop entries or insert tokens without reading anything, but then it has made sure
that the next tokens are taken up. -/
namespace IncrementalParsing
open Subtree

namespace ParseJob
variable {job : ParseJob} {g : Grammar} {m : Automaton}

/-- Where a parse stands between its steps. Recovery may have made sure that some inserted tokens
and one more are taken up. Otherwise the input that has been read is as it was found. -/
structure Poised (job : ParseJob) (promised : Option Nat) (s : ParseState) (lookahead : Lookahead) :
    Prop where
  linked : Linked s lookahead
  input : match promised with
    | none => ∀ u ∈ lookahead.subtree :: s.pending, u.Solid
    | some count => job.tables.Welcomes count s.stack.states (lookahead.subtree :: s.pending)

/-- What is left to do, weighed so that recovery uses some of it up. -/
def energy (job : ParseJob) (promised : Option Nat) (s : ParseState) : Nat :=
  (job.limits.maxMissing + 3) * job.budget s + promised.getD (job.limits.maxMissing + 2)

/-- What is left to do does not depend on the entries of the stack. -/
theorem energy_of_stop {job : ParseJob} {promised : Option Nat} {s r : ParseState} {lookahead : Lookahead}
    (hPending : r.pending = s.pending) (hQueue : r.queue = s.queue)
    (hStop : r.stack.stop = s.stack.stop) :
    job.energy promised (r.facing lookahead) = job.energy promised (s.facing lookahead) := by
  simp only [energy, budget, ParseState.facing, hPending, hQueue, hStop]

/-- The second state is further on in the text, or closer to tokens that are taken up. -/
def Closer (promised promised' : Option Nat) (s r : ParseState) : Prop :=
  s.stack.stop < r.stack.stop
    ∨ s.stack.stop ≤ r.stack.stop
      ∧ ∃ count, promised' = some count ∧ ∀ before, promised = some before → count < before

/-- What a step comes to that ends the parse, or uses something up. What is read is only known to be used
up if tokens end where offsets are. -/
inductive Spent (job : ParseJob) (promised : Option Nat) (s : ParseState) (lookahead : Lookahead) :
    ParseStep → Prop
  | done (accepted : Bool) (stack : ParseStack) (hPromise : promised ≠ none → accepted = true) :
      Spent job promised s lookahead (.done accepted stack)
  | moved (next : Lookahead) (r : ParseState) (promised' : Option Nat)
      (hPoised : job.Poised promised' r next)
      (hEnergy : job.lexer.InRange →
        job.energy promised' (r.facing next) < job.energy promised (s.facing lookahead))
      (hHeight : r.stack.states.length ≤ s.stack.states.length + 1)
      (hCloser : lookahead.subtree.isLeaf = true → Closer promised promised' s r) :
      Spent job promised s lookahead (.next next r)

/-- What a step comes to. -/
inductive Advance (job : ParseJob) (promised : Option Nat) (s : ParseState) (lookahead : Lookahead) :
    ParseStep → Prop
  | reduced (r : ParseState)
      (hReduction : job.tables.reduction? (lookahead.subtree.leftmost 0).1.kind s.stack.states
        = some r.stack.states)
      (hPoised : job.Poised promised r lookahead)
      (hEnergy : job.energy promised (r.facing lookahead)
        = job.energy promised (s.facing lookahead))
      (hStop : r.stack.stop = s.stack.stop) : Advance job promised s lookahead (.next lookahead r)
  | spent {outcome : ParseStep} (h : job.Spent promised s lookahead outcome) :
      Advance job promised s lookahead outcome

section
variable {promised : Option Nat} {s r : ParseState} {lookahead : Lookahead}

/-- When something has been used up, the next input is as good as any. -/
theorem spent_ofInput (hLeaves : ∀ u ∈ r.pending, u.isLeaf = true) (hSolid : ∀ u ∈ r.pending, u.Solid)
    (hBudget : job.lexer.InRange → job.budget r < job.budget (s.facing lookahead))
    (hHeight : r.stack.states.length ≤ s.stack.states.length + 1)
    (hStop : lookahead.subtree.isLeaf = true → s.stack.stop < r.stack.stop) :
    job.Spent promised s lookahead (.ofInput (job.nextInput r)) := by
  obtain ⟨hLinked, hNext, hCost, hStates, hSame⟩ := @meets_nextInput job r hLeaves hSolid
  refine .moved _ _ none ⟨hLinked, hNext⟩ (fun hRange => ?_) (by rwa [hStates]) fun hLeaf => .inl ?_
  · have hLess := (hCost hRange).trans_lt (hBudget hRange)
    calc job.energy none ((job.nextInput r).2.facing (job.nextInput r).1)
        < (job.limits.maxMissing + 3)
            * (job.budget ((job.nextInput r).2.facing (job.nextInput r).1) + 1) := by
          rw [energy, Nat.mul_succ, Option.getD_none]
          omega
      _ ≤ (job.limits.maxMissing + 3) * job.budget (s.facing lookahead) := Nat.mul_le_mul_left _ hLess
      _ ≤ job.energy promised (s.facing lookahead) := Nat.le_add_right _ _
  · rw [hSame]
    exact hStop hLeaf

/-- A token with a width that goes onto the stack is used up. More tokens may have been read. -/
theorem spent_taken (hTidy : Tidy s lookahead) (hLeaf : lookahead.subtree.isLeaf = true)
    (hWide : 0 < lookahead.subtree.total) (hWorth : lookahead.subtree.worth = 1)
    (hPending : ∀ u ∈ r.pending, u.isLeaf = true ∧ u.Solid)
    (hSpare : job.lexer.InRange → job.spare s.stack.stop (lookahead.subtree :: r.pending)
      ≤ job.spare s.stack.stop (lookahead.subtree :: s.pending))
    (hQueue : r.queue = s.queue) (hStop : r.stack.stop = s.stack.stop + lookahead.subtree.total)
    (hHeight : r.stack.states.length ≤ s.stack.states.length + 1) :
    job.Spent promised s lookahead (.ofInput (job.nextInput r)) := by
  refine spent_ofInput (fun u hMem => (hPending u hMem).1) (fun u hMem => (hPending u hMem).2)
    (fun hRange => ?_) hHeight fun _ => by omega
  replace hSpare := hSpare hRange
  rw [spare_cons] at hSpare
  rw [budget_of_leaves fun u hMem => (hPending u hMem).1, budget_facing hLeaf hTidy, hQueue, hStop]
  omega

/-- So is a token that is skipped. -/
theorem spent_skipped (hTidy : Tidy s lookahead) (hLeaf : lookahead.subtree.isLeaf = true)
    (hWide : 0 < lookahead.subtree.total) (hWorth : lookahead.subtree.worth = 1)
    (hPending : ∀ u ∈ r.pending, u.isLeaf = true ∧ u.Solid)
    (hSpare : job.lexer.InRange → job.spare s.stack.stop (lookahead.subtree :: r.pending)
      ≤ job.spare s.stack.stop (lookahead.subtree :: s.pending))
    (hQueue : r.queue = s.queue) (hSound : r.stack.Sound job.tables.widths)
    (hStop : r.stack.stop = s.stack.stop) (hStates : r.stack.states = s.stack.states) :
    job.Spent promised s lookahead (.ofInput (job.nextInput (job.skip r [lookahead.subtree]))) := by
  have hPieces : ∀ u ∈ [lookahead.subtree], All (Measured job.tables.widths) u := by
    simpa using measured_widths_of_isLeaf hLeaf
  have hAfter := ParseStack.stop_pushSkipped job.tables hSound hPieces
  have hSame := ParseStack.states_pushSkipped job.tables r.stack [lookahead.subtree]
  refine spent_taken hTidy hLeaf hWide hWorth hPending hSpare hQueue ?_ ?_
  · rw [skip, hAfter, hStop]
    simp
  · rw [skip, hSame, hStates]
    exact Nat.le_succ _

theorem spent_shiftToken (hSized : job.Sized (s.facing lookahead)) (hTidy : Tidy s lookahead)
    (hLeaf : lookahead.subtree.isLeaf = true) (hWide : 0 < lookahead.subtree.total)
    (hWorth : lookahead.subtree.worth = 1) (hSolid : ∀ u ∈ s.pending, u.Solid) (next : StateId) :
    job.Spent promised s lookahead (job.shiftToken s next lookahead.subtree) := by
  have hPending : ∀ u ∈ s.pending, u.isLeaf = true ∧ u.Solid :=
    fun u hMem => ⟨hTidy.pending u hMem, hSolid u hMem⟩
  unfold shiftToken
  split
  · exact spent_skipped hTidy hLeaf hWide hWorth hPending (fun _ => Nat.le_refl _) rfl hSized.sound rfl rfl
  · refine spent_taken hTidy hLeaf hWide hWorth hPending (fun _ => Nat.le_refl _) rfl ?_ ?_
    · exact ParseStack.stop_push hSized.sound next lookahead.subtree
    · exact (congrArg List.length (ParseStack.states_push _ _ _)).le

/-- A token that was inserted is pushed whatever the limits are. -/
theorem spent_inserted (hSized : job.Sized (s.facing lookahead))
    (hNarrow : lookahead.subtree.total = 0) {next : StateId} {count : Nat}
    (hLeaf : lookahead.subtree.isLeaf = true) (hTidy : Tidy s lookahead)
    (hRest : job.tables.Welcomes count (next :: s.stack.states) s.pending) :
    job.Spent (some (count + 1)) s lookahead (job.shiftToken s next lookahead.subtree) := by
  have hStop : (s.stack.push next lookahead.subtree).stop = s.stack.stop :=
    (ParseStack.stop_push hSized.sound next lookahead.subtree).trans (by rw [hNarrow]; rfl)
  have hStates := ParseStack.states_push s.stack next lookahead.subtree
  obtain ⟨u, us, hPending, hToken, -⟩ := hRest.exists_head
  have hStep : job.shiftToken s next lookahead.subtree
      = .next ⟨u, false⟩ { s with stack := s.stack.push next lookahead.subtree, pending := us } := by
    rw [shiftToken, if_neg (by omega), nextInput]
    simp only [hPending]
    rfl
  rw [hStep]
  refine .moved _ _ (some count) ⟨by simp [Linked, hToken], ?_⟩ (fun _ => ?_) ?_
    fun _ => .inr ⟨hStop.ge, count, rfl, ?_⟩
  · change job.tables.Welcomes count (s.stack.push next lookahead.subtree).states (u :: us)
    rw [hStates, ← hPending]
    exact hRest
  · have hBudget : job.budget (ParseState.facing
        { s with stack := s.stack.push next lookahead.subtree, pending := us } ⟨u, false⟩)
        = job.budget (s.facing lookahead) := by
      rw [budget_facing hLeaf hTidy, spare_cons, hNarrow, worth_of_narrow hNarrow, hPending,
        budget_facing hToken ⟨fun v hMem => hTidy.pending v (by simp [hPending, hMem]), by simp [hToken]⟩]
      change queued s.queue * (job.text.size + 1)
        + job.spare (s.stack.push next lookahead.subtree).stop (u :: us) = _
      rw [hStop]
      rfl
    rw [energy, energy, hBudget]
    exact Nat.add_lt_add_left (Nat.lt_succ_self count) _
  · exact (congrArg List.length hStates).le
  · intro before hBefore
    obtain rfl := Option.some.inj hBefore
    exact Nat.lt_succ_self count

end

/-- What is known of a parse between its steps. -/
structure Known (job : ParseJob) (g : Grammar) (m : Automaton) (s : ParseState)
    (lookahead : Lookahead) : Prop where
  generated : job.tables.Generated g m
  proper : g.Proper
  along : job.Along g m s lookahead
  sized : job.Sized (s.facing lookahead)

/-- What is known of a parse by faithful tables between its steps. -/
structure Assured (job : ParseJob) (g : Grammar) (m : Automaton) (s : ParseState)
    (lookahead : Lookahead) : Prop extends job.Known g m s lookahead where
  fits : g.rules.size ≤ ruleBound

instance {job : ParseJob} {g : Grammar} {m : Automaton} {s : ParseState} {lookahead : Lookahead} :
    Coe (job.Assured g m s lookahead) (job.Known g m s lookahead) :=
  ⟨Assured.toKnown⟩

section
variable {promised : Option Nat} {s : ParseState} {lookahead : Lookahead}

theorem Known.legal (h : job.Known g m s lookahead) : s.stack.Legal job.tables (Rooted g) m :=
  h.along.lawful.stack

theorem Known.lasting (h : job.Known g m s lookahead) : ParseStack.Lasting job.tables (Rooted g) :=
  (upheld_rooted h.generated h.proper).lasting

theorem Assured.faithful (h : job.Assured g m s lookahead) : job.tables.Faithful g m :=
  ⟨h.generated, h.fits⟩

theorem Assured.reducible (h : job.Assured g m s lookahead) : job.Reducible s :=
  h.legal.reducible h.faithful h.proper h.lasting

theorem Known.reduces (h : job.Known g m s lookahead) {rule : RuleId}
    (hReduce : job.tables.action s.stack.state (lookahead.subtree.leftmost 0).1.kind = .reduce rule) :
    job.ReduceOutcome s lookahead rule (job.step s lookahead) :=
  h.legal.reduces h.generated h.proper h.lasting hReduce

/-- As much is known behind a reduction, be it done or failed. -/
theorem Known.reduce (h : job.Known g m s lookahead) {rule : RuleId} {info : Production}
    (hReduce : job.tables.action s.stack.state (lookahead.subtree.leftmost 0).1.kind = .reduce rule)
    (hRule : job.tables.rules[rule]? = some info) {lookaheadStop : Nat}
    (hSeen : lookaheadStop = s.stack.stop + (lookahead.subtree.leftmost 0).2
      + (lookahead.subtree.leftmost 0).1.lookahead) :
    job.Known g m { s with stack := (s.stack.reduce job.tables info lookaheadStop).2 } lookahead := by
  have hMove := @Move.reduce job (s.facing lookahead) lookahead.subtree s.pending rule info lookaheadStop
    rfl hReduce hRule hSeen
  exact ⟨h.generated, h.proper,
    ⟨h.along.lawful.move (upheld_rooted h.generated h.proper) hMove,
      ⟨h.along.tidy.pending, h.along.tidy.whole⟩⟩,
    h.sized.move h.generated h.proper hMove⟩

theorem Known.headD_states (h : job.Known g m s lookahead) :
    s.stack.states.headD 0 = s.stack.state := by
  rw [ParseStack.states_eq, Tables.Generated.headD_states, h.legal.aligned.endOf_steps]
  rfl

/-- A reduction leaves everything but the states as it is. -/
theorem advance_reduced (h : job.Known g m s lookahead) (hPoised : job.Poised promised s lookahead)
    {info : Production} {lookaheadStop : Nat} {stack : ParseStack}
    (hReduced : s.stack.reduce job.tables info lookaheadStop = (true, stack))
    (hStates : job.tables.reduction? (lookahead.subtree.leftmost 0).1.kind s.stack.states
      = some stack.states) :
    job.Advance promised s lookahead (.next lookahead { s with stack }) := by
  have hStop : stack.stop = s.stack.stop := by
    have hSame := h.sized.stop_reduce h.generated h.proper info lookaheadStop
    rwa [show (s.facing lookahead).stack = s.stack from rfl, hReduced] at hSame
  refine .reduced _ hStates ⟨hPoised.linked, ?_⟩ ?_ hStop
  · have hInput := hPoised.input
    cases promised with
    | none => exact hInput
    | some count =>
        obtain ⟨u, us, hSame, hLeaf, -⟩ := Tables.Welcomes.exists_head hInput
        obtain ⟨rfl, rfl⟩ := List.cons.inj hSame
        rw [kind_leftmost_of_isLeaf hLeaf] at hStates
        exact Tables.Welcomes.reduce hInput hStates
  · exact energy_of_stop rfl rfl hStop

/-- What recovery has made sure of happens. -/
theorem advance_promised (h : job.Known g m s lookahead) {count : Nat}
    (hPoised : job.Poised (some count) s lookahead) :
    job.Advance (some count) s lookahead (job.step s lookahead) := by
  have hInput : job.tables.Welcomes count s.stack.states (lookahead.subtree :: s.pending) :=
    hPoised.input
  have hTidy := h.along.tidy
  have hHead := h.headD_states
  obtain ⟨_, _, hSame, hLeaf, limit, after, hAct⟩ := hInput.exists_head
  obtain ⟨rfl, rfl⟩ := List.cons.inj hSame
  have hKind := kind_leftmost_of_isLeaf hLeaf
  have hTakes := hAct
  rw [Tables.act, hHead] at hAct
  cases hAction : job.tables.action s.stack.state lookahead.subtree.kind with
  | error => simp [hAction] at hAct
  | accept =>
      have hStep : job.step s lookahead = .done true s.stack := by
        rw [step]
        simp only [hKind, hAction]
      rw [hStep]
      exact .spent (.done true s.stack fun _ => rfl)
  | reduce rule =>
      have hSome := Tables.isSome_reduction?_of_act (hHead.symm ▸ hAction) hTakes
      have hReduces := h.reduces (by rwa [hKind])
      generalize job.step s lookahead = outcome at hReduces
      cases hReduces with
      | done info stack _ hReduced hStates => exact advance_reduced h hPoised hReduced hStates
      | failed _ _ _ _ hNone => simp [hKind ▸ hNone] at hSome
  | shift next =>
      have hStep : job.step s lookahead = job.shiftToken s next lookahead.subtree := by
        rw [step]
        simp only [hKind, hAction, hLeaf, if_true]
      have hEnd : lookahead.subtree.kind ≠ endSymbol := fun hEnd =>
        h.generated.stops h.proper s.stack.state next (hEnd ▸ hAction)
      rw [hStep]
      cases hInput with
      | last _ hSolid =>
          obtain ⟨hWide, hWorth⟩ := (hSolid lookahead.subtree (by simp)).wide hLeaf hEnd
          exact .spent (spent_shiftToken h.sized hTidy hLeaf hWide hWorth
            (fun u hMem => hSolid u (by simp [hMem])) next)
      | @inserted _ after' count limit' _ _ _ hNarrow hAct' hRest =>
          have hAfter : after' = next :: s.stack.states := by
            cases limit' with
            | zero => simp [Tables.act] at hAct'
            | succ limit' =>
                rw [Tables.act, hHead, hAction] at hAct'
                exact (Option.some.inj hAct').symm
          rw [hAfter] at hRest
          exact .spent (spent_inserted h.sized hNarrow hLeaf hTidy hRest)

theorem spare_append_le (hRange : job.lexer.InRange) {position : Nat} {ts new : List Subtree}
    (hNew : job.ReadFrom (position + width ts) new) :
    job.spare position (ts ++ new) ≤ job.spare position ts := by
  have hRead := hNew.spare_le hRange
  rw [spare_append, spare, ← spare_nil]
  exact Nat.add_le_add_right hRead _

/-- What recovery inserts comes in front of the lookahead, and is taken up with it. -/
theorem insertMissing_spec (hLeaf : lookahead.subtree.isLeaf = true)
    (hSolid : ∀ u ∈ lookahead.subtree :: s.pending, u.Solid) {first : SymbolId}
    {rest : List SymbolId} {maxLength : Nat}
    (hBridge : job.tables.bridgeOf? s.stack.states lookahead.subtree.kind maxLength
      = some (first :: rest)) :
    ∃ inserted u us nextSerial, inserted ++ lookahead.subtree :: s.pending = u :: us
      ∧ inserted.map (·.kind) = first :: rest ∧ inserted.length ≤ maxLength
      ∧ (∀ v ∈ inserted, v.isLeaf = true ∧ v.total = 0 ∧ v.isMissing = true)
      ∧ job.tables.Welcomes inserted.length s.stack.states (u :: us)
      ∧ ParseStep.ofRepair (insertMissing s first rest lookahead.subtree) = .next ⟨u, false⟩
          { s with stack := { s.stack.noteDecision with nextSerial }, pending := us } := by
  let serial := s.stack.nextSerial
  let tail := rest.zipIdx.map fun entry => Subtree.inserted (serial + 1 + entry.2) entry.1
  let inserted := Subtree.inserted serial first :: tail
  have hInserted : ∀ v ∈ inserted, v.isLeaf = true ∧ v.total = 0 ∧ v.isMissing = true := by
    intro v hMem
    rcases List.mem_cons.mp hMem with rfl | hMem
    · exact ⟨rfl, rfl, rfl⟩
    · obtain ⟨_, -, rfl⟩ := List.mem_map.mp hMem
      exact ⟨rfl, rfl, rfl⟩
  have hKinds : inserted.map (·.kind) = first :: rest := by
    refine congrArg (first :: ·) ?_
    rw [List.map_map]
    exact List.zipIdx_map_fst 0 rest
  obtain ⟨length, hLength, hFound⟩ := Tables.exists_bridge? hBridge
  rw [← hKinds] at hFound
  obtain ⟨rfl, hWelcomes⟩ := Tables.welcomes_of_bridge? hLeaf hSolid
    (fun v hMem => ⟨(hInserted v hMem).1, (hInserted v hMem).2.1⟩) hFound
  exact ⟨inserted, .inserted serial first, tail ++ lookahead.subtree :: s.pending,
    serial + 1 + rest.length, rfl, hKinds, hLength, hInserted, hWelcomes, rfl⟩

theorem spent_insertMissing (hTidy : Tidy s lookahead) (hLeaf : lookahead.subtree.isLeaf = true)
    (hSolid : ∀ u ∈ lookahead.subtree :: s.pending, u.Solid) {first : SymbolId}
    {rest : List SymbolId} {maxLength : Nat}
    (hBridge : job.tables.bridgeOf? s.stack.states lookahead.subtree.kind maxLength
      = some (first :: rest)) (hMax : maxLength ≤ job.limits.maxMissing) :
    job.Spent none s lookahead (.ofRepair (insertMissing s first rest lookahead.subtree)) := by
  obtain ⟨inserted, u, us, nextSerial, hInput, -, hLength, hInserted, hWelcomes, hStep⟩ :=
    insertMissing_spec hLeaf hSolid hBridge
  have hLeaves : ∀ v ∈ u :: us, v.isLeaf = true := by
    rw [← hInput]
    intro v hMem
    rcases List.mem_append.mp hMem with hMem | hMem
    · exact (hInserted v hMem).1
    · rcases List.mem_cons.mp hMem with rfl | hMem
      · exact hLeaf
      · exact hTidy.pending v hMem
  rw [hStep]
  refine .moved _ _ (some inserted.length) ⟨by simp [Linked, hLeaves], hWelcomes⟩ (fun _ => ?_)
    (Nat.le_succ _) fun _ => .inr ⟨Nat.le_refl _, inserted.length, rfl, by simp⟩
  have hBudget : job.budget (ParseState.facing { s with
      stack := { s.stack.noteDecision with nextSerial }, pending := us } ⟨u, false⟩)
      = job.budget (s.facing lookahead) := by
    rw [budget_facing (hLeaves u (by simp)) ⟨fun v hMem => hLeaves v (by simp [hMem]), by simp [hLeaves]⟩,
      budget_facing hLeaf hTidy, ← hInput]
    exact congrArg (queued s.queue * (job.text.size + 1) + ·)
      (@spare_append_narrow job inserted (fun v hMem => (hInserted v hMem).2.1) s.stack.stop _)
  rw [energy, energy, hBudget, Option.getD_some, Option.getD_none]
  omega

/-- What is popped is skipped together with some tokens, so the parse does not move back. -/
theorem cut_spec {stack : ParseStack} (hSound : stack.Sound job.tables.widths) (depth : Nat)
    {ts : List Subtree} (hTokens : ∀ u ∈ ts, All (Measured job.tables.widths) u) {after : ParseStack}
    (hAfter : after = if ((stack.pop depth).1 ++ ts).isEmpty then (stack.pop depth).2.noteDecision
      else (stack.pop depth).2.noteDecision.pushSkipped job.tables ((stack.pop depth).1 ++ ts)) :
    after.states = stack.states.drop depth ∧ after.stop = stack.stop + width ts := by
  obtain ⟨hPopped, -, hPieces, -⟩ := ParseStack.sound_pop hSound depth
  have hStates := ParseStack.states_pop stack depth
  have hStop := ParseStack.stop_pop hSound depth
  subst hAfter
  split
  · rename_i hNone
    obtain ⟨hFirst, rfl⟩ := List.append_eq_nil_iff.mp (List.isEmpty_iff.mp hNone)
    rw [hFirst] at hStop
    exact ⟨hStates, hStop⟩
  · have hLost : ∀ u ∈ (stack.pop depth).1 ++ ts, All (Measured job.tables.widths) u := by
      intro u hMem
      rcases List.mem_append.mp hMem with hMem | hMem
      · exact hPieces u hMem
      · exact hTokens u hMem
    rw [ParseStack.states_pushSkipped, ParseStack.stop_pushSkipped job.tables
      (ParseStack.sound_noteDecision hPopped) hLost, ParseStack.stop_noteDecision, width_append, ← hStop,
      Nat.add_assoc]
    exact ⟨hStates, rfl⟩

/-- Where recovery resumes, the next token can be taken up, and nothing but the tokens in front of it
has been passed over. -/
theorem resumeAt_spec (hSound : s.stack.Sound job.tables.widths) {tokens new : List Subtree}
    {serial skipped popped : Nat} (hTokens : tokens <+: lookahead.subtree :: (s.pending ++ new))
    (hLeaves : ∀ u ∈ lookahead.subtree :: (s.pending ++ new), u.isLeaf = true)
    (hPoint : job.resumePoint? { s.stack with nextSerial := serial } tokens = some (skipped, popped)) :
    ∃ u us stack, tokens[skipped]? = some u
      ∧ tokens.take skipped ++ u :: us = lookahead.subtree :: (s.pending ++ new)
      ∧ job.tables.takes (s.stack.states.drop popped) u.kind = true
      ∧ stack.states = s.stack.states.drop popped
      ∧ stack.stop = s.stack.stop + width (tokens.take skipped)
      ∧ ParseStep.ofRepair (job.resumeAt
          { s with stack := { s.stack with nextSerial := serial }, pending := s.pending ++ new }
          tokens skipped popped) = .next ⟨u, false⟩ { s with stack, pending := us } := by
  let looked : ParseState :=
    { s with stack := { s.stack with nextSerial := serial }, pending := s.pending ++ new }
  obtain ⟨hAccept, hSkipped⟩ := ResumePoint.best?_spec hPoint
  obtain ⟨u, us, hToken, hSplit, hStep⟩ :=
    @ofRepair_resumeAt job looked lookahead tokens skipped popped hTokens hSkipped
  have hTakes : job.tables.takes (looked.stack.states.drop popped) u.kind = true := by
    rw [Bool.and_eq_true, getD_suffixes] at hAccept
    simpa [hToken] using hAccept.2
  have hLost : ∀ v ∈ tokens.take skipped, All (Measured job.tables.widths) v := fun v hMem =>
    measured_widths_of_isLeaf (hLeaves v (hSplit ▸ List.mem_append_left _ hMem))
  obtain ⟨stack, hStack⟩ : ∃ stack, stack = if ((looked.stack.pop popped).1 ++ tokens.take skipped).isEmpty
      then (looked.stack.pop popped).2.noteDecision
      else (looked.stack.pop popped).2.noteDecision.pushSkipped job.tables
        ((looked.stack.pop popped).1 ++ tokens.take skipped) := ⟨_, rfl⟩
  obtain ⟨hStates, hStop⟩ : stack.states = s.stack.states.drop popped
      ∧ stack.stop = s.stack.stop + width (tokens.take skipped) :=
    cut_spec (hSound.withSerial serial) popped hLost hStack
  exact ⟨u, us, stack, hToken, hSplit, hTakes, hStates, hStop, by rw [hStep, ← hStack]⟩

/-- What is popped and skipped lies behind the parse, and the next token is taken up. -/
theorem spent_resumeAt (h : job.Known g m s lookahead) (hTidy : Tidy s lookahead)
    (hLeaf : lookahead.subtree.isLeaf = true) {tokens new : List Subtree} {serial skipped popped : Nat}
    (hTokens : tokens <+: lookahead.subtree :: (s.pending ++ new))
    (hPending : ∀ u ∈ lookahead.subtree :: (s.pending ++ new), u.isLeaf = true ∧ u.Solid)
    (hSpare : job.lexer.InRange → job.spare s.stack.stop (lookahead.subtree :: (s.pending ++ new))
      ≤ job.spare s.stack.stop (lookahead.subtree :: s.pending))
    (hPoint : job.resumePoint? { s.stack with nextSerial := serial } tokens = some (skipped, popped)) :
    job.Spent none s lookahead (.ofRepair (job.resumeAt
      { s with stack := { s.stack with nextSerial := serial }, pending := s.pending ++ new }
      tokens skipped popped)) := by
  obtain ⟨u, us, stack, -, hSplit, hTakes, hStates, hStop, hStep⟩ :=
    @resumeAt_spec job s lookahead h.sized.sound tokens new serial skipped popped hTokens
      (fun v hMem => (hPending v hMem).1) hPoint
  obtain ⟨after, hAfter⟩ := Option.isSome_iff_exists.mp hTakes
  have hAhead : ∀ v ∈ u :: us, v.isLeaf = true ∧ v.Solid :=
    fun v hMem => hPending v (hSplit ▸ List.mem_append_right _ hMem)
  rw [hStep]
  refine .moved _ { s with stack, pending := us } (some 0)
    ⟨by simp [Linked, (hAhead u (by simp)).1], ?_⟩ (fun hRange => ?_) ?_
    fun _ => .inr ⟨by rw [hStop]; exact Nat.le_add_right _ _, 0, rfl, by simp⟩
  · change job.tables.Welcomes 0 stack.states (u :: us)
    rw [hStates]
    exact .last (hAhead u (by simp)).1 (fun v hMem => (hAhead v hMem).2) hAfter
  · have hBudget : job.budget (ParseState.facing { s with stack, pending := us } ⟨u, false⟩)
        ≤ job.budget (s.facing lookahead) := by
      rw [budget_facing hLeaf hTidy, budget_of_leaves fun v hMem => (hAhead v hMem).1]
      change queued s.queue * (job.text.size + 1) + job.spare stack.stop (u :: us) ≤ _
      refine Nat.add_le_add_left (Nat.le_trans ?_ (hSpare hRange)) _
      rw [← hSplit, spare_append, hStop]
      exact Nat.le_add_right _ _
    rw [energy, energy, Option.getD_some, Option.getD_none]
    have hScaled := Nat.mul_le_mul_left (job.limits.maxMissing + 3) hBudget
    omega
  · change stack.states.length ≤ _
    rw [hStates, List.length_drop]
    omega

/-- Recovery reads on or makes sure that the next tokens are taken up, or it ends the parse. -/
theorem spent_repair (h : job.Known g m s lookahead) (hPoised : job.Poised none s lookahead)
    (hLeaf : lookahead.subtree.isLeaf = true) :
    job.Spent none s lookahead (.ofRepair (job.repair s lookahead.subtree)) := by
  have hTidy := h.along.tidy
  have hSolid : ∀ u ∈ lookahead.subtree :: s.pending, u.Solid := hPoised.input
  unfold repair
  dsimp only
  split
  · rename_i hInvalid
    simp only [Bool.and_eq_true, Bool.not_eq_true', beq_eq_false_iff_ne] at hInvalid
    obtain ⟨hWide, hWorth⟩ := (hSolid _ (by simp)).wide hLeaf hInvalid.1
    exact spent_skipped hTidy hLeaf hWide hWorth
      (fun u hMem => ⟨hTidy.pending u hMem, hSolid u (by simp [hMem])⟩) (fun _ => Nat.le_refl _) rfl
      h.sized.sound rfl rfl
  · split
    · rename_i first rest hBridge
      refine spent_insertMissing hTidy hLeaf hSolid hBridge ?_
      split
      · exact Nat.le_refl _
      · exact Nat.min_le_left _ _
    · obtain ⟨new, serial, hNew, hLook, hTokens, -⟩ := @lookPast_moves job s lookahead hTidy hLeaf
      have hPending : ∀ u ∈ lookahead.subtree :: (s.pending ++ new), u.isLeaf = true ∧ u.Solid := by
        intro u hMem
        rw [← List.cons_append] at hMem
        rcases List.mem_append.mp hMem with hMem | hMem
        · refine ⟨?_, hSolid u hMem⟩
          rcases List.mem_cons.mp hMem with rfl | hMem
          · exact hLeaf
          · exact hTidy.pending u hMem
        · exact ⟨hNew.isLeaf u hMem, hNew.solid u hMem⟩
      have hSpare := fun hRange => spare_append_le hRange hNew
      rw [hLook]
      split
      · rename_i skipped popped hPoint
        exact spent_resumeAt h hTidy hLeaf hTokens hPending hSpare hPoint
      · split
        · cases hStep : job.giveUp { s with
              stack := { s.stack with nextSerial := serial }, pending := s.pending ++ new } with
          | resume next r => simp [giveUp] at hStep
          | finish r => exact .done false r.stack fun hPromise => absurd rfl hPromise
        · rename_i hEnd
          obtain ⟨hWide, hWorth⟩ := (hSolid _ (by simp)).wide hLeaf (by simpa using hEnd)
          exact spent_skipped hTidy hLeaf hWide hWorth
            (fun u hMem => hPending u (List.mem_cons_of_mem _ hMem)) hSpare rfl
            (ParseStack.sound_noteDecision (h.sized.sound.withSerial serial)) rfl rfl

/-- A subtree of the previous tree that goes onto the stack or is broken up leaves the queue. -/
theorem spent_whole (h : job.Known g m s lookahead) (hLinked : Linked s lookahead)
    (hLeaf : lookahead.subtree.isLeaf = false) {r : ParseState} {after : ReuseQueue → ReuseQueue}
    (hLess : ∀ q ts, q.ahead = lookahead.subtree :: ts → (after q).weight < q.weight)
    (hQueue : r.queue = s.queue.map after) (hPending : r.pending = s.pending)
    (hHeight : r.stack.states.length ≤ s.stack.states.length + 1) :
    job.Spent promised s lookahead (.ofInput (job.nextInput r)) := by
  obtain ⟨-, -, q, ts, hSome, hAhead⟩ := hLinked hLeaf
  have hNone := (h.along.tidy.whole hLeaf).1
  rw [hNone] at hPending
  refine spent_ofInput (by simp [hPending]) (by simp [hPending]) (fun _ => ?_) hHeight (by simp [hLeaf])
  have hSpare : job.spare r.stack.stop [] ≤ job.text.size := (spare_nil _).trans_le (Nat.sub_le _ _)
  rw [budget, budget, ParseState.facing, hNone, hPending, hQueue, hSome,
    List.filter_cons_of_neg (by simp [hLeaf])]
  exact job.spend_node (hLess q ts hAhead) hSpare _

theorem spent_breakUp (h : job.Known g m s lookahead) (hLinked : Linked s lookahead)
    (hLeaf : lookahead.subtree.isLeaf = false) :
    job.Spent promised s lookahead (.ofInput (job.breakUp s lookahead)) := by
  rw [breakUp, if_pos (hLinked hLeaf).1]
  exact spent_whole h hLinked hLeaf (fun _ _ hAhead => ReuseQueue.weight_enter_lt hAhead) rfl rfl
    (Nat.le_succ _)

theorem spent_shiftSubtree (h : job.Known g m s lookahead) (hLinked : Linked s lookahead)
    (hLeaf : lookahead.subtree.isLeaf = false) :
    job.Spent promised s lookahead (job.shiftSubtree s lookahead) := by
  unfold shiftSubtree
  split
  · rename_i next _
    rw [if_pos (hLinked hLeaf).1]
    exact spent_whole h hLinked hLeaf (fun _ _ hAhead => ReuseQueue.weight_pass_lt hAhead) rfl rfl
      (congrArg List.length (ParseStack.states_push _ _ _)).le
  · exact spent_breakUp h hLinked hLeaf

/-- Where no action is left, a subtree is broken up or a token is recovered from. -/
theorem spent_stuck (h : job.Known g m s lookahead) (hPoised : job.Poised none s lookahead) :
    job.Spent none s lookahead (job.stuck s lookahead) := by
  unfold stuck
  split
  · rename_i hLeaf
    exact spent_repair h hPoised hLeaf
  · rename_i hWhole
    exact spent_breakUp h hPoised.linked (by simpa using hWhole)

/-- What uses something up behind a failed reduction does so in front of it. -/
theorem Spent.of_failed {r : ParseState} {outcome : ParseStep} (h : job.Spent none r lookahead outcome)
    (hPending : r.pending = s.pending) (hQueue : r.queue = s.queue)
    (hStop : r.stack.stop = s.stack.stop)
    (hHeight : r.stack.states.length ≤ s.stack.states.length) :
    job.Spent none s lookahead outcome := by
  cases h with
  | done accepted stack hPromise => exact .done accepted stack hPromise
  | moved next after promised' hPoised hEnergy hLow hCloser =>
      refine .moved next after promised' hPoised ?_ (by omega) fun hLeaf => ?_
      · rwa [← energy_of_stop hPending hQueue hStop]
      · have hAfter := hCloser hLeaf
        unfold Closer at hAfter ⊢
        rwa [hStop] at hAfter

/-- A reduction is done, or it fails and the parse gets on all the same. -/
theorem advance_reduce (h : job.Known g m s lookahead) (hPoised : job.Poised none s lookahead)
    {rule : RuleId}
    (hReduce : job.tables.action s.stack.state (lookahead.subtree.leftmost 0).1.kind = .reduce rule) :
    job.Advance none s lookahead (job.step s lookahead) := by
  have hReduces := h.reduces hReduce
  generalize job.step s lookahead = outcome at hReduces
  cases hReduces with
  | done info stack _ hReduced hStates => exact advance_reduced h hPoised hReduced hStates
  | failed info stack hRule hReduced _ hStates =>
      have hAfter := h.reduce hReduce hRule rfl
      have hStop := h.sized.stop_reduce h.generated h.proper info (s.stack.stop
        + (lookahead.subtree.leftmost 0).2 + (lookahead.subtree.leftmost 0).1.lookahead)
      rw [show (s.facing lookahead).stack = s.stack from rfl] at hStop
      rw [hReduced] at hAfter hStop
      refine .spent ((spent_stuck hAfter ⟨hPoised.linked, hPoised.input⟩).of_failed rfl rfl hStop ?_)
      rw [hStates, List.length_drop]
      exact Nat.sub_le _ _

/-- Whatever a step does, it gets the parse on. -/
theorem advance_step (h : job.Known g m s lookahead) (hPoised : job.Poised promised s lookahead) :
    job.Advance promised s lookahead (job.step s lookahead) := by
  cases promised with
  | some count => exact advance_promised h hPoised
  | none =>
      have hSolid : ∀ u ∈ lookahead.subtree :: s.pending, u.Solid := hPoised.input
      cases hAction : job.tables.action s.stack.state (lookahead.subtree.leftmost 0).1.kind with
      | reduce rule => exact advance_reduce h hPoised hAction
      | accept =>
          rw [step]
          simp only [hAction]
          exact .spent (.done true s.stack fun _ => rfl)
      | error =>
          rw [step]
          simp only [hAction]
          exact .spent (spent_stuck h hPoised)
      | shift next =>
          rw [step]
          simp only [hAction]
          split
          · rename_i hLeaf
            rw [kind_leftmost_of_isLeaf hLeaf] at hAction
            obtain ⟨hWide, hWorth⟩ := (hSolid _ (by simp)).wide hLeaf fun hEnd =>
              h.generated.stops h.proper s.stack.state next (hEnd ▸ hAction)
            exact .spent (spent_shiftToken h.sized h.along.tidy hLeaf hWide hWorth
              (fun u hMem => hSolid u (by simp [hMem])) next)
          · rename_i hWhole
            exact .spent (spent_shiftSubtree h hPoised.linked (by simpa using hWhole))

/-- A step recovers from its lookahead, in a state that it has come to: there is no action for the
lookahead, or a reduction has failed. -/
inductive Recovers (job : ParseJob) (s : ParseState) (lookahead : Lookahead) : ParseState → Prop
  | error (hError : job.tables.action s.stack.state lookahead.subtree.kind = .error) :
      Recovers job s lookahead s
  | unknown {rule : RuleId}
      (hReduce : job.tables.action s.stack.state lookahead.subtree.kind = .reduce rule)
      (hRule : job.tables.rules[rule]? = none) : Recovers job s lookahead s
  | failed {rule : RuleId} {info : Production} {stack : ParseStack}
      (hReduce : job.tables.action s.stack.state lookahead.subtree.kind = .reduce rule)
      (hRule : job.tables.rules[rule]? = some info)
      (hFailed : s.stack.reduce job.tables info (s.stack.stop + (lookahead.subtree.leftmost 0).2
        + (lookahead.subtree.leftmost 0).1.lookahead) = (false, stack)) :
      Recovers job s lookahead { s with stack }

theorem Recovers.step_eq {reached : ParseState} (h : job.Recovers s lookahead reached)
    (hLeaf : lookahead.subtree.isLeaf = true) :
    job.step s lookahead = .ofRepair (job.repair reached lookahead.subtree) := by
  have hKind := kind_leftmost_of_isLeaf hLeaf
  cases h with
  | error hError =>
      rw [step]
      simp only [hKind, hError, stuck, hLeaf, if_true]
  | unknown hReduce hRule =>
      rw [step]
      simp only [hKind, hReduce, reduceBy, hRule, stuck, hLeaf, if_true]
  | failed hReduce hRule hFailed =>
      rw [step]
      simp only [hKind, hReduce, reduceBy, hRule, hFailed, stuck, hLeaf, if_true, Bool.false_eq_true,
        if_false]

/-- A step recovers only where no reduction of the states can be done. -/
theorem Known.reduction?_of_recovers (h : job.Known g m s lookahead) {reached : ParseState}
    (hRecovers : job.Recovers s lookahead reached) :
    job.tables.reduction? lookahead.subtree.kind s.stack.states = none := by
  cases hRecovers with
  | error hError => rw [Tables.reduction?, h.headD_states, hError]
  | unknown hReduce hRule =>
      rw [Tables.reduction?, h.headD_states, hReduce]
      simp only [hRule]
  | failed hReduce hRule hFailed =>
      have hDone := (h.legal.states_reduce h.generated h.proper h.lasting hReduce hRule
        (s.stack.stop + (lookahead.subtree.leftmost 0).2 + (lookahead.subtree.leftmost 0).1.lookahead)).1
      rw [hFailed] at hDone
      exact Option.not_isSome_iff_eq_none.mp (by simp [← hDone])

/-- What a step recovers from would not be taken up on the states alone. -/
theorem Known.act_of_recovers (h : job.Known g m s lookahead) {reached : ParseState}
    (hRecovers : job.Recovers s lookahead reached) (limit : Nat) :
    job.tables.act lookahead.subtree.kind limit s.stack.states = none := by
  have hNone := h.reduction?_of_recovers hRecovers
  have hFails : ∀ rule, job.tables.action s.stack.state lookahead.subtree.kind = .reduce rule →
      job.tables.act lookahead.subtree.kind limit s.stack.states = none := by
    intro rule hReduce
    rw [← h.headD_states] at hReduce
    refine Option.eq_none_iff_forall_ne_some.mpr fun after hAct => ?_
    simpa [hNone] using Tables.isSome_reduction?_of_act hReduce hAct
  cases hRecovers with
  | error hError =>
      cases limit with
      | zero => rfl
      | succ limit => rw [Tables.act, h.headD_states, hError]
  | unknown hReduce => exact hFails _ hReduce
  | failed hReduce => exact hFails _ hReduce

/-- By faithful tables, a parse recovers only from tokens without an action. -/
theorem Assured.eq_of_recovers (h : job.Assured g m s lookahead) {reached : ParseState}
    (hRecovers : job.Recovers s lookahead reached) :
    reached = s ∧ job.tables.action s.stack.state lookahead.subtree.kind = .error := by
  cases hRecovers with
  | error hError => exact ⟨rfl, hError⟩
  | unknown hReduce hRule =>
      obtain ⟨info, hSome, -⟩ := h.reducible.stack _ _ hReduce
      simp [hRule] at hSome
  | failed hReduce hRule hFailed =>
      obtain ⟨info, hSome, -, -, hReduced⟩ := h.reducible.stack _ _ hReduce
      obtain rfl := Option.some.inj (hRule.symm.trans hSome)
      simpa [hFailed] using hReduced (s.stack.stop + (lookahead.subtree.leftmost 0).2
        + (lookahead.subtree.leftmost 0).1.lookahead)

/-- As much is known in the state that a step recovers in, and the text and the queue are as before. -/
theorem Known.of_recovers (h : job.Known g m s lookahead)
    (hLeaf : lookahead.subtree.isLeaf = true) {reached : ParseState}
    (hRecovers : job.Recovers s lookahead reached) :
    job.Known g m reached lookahead ∧ reached.pending = s.pending := by
  cases hRecovers with
  | error => exact ⟨h, rfl⟩
  | unknown => exact ⟨h, rfl⟩
  | failed hReduce hRule hFailed =>
      rw [← kind_leftmost_of_isLeaf hLeaf] at hReduce
      have hAfter := h.reduce hReduce hRule rfl
      rw [hFailed] at hAfter
      exact ⟨hAfter, rfl⟩

end
end ParseJob
end IncrementalParsing
