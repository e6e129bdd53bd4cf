import IncrementalParsing.Proofs.Parser.Finishing

/-! What recovery tries out on its states alone happens on the stack. Tokens that it inserts are
shifted in order, and then the lookahead is taken up. A token that it resumes at is taken up as well.
In front of each of them there are reductions only. -/
namespace IncrementalParsing
open Subtree

namespace ParseJob
variable {g : Grammar} {m : Automaton}

/-- What recovery decides on. -/
inductive Decision where
  /-- The token is invalid by itself. -/
  | skipInvalid
  | insert (first : SymbolId) (rest : List SymbolId)
  | resume (skipped popped : Nat)
  /-- Nothing accepts the end of the input. -/
  | giveUp
  /-- Nothing accepts the token or one behind it. -/
  | skipUnexpected
deriving DecidableEq

/-- The most tokens that are inserted in front of a token. -/
def maxInserted (job : ParseJob) (token : Subtree) : Nat :=
  if token.kind == endSymbol then job.limits.maxMissing else min job.limits.maxMissing 1

/-- What recovery decides on for a token. -/
def decision (job : ParseJob) (s : ParseState) (token : Subtree) : Decision :=
  if !(token.kind == endSymbol) && job.isInvalid token.kind then .skipInvalid
  else
    match job.tables.bridgeOf? s.stack.states token.kind (job.maxInserted token) with
    | some (first :: rest) => .insert first rest
    | _ =>
        match job.resumePoint? (job.lookPast s token).2.stack (job.lookPast s token).1 with
        | some (skipped, popped) => .resume skipped popped
        | none => if token.kind == endSymbol then .giveUp else .skipUnexpected

/-- Acts on a decision. -/
def carryOut (job : ParseJob) (s : ParseState) (token : Subtree) : Decision → Repair
  | .skipInvalid => job.skipOne s token
  | .insert first rest => insertMissing s first rest token
  | .resume skipped popped =>
      job.resumeAt (job.lookPast s token).2 (job.lookPast s token).1 skipped popped
  | .giveUp => job.giveUp (job.lookPast s token).2
  | .skipUnexpected =>
      let looked := (job.lookPast s token).2
      job.skipOne { looked with stack := looked.stack.noteDecision } token

/-- Recovery decides and then acts. -/
theorem repair_eq_carryOut (job : ParseJob) (s : ParseState) (token : Subtree) :
    job.repair s token = job.carryOut s token (job.decision s token) := by
  unfold repair decision
  dsimp only
  split
  · rfl
  · change (match job.tables.bridgeOf? s.stack.states token.kind (job.maxInserted token) with
      | some (first :: rest) => _
      | _ => _) = _
    split
    · rfl
    · cases hPoint : job.resumePoint? (job.lookPast s token).2.stack (job.lookPast s token).1 with
      | some point => rfl
      | none => cases token.kind == endSymbol <;> rfl

/-- Some tokens are taken up one after the other: all are shifted, and the end of the input, which
comes last, is accepted. In front of each there are reductions only. -/
inductive Delivers (job : ParseJob) : List Subtree → ParseState → Lookahead → Prop
  | nothing (s : ParseState) (lookahead : Lookahead) : Delivers job [] s lookahead
  | reduce {ts : List Subtree} {s : ParseState} {lookahead : Lookahead} {rule : RuleId}
      {info : Production} {lookaheadStop : Nat} {stack : ParseStack}
      (hReduce : job.tables.action s.stack.state lookahead.subtree.kind = .reduce rule)
      (hRule : job.tables.rules[rule]? = some info)
      (hReduced : s.stack.reduce job.tables info lookaheadStop = (true, stack))
      (hStep : job.step s lookahead = .next lookahead { s with stack })
      (hRest : Delivers job ts { s with stack } lookahead) : Delivers job ts s lookahead
  | shift {ts : List Subtree} {s r : ParseState} {lookahead next : Lookahead} {state : StateId}
      (hShift : job.tables.action s.stack.state lookahead.subtree.kind = .shift state)
      (hNext : job.nextInput { s with stack := s.stack.push state lookahead.subtree } = (next, r))
      (hStep : job.step s lookahead = .next next r) (hRest : Delivers job ts r next) :
      Delivers job (lookahead.subtree :: ts) s lookahead
  | accept {s : ParseState} {lookahead : Lookahead} (hEnd : lookahead.subtree.kind = endSymbol)
      (hStep : job.step s lookahead = .done true s.stack) :
      Delivers job [lookahead.subtree] s lookahead

/-- From here on the stack stays below its limit. -/
def Roomy (job : ParseJob) (s : ParseState) (lookahead : Lookahead) : Prop :=
  ∀ r next, Relation.ReflTransGen (fun a b : ParseState × Lookahead => job.step a.1 a.2 = .next b.2 b.1)
    (s, lookahead) (r, next) → r.stack.height < job.limits.maxHeight

/-- Whether the stack stays below its limit until a parse is done, within `limit` steps. -/
def staysRoomy (job : ParseJob) : (limit : Nat) → ParseState → Lookahead → Bool
  | 0, _, _ => false
  | limit + 1, s, lookahead =>
      s.stack.height < job.limits.maxHeight
        && match job.step s lookahead with
          | .next next r => job.staysRoomy limit r next
          | .done _ _ => true

section
variable {job : ParseJob} {s r : ParseState} {lookahead next : Lookahead}

theorem Roomy.here (h : job.Roomy s lookahead) : s.stack.height < job.limits.maxHeight :=
  h s lookahead .refl

theorem Roomy.step (h : job.Roomy s lookahead) (hStep : job.step s lookahead = .next next r) :
    job.Roomy r next :=
  fun _ _ hRun => h _ _ (.head hStep hRun)

theorem roomy_of_staysRoomy {limit : Nat} (h : job.staysRoomy limit s lookahead = true) :
    job.Roomy s lookahead := by
  induction limit generalizing s lookahead with
  | zero => simp [staysRoomy] at h
  | succ limit ih =>
      rw [staysRoomy, Bool.and_eq_true, decide_eq_true_eq] at h
      obtain ⟨hHere, hLater⟩ := h
      intro r next hRun
      rcases hRun.cases_head with hSame | ⟨⟨mid, midNext⟩, hStep, hRun⟩
      · obtain ⟨rfl, rfl⟩ := Prod.mk.inj hSame
        exact hHere
      · dsimp only at hStep
        rw [hStep] at hLater
        exact ih hLater r next hRun

end
end ParseJob

section
variable {job : ParseJob} {s : ParseState} {token : Subtree}

theorem ParseJob.bridge_of_decision {first : SymbolId} {rest : List SymbolId}
    (hDecision : job.decision s token = .insert first rest) :
    job.tables.bridgeOf? s.stack.states token.kind (job.maxInserted token) = some (first :: rest) := by
  unfold decision at hDecision
  split at hDecision
  · simp at hDecision
  · split at hDecision
    · rename_i hBridge
      obtain ⟨rfl, rfl⟩ := Decision.insert.inj hDecision
      exact hBridge
    · split at hDecision
      · simp at hDecision
      · split at hDecision <;> simp at hDecision

theorem ParseJob.point_of_decision {skipped popped : Nat}
    (hDecision : job.decision s token = .resume skipped popped) :
    job.resumePoint? (job.lookPast s token).2.stack (job.lookPast s token).1 = some (skipped, popped) := by
  unfold decision at hDecision
  split at hDecision
  · simp at hDecision
  · split at hDecision
    · simp at hDecision
    · split at hDecision
      · rename_i hPoint
        obtain ⟨rfl, rfl⟩ := Decision.resume.inj hDecision
        exact hPoint
      · split at hDecision <;> simp at hDecision

end

section
variable {language : Language} {g : Grammar} {m : Automaton} {job : ParseJob} {s : ParseState}
  {lookahead : Lookahead}

/-- What a trial does with the states happens on the stack. The lookahead is taken up behind
reductions, and whatever else is to be taken up follows. -/
theorem Arises.delivers_of_act (hGenerated : language.tables.Generated g m) (hProper : g.Proper)
    (h : Arises language job s lookahead) (hLeaf : lookahead.subtree.isLeaf = true)
    (hRoomy : job.Roomy s lookahead) {limit : Nat} {after : List StateId}
    (hAct : job.tables.act lookahead.subtree.kind limit s.stack.states = some after)
    {ts : List Subtree} (hEnd : lookahead.subtree.kind = endSymbol → ts = [])
    (hRest : ∀ pushed : ParseState, pushed.pending = s.pending → pushed.stack.states = after →
      Arises language job (job.nextInput pushed).2 (job.nextInput pushed).1 →
      job.Roomy (job.nextInput pushed).2 (job.nextInput pushed).1 →
      job.Delivers ts (job.nextInput pushed).2 (job.nextInput pushed).1) :
    job.Delivers (lookahead.subtree :: ts) s lookahead := by
  have hKind := ParseJob.kind_leftmost_of_isLeaf hLeaf
  induction limit generalizing s with
  | zero => simp [Tables.act] at hAct
  | succ limit ih =>
      have hKnown := h.known hGenerated hProper
      have hHead := hKnown.headD_states
      cases hAction : job.tables.action s.stack.state lookahead.subtree.kind with
      | error =>
          rw [Tables.act, hHead, hAction] at hAct
          simp at hAct
      | accept =>
          have hStop := (hKnown.generated.accept hAction).1
          obtain rfl := hEnd hStop
          refine .accept hStop ?_
          rw [ParseJob.step]
          simp only [hKind, hAction]
      | shift state =>
          have hNarrow : ¬(job.limits.maxHeight ≤ s.stack.height ∧ 0 < lookahead.subtree.total) :=
            fun hFull => absurd hRoomy.here (Nat.not_lt.mpr hFull.1)
          have hStep : job.step s lookahead = .ofInput (job.nextInput
              { s with stack := s.stack.push state lookahead.subtree }) := by
            rw [ParseJob.step]
            simp only [hKind, hAction, hLeaf, if_true, ParseJob.shiftToken, if_neg hNarrow]
          have hStates : (s.stack.push state lookahead.subtree).states = after := by
            rw [Tables.act, hHead, hAction] at hAct
            exact (ParseStack.states_push _ _ _).trans (Option.some.inj hAct)
          exact .shift hAction rfl hStep (hRest _ rfl hStates (h.step hStep) (hRoomy.step hStep))
      | reduce rule =>
          -- The trial has done this reduction, so it does not fail on the stack.
          have hSome := Tables.isSome_reduction?_of_act (hHead.symm ▸ hAction) hAct
          have hReduces := hKnown.reduces (by rwa [hKind])
          generalize hStep : job.step s lookahead = outcome at hReduces
          cases hReduces with
          | done info stack hRule hReduced hStates =>
              rw [hKind] at hStates
              rw [Tables.act_of_reduction hStates] at hAct
              exact .reduce hAction hRule hReduced hStep
                (ih (h.step hStep) (hRoomy.step hStep) hAct hRest)
          | failed _ _ _ _ hNone => simp [hKind ▸ hNone] at hSome

/-- The tokens that the states take up are taken up by the parse. -/
theorem Arises.delivers_of_welcomes (hGenerated : language.tables.Generated g m)
    (hProper : g.Proper) {count : Nat} {states : List StateId} {ts : List Subtree}
    (hWelcomes : job.tables.Welcomes count states ts)
    (hInner : ∀ u ∈ ts.take count, u.kind ≠ endSymbol) (h : Arises language job s lookahead)
    (hStates : s.stack.states = states) (hInput : lookahead.subtree :: s.pending = ts)
    (hRoomy : job.Roomy s lookahead) : job.Delivers (ts.take (count + 1)) s lookahead := by
  induction hWelcomes generalizing s lookahead with
  | last hLeaf _ hAct =>
      obtain ⟨rfl, -⟩ := List.cons.inj hInput
      subst hStates
      exact h.delivers_of_act hGenerated hProper hLeaf hRoomy hAct (fun _ => rfl)
        fun pushed _ _ _ _ => .nothing _ _
  | @inserted _ after count _ _ us hLeaf _ hAct hMore ih =>
      obtain ⟨rfl, rfl⟩ := List.cons.inj hInput
      subst hStates
      obtain ⟨hFirst, hTail⟩ := List.forall_mem_cons.mp hInner
      rw [List.take_succ_cons]
      refine h.delivers_of_act hGenerated hProper hLeaf hRoomy hAct (absurd · hFirst)
        fun pushed hSame hAfter hArises hRoom => ih hTail hArises ?_ ?_ hRoom
      · obtain ⟨u, us, hPending, -⟩ := hMore.exists_head
        rw [ParseJob.nextInput]
        simp only [hSame, hPending]
        exact hAfter
      · obtain ⟨u, us, hPending, -⟩ := hMore.exists_head
        rw [ParseJob.nextInput]
        simp only [hSame, hPending]

/-- A token that is recovered from was not promised by recovery, and it has a width or is the end. -/
theorem Arises.solid_of_recovers (hGenerated : language.tables.Generated g m) (hProper : g.Proper)
    (h : Arises language job s lookahead) {reached : ParseState}
    (hRecovers : job.Recovers s lookahead reached) :
    ∀ u ∈ lookahead.subtree :: s.pending, u.Solid := by
  obtain ⟨promised, hPoised⟩ := h.poised hGenerated hProper
  cases promised with
  | none => exact hPoised.input
  | some count =>
      obtain ⟨u, us, hInput, -, limit, after, hAct⟩ := Tables.Welcomes.exists_head hPoised.input
      obtain ⟨rfl, -⟩ := List.cons.inj hInput
      rw [(h.known hGenerated hProper).act_of_recovers hRecovers] at hAct
      simp at hAct

/-- Recovery keeps its promises. Tokens that it inserts are shifted in order, and then the lookahead is
taken up. Where it pops entries and skips tokens, the first token behind those is taken up. -/
theorem recovery_keeps_promises (hBuilt : language.tables.Built) (h : Arises language job s lookahead)
    (hLeaf : lookahead.subtree.isLeaf = true) {reached : ParseState}
    (hRecovers : job.Recovers s lookahead reached) :
    (∀ first rest, job.decision reached lookahead.subtree = .insert first rest →
        ∃ inserted next r, job.step s lookahead = .next next r
          ∧ inserted.map (·.kind) = first :: rest ∧ (∀ u ∈ inserted, u.isMissing = true)
          ∧ (job.Roomy r next → job.Delivers (inserted ++ [lookahead.subtree]) r next))
      ∧ ∀ skipped popped, job.decision reached lookahead.subtree = .resume skipped popped →
        ∃ token next r, job.step s lookahead = .next next r
          ∧ (job.lookPast reached lookahead.subtree).1[skipped]? = some token
          ∧ r.stack.states = reached.stack.states.drop popped
          ∧ r.stack.stop
            = reached.stack.stop + width ((job.lookPast reached lookahead.subtree).1.take skipped)
          ∧ (job.Roomy r next → job.Delivers [token] r next) := by
  obtain ⟨g, m, hGenerated, hProper⟩ := hBuilt.generated
  have hStep := hRecovers.step_eq hLeaf
  have hSolid := h.solid_of_recovers hGenerated hProper hRecovers
  obtain ⟨hKnown, hSame⟩ := (h.known hGenerated hProper).of_recovers hLeaf hRecovers
  rw [← hSame] at hSolid
  rw [ParseJob.repair_eq_carryOut] at hStep
  refine ⟨fun first rest hDecision => ?_, fun skipped popped hDecision => ?_⟩
  · have hBridge := ParseJob.bridge_of_decision hDecision
    obtain ⟨inserted, u, us, nextSerial, hInput, hKinds, -, hInserted, hWelcomes, hGoesOn⟩ :=
      ParseJob.insertMissing_spec hLeaf hSolid hBridge
    rw [hDecision, ParseJob.carryOut, hGoesOn] at hStep
    refine ⟨inserted, _, _, hStep, hKinds, fun v hMem => (hInserted v hMem).2.2, fun hRoomy => ?_⟩
    have hTake : inserted ++ [lookahead.subtree] = (u :: us).take (inserted.length + 1) := by
      rw [← hInput, List.take_length_add_append, List.take_succ_cons, List.take_zero]
    have hInner : ∀ v ∈ (u :: us).take inserted.length, v.kind ≠ endSymbol := by
      rw [← hInput, List.take_left]
      intro v hMem hEnd
      have hFound : v.kind ∈ first :: rest := hKinds ▸ List.mem_map_of_mem hMem
      have hInsertable := Tables.mem_bridgeOf? hBridge _ hFound
      simp [Tables.insertable, hEnd, endSymbol] at hInsertable
    rw [hTake]
    exact (h.step hStep).delivers_of_welcomes hGenerated hProper hWelcomes hInner rfl rfl hRoomy
  · have hPoint := ParseJob.point_of_decision hDecision
    obtain ⟨new, serial, hNew, hLook, hTokens, -⟩ :=
      @ParseJob.lookPast_moves job reached lookahead hKnown.along.tidy hLeaf
    have hLeaves : ∀ u ∈ lookahead.subtree :: (reached.pending ++ new), u.isLeaf = true :=
      List.forall_mem_cons.mpr
        ⟨hLeaf, List.forall_mem_append.mpr ⟨hKnown.along.tidy.pending, hNew.isLeaf⟩⟩
    have hAhead : ∀ u ∈ lookahead.subtree :: (reached.pending ++ new), u.Solid :=
      List.forall_mem_append.mpr ⟨hSolid, hNew.solid⟩
    rw [hDecision, ParseJob.carryOut, hLook] at hStep
    rw [hLook] at hPoint
    obtain ⟨u, us, stack, hToken, hSplit, hTakes, hStates, hStop, hGoesOn⟩ :=
      @ParseJob.resumeAt_spec job reached lookahead hKnown.sized.sound _ new serial skipped popped
        hTokens hLeaves hPoint
    rw [hGoesOn] at hStep
    refine ⟨u, _, _, hStep, hToken, hStates, hStop, fun hRoomy => ?_⟩
    obtain ⟨after, hAfter⟩ := Option.isSome_iff_exists.mp hTakes
    have hWelcomes : job.tables.Welcomes 0 stack.states (u :: us) := by
      have hBehind : ∀ v ∈ u :: us, v ∈ lookahead.subtree :: (reached.pending ++ new) :=
        fun v hMem => hSplit ▸ List.mem_append_right _ hMem
      rw [hStates]
      exact .last (hLeaves u (hBehind u (by simp))) (fun v hMem => hAhead v (hBehind v hMem)) hAfter
    exact (h.step hStep).delivers_of_welcomes hGenerated hProper hWelcomes (by simp) rfl rfl hRoomy

end

namespace Labels

/-- In front of a number at the start, a letter is inserted. It is shifted and reduced to a label, and
the number is shifted behind it. -/
theorem promises_kept_before_number :
    let job := parser.job "1".toUTF8
    let s := (job.nextInput (ParseJob.start none 0)).2
    let lookahead := (job.nextInput (ParseJob.start none 0)).1
    language.tables.Built ∧ Arises language job s lookahead ∧ lookahead.subtree.isLeaf = true
      ∧ job.Recovers s lookahead s ∧ job.decision s lookahead.subtree = .insert letter []
      ∧ ∃ inserted next r, job.step s lookahead = .next next r
        ∧ inserted.map (·.kind) = [letter] ∧ (∀ u ∈ inserted, u.isMissing = true)
        ∧ job.Delivers (inserted ++ [lookahead.subtree]) r next := by
  intro job s lookahead
  have hArises : Arises language job s lookahead := .parse parser rfl _ 0
  have hLeaf : lookahead.subtree.isLeaf = true := by decide +kernel
  have hRecovers : job.Recovers s lookahead s := .error (by decide +kernel)
  have hDecision : job.decision s lookahead.subtree = .insert letter [] := by decide +kernel
  have hRoomy : job.Roomy s lookahead :=
    ParseJob.roomy_of_staysRoomy (show job.staysRoomy 10 s lookahead = true by decide +kernel)
  obtain ⟨hInserts, -⟩ := recovery_keeps_promises built_tables hArises hLeaf hRecovers
  obtain ⟨inserted, next, r, hStep, hKinds, hMissing, hDelivers⟩ := hInserts _ _ hDecision
  exact ⟨built_tables, hArises, hLeaf, hRecovers, hDecision, inserted, next, r, hStep, hKinds, hMissing,
    hDelivers (hRoomy.step hStep)⟩

end Labels
end IncrementalParsing
