import IncrementalParsing.Proofs.Parser.Damage
import IncrementalParsing.Proofs.Parser.Promises

/-! What a step of a parse does that takes nothing over from a previous tree: it shifts, reduces or skips,
or recovery makes a decision. -/
namespace IncrementalParsing
open Subtree

namespace ParseStack
variable {t : Tables} {s : ParseStack}

/-- Recovery has decided on no more entries than there are. -/
def Levelled (s : ParseStack) : Prop := s.decidedLevel ≤ s.height

theorem height_of_closed (hOpen : s.openError = #[]) : s.height = topLevel s.entries := by
  simp [height, hOpen]

/-- The open error counts as the level that closing it makes. -/
theorem height_closeError (s : ParseStack) : topLevel s.closeError.entries = s.height := by
  rw [← height_of_closed openError_closeError]
  unfold closeError
  split
  · rfl
  · rename_i hOpen
    simp [height, pushAside, stacked, hOpen]

theorem decidedLevel_closeError (s : ParseStack) : s.closeError.decidedLevel = s.decidedLevel := by
  unfold closeError
  split <;> rfl

/-- Each push is one level more. -/
theorem height_push (s : ParseStack) (next : StateId) (u : Subtree) :
    (s.push next u).height = s.height + 1 := by
  have hClosed : (s.push next u).openError = #[] := openError_closeError
  rw [height_of_closed hClosed, ← height_closeError]
  rfl

/-- A push puts more entries above what recovery has decided on. -/
theorem Levelled.push (h : s.Levelled) (next : StateId) (u : Subtree) : (s.push next u).Levelled := by
  rw [Levelled, height_push]
  exact (decidedLevel_closeError s).trans_le (Nat.le_succ_of_le h)

theorem Levelled.putBack (h : s.Levelled) (trailing : List StackEntry) :
    (trailing.foldr (fun entry s => s.closeError.pushAside entry.subtree) s).Levelled := by
  induction trailing with
  | nil => exact h
  | cons e es ih => exact ih.push 0 e.subtree

theorem levelled_withEntries (hOpen : s.openError = #[]) (entries : List StackEntry) :
    (s.withEntries entries).Levelled := by
  have hClosed : (s.withEntries entries).openError = #[] := hOpen
  rw [Levelled, height_of_closed hClosed]
  exact Nat.min_le_right _ _

theorem Levelled.noteDecision (s : ParseStack) : s.noteDecision.Levelled := Nat.le_add_right _ _

/-- Skipping leaves the stack as high as it is, or makes it higher. -/
theorem height_le_pushSkipped (t : Tables) (hStacked : Stacked s.entries) {pieces : List Subtree}
    (hSome : pieces ≠ []) : s.height ≤ (s.pushSkipped t pieces).height := by
  have hOpened : (s.pushSkipped t pieces).openError.isEmpty = false := by
    simpa using openError_pushSkipped t s hSome
  rw [height, height, hOpened]
  unfold pushSkipped
  cases hOpen : s.openError.isEmpty with
  | false => exact Nat.le_refl _
  | true =>
      simp only [if_true]
      split
      · rename_i entry entries hEntries
        split
        · rw [hEntries] at hStacked ⊢
          exact hStacked.1.2.le
        · exact Nat.le_succ _
      · exact Nat.le_succ _

theorem decidedLevel_pushSkipped (t : Tables) (s : ParseStack) (pieces : List Subtree) :
    (s.pushSkipped t pieces).decidedLevel = s.decidedLevel := by
  unfold pushSkipped
  split
  · split
    · split <;> rfl
    · rfl
  · rfl

/-- Skipped pieces leave the level of the decision within the stack. -/
theorem Levelled.pushSkipped (t : Tables) (hStacked : Stacked s.entries) (h : s.Levelled)
    {pieces : List Subtree} (hSome : pieces ≠ []) : (s.pushSkipped t pieces).Levelled := by
  rw [Levelled, decidedLevel_pushSkipped]
  exact h.trans (height_le_pushSkipped t hStacked hSome)

/-- A reduction that goes through leaves it within the stack too. -/
theorem levelled_reduce (t : Tables) (s : ParseStack) (info : Production) (lookaheadStop : Nat)
    (hReduced : (s.reduce t info lookaheadStop).1 = true) : (s.reduce t info lookaheadStop).2.Levelled := by
  have hBase : (s.closeError.uncovered info).Levelled := levelled_withEntries openError_closeError _
  rw [reduce_eq] at hReduced ⊢
  dsimp only at hReduced ⊢
  split
  · exact (hBase.push _ _).putBack _
  · rename_i hNone
    simp [hNone] at hReduced

end ParseStack

namespace ParseJob

/-- The input in front of a parse that takes nothing over: inserted tokens, and behind them tokens as
they are read. -/
inductive Supply (job : ParseJob) (position : Nat) : List Subtree → Prop
  | read {ts : List Subtree} (hSome : ts ≠ []) (hRead : job.ReadFrom position ts) :
      Supply job position ts
  | inserted (serial : Nat) (terminal : SymbolId) {ts : List Subtree} (h : Supply job position ts) :
      Supply job position (.inserted serial terminal :: ts)

variable {job : ParseJob}

/-- What is read behind what was read was read from the text. -/
theorem ReadFrom.append {position : Nat} {ts us : List Subtree} (h : job.ReadFrom position ts)
    (hMore : job.ReadFrom (position + width ts) us) : job.ReadFrom position (ts ++ us) := by
  induction ts generalizing position with
  | nil => simpa using hMore
  | cons t ts ih =>
      refine ⟨h.1, ih h.2 ?_⟩
      rwa [width_cons, ← Nat.add_assoc] at hMore

section
variable {position : Nat} {t u : Subtree} {ts us : List Subtree}

theorem Supply.isLeaf (h : job.Supply position ts) : ∀ u ∈ ts, u.isLeaf = true := by
  induction h with
  | read _ hRead => exact hRead.isLeaf
  | inserted serial terminal _ ih => exact List.forall_mem_cons.mpr ⟨isLeaf_inserted _ _, ih⟩

theorem Supply.ne_nil (h : job.Supply position ts) : ts ≠ [] := by
  cases h with
  | read hSome => exact hSome
  | inserted => exact List.cons_ne_nil _ _

/-- The last of the tokens has been read. -/
theorem Supply.readFrom_of_single (h : job.Supply position [t]) : job.ReadFrom position [t] := by
  cases h with
  | read _ hRead => exact hRead
  | inserted serial terminal hRest => exact absurd rfl hRest.ne_nil

/-- A token that is inserted is damage. -/
theorem Supply.isMissing_eq (h : job.Supply position (t :: ts)) (hWhole : t.hasError = false) :
    t.isMissing = false := by
  cases h with
  | read _ hRead =>
      obtain ⟨⟨serial, rfl⟩, -⟩ := hRead
      exact isMissing_readAt job serial position
  | inserted serial terminal => exact absurd hWhole Bool.true_eq_false.mp

/-- A supply can be refilled from the text. -/
theorem Supply.append (h : job.Supply position ts) (hMore : job.ReadFrom (position + width ts) us) :
    job.Supply position (ts ++ us) := by
  induction h with
  | read hSome hRead => exact .read (List.append_ne_nil_of_left_ne_nil hSome us) (hRead.append hMore)
  | inserted serial terminal _ ih =>
      rw [width_cons] at hMore
      exact .inserted serial terminal (ih (by simpa [Subtree.inserted, total, info] using hMore))

/-- What is left of the input behind its first token. -/
theorem Supply.tail (h : job.Supply position (t :: ts)) :
    ts = [] ∨ job.Supply (position + t.total) ts := by
  cases h with
  | read hSome hRead =>
      cases ts with
      | nil => exact .inl rfl
      | cons u us => exact .inr (.read (List.cons_ne_nil u us) hRead.2)
  | inserted serial terminal h => exact .inr h

/-- What is left when its front is dropped is a supply from further on. -/
theorem Supply.drop (h : job.Supply position (ts ++ u :: us)) :
    job.Supply (position + width ts) (u :: us) := by
  induction ts generalizing position with
  | nil => exact h
  | cons t ts ih =>
      rw [width_cons, ← Nat.add_assoc]
      exact ih (h.tail.resolve_left (by simp))

/-- Inserted tokens take no room in front of it. -/
theorem Supply.insert {inserted : List Subtree} (h : job.Supply position ts)
    (hInserted : ∀ v ∈ inserted, ∃ serial terminal, v = .inserted serial terminal) :
    job.Supply position (inserted ++ ts) := by
  induction inserted with
  | nil => exact h
  | cons v vs ih =>
      obtain ⟨serial, terminal, rfl⟩ := hInserted v (by simp)
      exact .inserted serial terminal (ih fun w hMem => hInserted w (by simp [hMem]))

/-- Behind a token of the text there are no inserted ones. -/
theorem Supply.readFrom (h : job.Supply position (t :: ts)) (hReal : t.isMissing = false) :
    job.ReadFrom position (t :: ts) := by
  cases h with
  | read _ hRead => exact hRead
  | inserted serial terminal => exact absurd hReal (by simp [Subtree.inserted, isMissing, info])

end

/-- A parse that takes nothing over. -/
structure Unaided (job : ParseJob) (s : ParseState) (lookahead : Lookahead) : Prop where
  queue : s.queue = none
  supply : job.Supply s.stack.stop (lookahead.subtree :: s.pending)
  levelled : s.stack.Levelled

/-- Pops entries, and skips them with some tokens. -/
def cutAt (job : ParseJob) (stack : ParseStack) (depth : Nat) (ts : List Subtree) : ParseStack :=
  if ((stack.pop depth).1 ++ ts).isEmpty then (stack.pop depth).2.noteDecision
  else (stack.pop depth).2.noteDecision.pushSkipped job.tables ((stack.pop depth).1 ++ ts)

/-- What a step does without a previous tree. -/
inductive Effect (job : ParseJob) (s : ParseState) (lookahead : Lookahead) : ParseStep → Prop
  | shift {state : StateId}
      (hShift : job.tables.action s.stack.state lookahead.subtree.kind = .shift state) :
      Effect job s lookahead
        (.ofInput (job.nextInput { s with stack := s.stack.push state lookahead.subtree }))
  | reduce {rule : RuleId} {info : Production} (lookaheadStop : Nat)
      (hReduce : job.tables.action s.stack.state lookahead.subtree.kind = .reduce rule)
      (hRule : job.tables.rules[rule]? = some info) :
      Effect job s lookahead
        (.next lookahead { s with stack := (s.stack.reduce job.tables info lookaheadStop).2 })
  | skip (hError : job.tables.action s.stack.state lookahead.subtree.kind = .error)
      (hDecision : job.decision s lookahead.subtree = .skipInvalid) :
      Effect job s lookahead (.ofInput (job.nextInput (job.skip s [lookahead.subtree])))
  /-- The stack is too high. -/
  | overflow (hHigh : job.limits.maxHeight ≤ s.stack.height) :
      Effect job s lookahead (.ofInput (job.nextInput (job.skip s [lookahead.subtree])))
  | insert {inserted us : List Subtree} {u : Subtree} {nextSerial : Nat}
      (hInput : inserted ++ lookahead.subtree :: s.pending = u :: us)
      (hInserted : ∀ v ∈ inserted, ∃ serial terminal, v = .inserted serial terminal) :
      Effect job s lookahead (.next ⟨u, false⟩
        { s with stack := { s.stack.noteDecision with nextSerial }, pending := us })
  | cut {ts us new : List Subtree} {u : Subtree} (depth nextSerial : Nat)
      (hNew : job.ReadFrom (s.stack.stop + width (lookahead.subtree :: s.pending)) new)
      (hInput : ts ++ u :: us = lookahead.subtree :: s.pending ++ new) :
      Effect job s lookahead (.next ⟨u, false⟩
        { s with stack := job.cutAt { s.stack with nextSerial } depth ts, pending := us })
  | pass {new : List Subtree} (nextSerial : Nat)
      (hNew : job.ReadFrom (s.stack.stop + width (lookahead.subtree :: s.pending)) new) :
      Effect job s lookahead (.ofInput (job.nextInput (job.skip
        { s with
          stack := ({ s.stack with nextSerial } : ParseStack).noteDecision
          pending := s.pending ++ new } [lookahead.subtree])))
  | accept : Effect job s lookahead (.done true s.stack)
  | giveUp (nextSerial : Nat) :
      Effect job s lookahead (.done false
        (let stack : ParseStack := { s.stack with nextSerial }
        if stack.popAll.1.isEmpty then stack.popAll.2
        else stack.popAll.2.pushSkipped job.tables stack.popAll.1))

section
variable {g : Grammar} {m : Automaton} {s r : ParseState} {lookahead : Lookahead}

/-- Without a previous tree, the next input has been read ahead, or it is read now. -/
theorem exists_nextInput (hQueue : s.queue = none) : ∃ t nextSerial,
    job.nextInput s = (⟨t, false⟩,
        { s with stack := { s.stack with nextSerial }, pending := s.pending.tail })
      ∧ ((∃ ts, s.pending = t :: ts) ∨ s.pending = [] ∧ t = job.readAt s.stack.nextSerial s.stack.stop) := by
  unfold nextInput
  cases hPending : s.pending with
  | nil => exact ⟨_, _, by simp only [hQueue, Option.map_none, readToken, hPending]; rfl, .inr ⟨rfl, rfl⟩⟩
  | cons t ts => exact ⟨t, s.stack.nextSerial, rfl, .inl ⟨ts, rfl⟩⟩

theorem unaided_nextInput (hQueue : s.queue = none)
    (hSupply : s.pending = [] ∨ job.Supply s.stack.stop s.pending) (hLevel : s.stack.Levelled) :
    job.Unaided (job.nextInput s).2 (job.nextInput s).1 := by
  obtain ⟨t, nextSerial, hNext, ⟨ts, hPending⟩ | ⟨hPending, rfl⟩⟩ := exists_nextInput hQueue
  · rw [hNext]
    refine ⟨hQueue, ?_, hLevel⟩
    change job.Supply s.stack.stop (t :: s.pending.tail)
    rw [hPending]
    exact hPending ▸ hSupply.resolve_left (by simp [hPending])
  · rw [hNext]
    refine ⟨hQueue, ?_, hLevel⟩
    change job.Supply s.stack.stop (_ :: s.pending.tail)
    rw [hPending]
    exact .read (List.cons_ne_nil _ _) ⟨⟨_, rfl⟩, trivial⟩

/-- What recovery does is one of the effects. -/
theorem effect_carryOut (hTidy : Tidy s lookahead) (hLeaf : lookahead.subtree.isLeaf = true)
    (hError : job.tables.action s.stack.state lookahead.subtree.kind = .error) :
    job.Effect s lookahead
      (.ofRepair (job.carryOut s lookahead.subtree (job.decision s lookahead.subtree))) := by
  obtain ⟨new, nextSerial, hNew, hLook, hTokens, -⟩ := @lookPast_moves job s lookahead hTidy hLeaf
  cases hDecision : job.decision s lookahead.subtree with
  | skipInvalid => exact .skip hError hDecision
  | insert first rest =>
      refine @Effect.insert job s lookahead (.inserted s.stack.nextSerial first
        :: rest.zipIdx.map fun entry => .inserted (s.stack.nextSerial + 1 + entry.2) entry.1)
        _ _ _ rfl ?_
      intro v hMem
      rcases List.mem_cons.mp hMem with rfl | hMem
      · exact ⟨_, _, rfl⟩
      · obtain ⟨entry, -, rfl⟩ := List.mem_map.mp hMem
        exact ⟨_, _, rfl⟩
  | resume skipped popped =>
      have hPoint := point_of_decision hDecision
      rw [carryOut, hLook]
      obtain ⟨u, us, -, hSplit, hStep⟩ := @ofRepair_resumeAt job
        { s with stack := { s.stack with nextSerial }, pending := s.pending ++ new } lookahead _ skipped
        popped hTokens (ResumePoint.best?_spec hPoint).2
      rw [hStep]
      exact .cut popped nextSerial hNew hSplit
  | giveUp =>
      rw [carryOut, hLook]
      have hStep (r : ParseState) : ParseStep.ofRepair (job.giveUp r) = .done false
          (if r.stack.popAll.1.isEmpty then r.stack.popAll.2
          else r.stack.popAll.2.pushSkipped job.tables r.stack.popAll.1) := by
        cases hNone : r.stack.popAll.1.isEmpty <;> simp [giveUp, ParseStep.ofRepair, hNone, skip]
      rw [hStep]
      exact .giveUp nextSerial
  | skipUnexpected =>
      rw [carryOut, hLook]
      exact .pass nextSerial hNew

theorem Unaided.isLeaf (h : job.Unaided s lookahead) : lookahead.subtree.isLeaf = true :=
  h.supply.isLeaf _ (List.mem_cons_self)

/-- What a parser does when there is no action for its lookahead. -/
theorem effect_stuck (hTidy : Tidy s lookahead) (hLeaf : lookahead.subtree.isLeaf = true)
    (hError : job.tables.action s.stack.state lookahead.subtree.kind = .error) :
    job.Effect s lookahead (job.stuck s lookahead) := by
  rw [stuck, if_pos hLeaf, repair_eq_carryOut]
  exact effect_carryOut hTidy hLeaf hError

/-- Every step on a token has one of the effects. -/
theorem step_effect_of_isLeaf (hKnown : job.Assured g m s lookahead)
    (hLeaf : lookahead.subtree.isLeaf = true) : job.Effect s lookahead (job.step s lookahead) := by
  have hKind := kind_leftmost_of_isLeaf hLeaf
  have hTidy := hKnown.along.tidy
  cases hAction : job.tables.action s.stack.state lookahead.subtree.kind with
  | error =>
      rw [step]
      simp only [hKind, hAction]
      exact effect_stuck hTidy hLeaf hAction
  | accept =>
      rw [step]
      simp only [hKind, hAction]
      exact .accept
  | shift state =>
      rw [step]
      simp only [hKind, hAction, hLeaf, if_true, shiftToken]
      split
      · rename_i hHigh
        exact .overflow hHigh.1
      · exact .shift hAction
  | reduce rule =>
      obtain ⟨info, hRule, hStep⟩ := hKnown.reducible.step lookahead rule (by rwa [hKind])
      rw [hStep]
      exact .reduce _ hAction hRule

/-- Every step of a parse that takes nothing over has one of the effects. -/
theorem step_effect (hKnown : job.Assured g m s lookahead) (h : job.Unaided s lookahead) :
    job.Effect s lookahead (job.step s lookahead) :=
  step_effect_of_isLeaf hKnown h.isLeaf

/-- The stack ends behind what was cut off and skipped. -/
theorem stop_cutAt (hSound : s.stack.Sound job.tables.widths) (depth : Nat) {ts : List Subtree}
    (hLeaves : ∀ u ∈ ts, u.isLeaf = true) :
    (job.cutAt s.stack depth ts).stop = s.stack.stop + width ts := by
  obtain ⟨hPopped, -, hPieces, -⟩ := ParseStack.sound_pop hSound depth
  have hStop := ParseStack.stop_pop hSound depth
  have hNoted := ParseStack.stop_noteDecision (s.stack.pop depth).2
  unfold cutAt
  split
  · rename_i hNone
    obtain ⟨hEmpty, rfl⟩ := List.append_eq_nil_iff.mp (List.isEmpty_iff.mp hNone)
    rw [hEmpty] at hStop
    rw [hNoted]
    exact hStop
  · rw [ParseStack.stop_pushSkipped job.tables (ParseStack.sound_noteDecision hPopped), hNoted, ← hStop,
      width_append]
    · omega
    · intro u hMem
      rcases List.mem_append.mp hMem with hMem | hMem
      · exact hPieces u hMem
      · exact measured_widths_of_isLeaf (hLeaves u hMem)

/-- A parse that takes nothing over still does so after a skip. -/
theorem unaided_skip {pending : List Subtree} (hQueue : s.queue = none)
    (hSound : s.stack.Sound job.tables.widths) (hLevelled : s.stack.Levelled)
    (hSupply : job.Supply s.stack.stop (lookahead.subtree :: pending)) :
    job.Unaided (job.nextInput (job.skip { s with pending } [lookahead.subtree])).2
      (job.nextInput (job.skip { s with pending } [lookahead.subtree])).1 := by
  have hToken : ∀ u ∈ [lookahead.subtree], All (Measured job.tables.widths) u := by
    simpa using measured_widths_of_isLeaf (hSupply.isLeaf _ List.mem_cons_self)
  refine unaided_nextInput hQueue ?_
    (hLevelled.pushSkipped job.tables hSound.stacked (List.cons_ne_nil _ _))
  rw [skip, ParseStack.stop_pushSkipped _ hSound hToken]
  simpa using hSupply.tail

/-- A parse that takes nothing over still does so after its stack is cut. -/
theorem unaided_cut (hSound : s.stack.Sound job.tables.widths) (hQueue : s.queue = none) {u : Subtree}
    {ts us : List Subtree} (hSupply : job.Supply s.stack.stop (ts ++ u :: us)) (depth : Nat) :
    job.Unaided { s with stack := job.cutAt s.stack depth ts, pending := us } ⟨u, false⟩ := by
  refine ⟨hQueue, ?_, ?_⟩
  · rw [stop_cutAt hSound depth fun v hMem => hSupply.isLeaf v (List.mem_append_left _ hMem)]
    exact hSupply.drop
  · have hPopped := (ParseStack.sound_pop hSound depth).1
    have hNoted := ParseStack.Levelled.noteDecision (s.stack.pop depth).2
    unfold cutAt
    split
    · exact hNoted
    · rename_i hSome
      exact @ParseStack.Levelled.pushSkipped (s.stack.pop depth).2.noteDecision job.tables hPopped.stacked
        hNoted _ fun hNone => hSome (List.isEmpty_iff.mpr hNone)

/-- A parse that takes nothing over goes on without taking anything over. -/
theorem Unaided.step {next : Lookahead} (hKnown : job.Assured g m s lookahead) (h : job.Unaided s lookahead)
    (hStep : job.step s lookahead = .next next r) : job.Unaided r next := by
  have hSound : s.stack.Sound job.tables.widths := hKnown.sized.sound
  have hEffect := step_effect hKnown h
  rw [hStep] at hEffect
  generalize hOut : ParseStep.next next r = out at hEffect
  cases hEffect with
  | shift hShift =>
      obtain ⟨rfl, rfl⟩ := ParseStep.next.inj hOut
      refine unaided_nextInput h.queue ?_ (h.levelled.push _ _)
      rw [ParseStack.stop_push hSound]
      exact h.supply.tail
  | reduce lookaheadStop hReduce hRule =>
      obtain ⟨rfl, rfl⟩ := ParseStep.next.inj hOut
      obtain ⟨info, hSome, -, -, hReduced⟩ := hKnown.reducible.stack _ _ hReduce
      obtain rfl := Option.some.inj (hRule.symm.trans hSome)
      have hStop := hKnown.sized.stop_reduce hKnown.generated hKnown.proper
      refine ⟨h.queue, ?_, ParseStack.levelled_reduce _ _ _ _ (hReduced lookaheadStop)⟩
      exact (hStop _ lookaheadStop).symm ▸ h.supply
  | skip hError hDecision =>
      obtain ⟨rfl, rfl⟩ := ParseStep.next.inj hOut
      exact unaided_skip h.queue hSound h.levelled h.supply
  | overflow hHigh =>
      obtain ⟨rfl, rfl⟩ := ParseStep.next.inj hOut
      exact unaided_skip h.queue hSound h.levelled h.supply
  | insert hInput hInserted =>
      obtain ⟨rfl, rfl⟩ := ParseStep.next.inj hOut
      exact ⟨h.queue, hInput ▸ h.supply.insert hInserted, Nat.le_add_right _ _⟩
  | cut depth nextSerial hNew hInput =>
      obtain ⟨rfl, rfl⟩ := ParseStep.next.inj hOut
      exact @unaided_cut _ { s with stack := { s.stack with nextSerial } } (hSound.withSerial nextSerial)
        h.queue _ _ _ (hInput ▸ h.supply.append hNew) depth
  | pass nextSerial hNew =>
      obtain ⟨rfl, rfl⟩ := ParseStep.next.inj hOut
      exact @unaided_skip _ { s with stack := ({ s.stack with nextSerial } : ParseStack).noteDecision } _ _
        h.queue (ParseStack.sound_noteDecision (hSound.withSerial nextSerial))
        (ParseStack.Levelled.noteDecision _) (h.supply.append hNew)
  | accept => simp at hOut
  | giveUp => simp at hOut

end
end ParseJob

theorem ParseJob.unaided_start (job : ParseJob) (nextSerial : Nat) :
    job.Unaided (job.nextInput (start none nextSerial)).2 (job.nextInput (start none nextSerial)).1 :=
  unaided_nextInput rfl (.inl rfl) (Nat.le_refl 0)

/-- A parse without a queue has never had one. -/
theorem ParseJob.queue_of_moves {job : ParseJob} {s r : ParseState} (hMoves : job.Moves s r)
    (hQueue : r.queue = none) : s.queue = none := by
  induction hMoves with
  | refl => exact hQueue
  | tail _ hMove ih =>
      refine ih ?_
      cases hMove with
      | offer => simp at hQueue
      | advance => simp at hQueue
      | reuse => exact Option.map_eq_none_iff.mp hQueue
      | note | read | drop | insert | shift | reduce | skip | cut => exact hQueue

section
variable {language : Language} {g : Grammar} {m : Automaton} {job : ParseJob} {s : ParseState}
  {lookahead : Lookahead}

/-- Induction along a parse without a queue, from the start of its text. -/
theorem Arises.alone_induction {motive : ParseState → Lookahead → Prop}
    (hFaithful : language.tables.Faithful g m) (hProper : g.Proper) (h : Arises language job s lookahead)
    (hQueue : s.queue = none)
    (start : ∀ nextSerial, motive (job.nextInput (ParseJob.start none nextSerial)).2
      (job.nextInput (ParseJob.start none nextSerial)).1)
    (step : ∀ {s r : ParseState} {lookahead next : Lookahead}, Arises language job s lookahead →
      motive s lookahead → job.step s lookahead = .next next r → motive r next) : motive s lookahead := by
  induction h with
  | parse p hLanguage text nextSerial => exact start nextSerial
  | @reparse p hLanguage text edited _ hGrown nextSerial =>
      have hMoves := (@ParseJob.nextInput_moves (p.job text)
        (ParseJob.start (p.queueOf edited) nextSerial) (by simp [ParseJob.start])).1
      have hStart : ParseJob.start (p.queueOf edited) nextSerial = ParseJob.start none nextSerial :=
        congrArg (ParseState.mk _ _) (ParseJob.queue_of_moves hMoves hQueue)
      rw [hStart]
      exact start nextSerial
  | @step job s r lookahead next h hStep ih =>
      have hKnown := h.assured hFaithful hProper
      have hLeads := ParseJob.leads_step (hKnown.generated.stops hProper) s lookahead hKnown.along.tidy
      rw [hStep] at hLeads
      have hNone : (s.facing lookahead).queue = none := ParseJob.queue_of_moves hLeads.1 hQueue
      exact step h (ih hNone start step) hStep

/-- Without a queue a parse takes nothing over. -/
theorem Arises.unaided (hFaithful : language.tables.Faithful g m) (hProper : g.Proper)
    (h : Arises language job s lookahead) (hQueue : s.queue = none) : job.Unaided s lookahead :=
  h.alone_induction hFaithful hProper hQueue job.unaided_start fun hArises hUnaided hStep =>
    hUnaided.step (hArises.assured hFaithful hProper) hStep

/-- What is upheld in a parse without a queue holds wherever it comes to. -/
theorem Arises.lawful {P : Subtree → Prop} (hFaithful : language.tables.Faithful g m) (hProper : g.Proper)
    (hUpheld : job.Upheld g m P) (h : Arises language job s lookahead) (hQueue : s.queue = none) :
    job.Lawful P m (s.facing lookahead) := by
  refine h.alone_induction (motive := fun s lookahead => job.Lawful P m (s.facing lookahead)) hFaithful
    hProper hQueue (fun nextSerial => ?_) fun {s r lookahead next} hArises hLawful hStep => ?_
  · exact (ParseJob.lawful_start (by simp) nextSerial).moves hUpheld
      (ParseJob.nextInput_moves _ (by simp [ParseJob.start])).1
  · have hKnown := hArises.assured hFaithful hProper
    have hLeads := ParseJob.leads_step (hKnown.generated.stops hProper) s lookahead hKnown.along.tidy
    rw [hStep] at hLeads
    exact hLawful.moves hUpheld hLeads.1

end
end IncrementalParsing
