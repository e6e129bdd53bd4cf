import IncrementalParsing.Proofs.Parser.Effects
import IncrementalParsing.Proofs.Parser.Mirrors
import IncrementalParsing.Proofs.Parser.Undamaged
import IncrementalParsing.Proofs.Tree.Marks

/-! What a parse has built on some entries without recovery, any other parse builds as well that comes to
the same state and has the same tokens ahead. -/
namespace IncrementalParsing
open Subtree

namespace ParseJob
variable {language : Language} {g : Grammar} {m : Automaton} {job other : ParseJob}
  {s r : ParseState} {lookahead next : Lookahead}

/-- Tokens as they are read one behind the other. Behind the last one is the end of the input. -/
def inputFrom (job : ParseJob) : (position count : Nat) → List Subtree
  | _, 0 => []
  | position, count + 1 =>
      job.readAt 0 position :: job.inputFrom (position + (job.readAt 0 position).total) count

/-- A run that recovers only to skip tokens that are invalid by themselves, where it may. -/
def Quiet (job : ParseJob) (may : Nat → Prop) : ParseState × Lookahead → ParseState × Lookahead → Prop :=
  Relation.ReflTransGen fun a b => job.step a.1 a.2 = .next b.2 b.1 ∧ ∀ at', job.Recovers a.1 a.2 at' →
    job.decision at' a.2.subtree = .skipInvalid ∧ may a.1.stack.stop

theorem Quiet.mono {may must : Nat → Prop} {r u : ParseState × Lookahead} (h : job.Quiet may r u)
    (hMay : ∀ position, may position → must position) : job.Quiet must r u :=
  h.lift id fun _ _ hStep =>
    ⟨hStep.1, fun at' hRecovers => (hStep.2 at' hRecovers).imp_right (hMay _)⟩

/-- A parse that takes nothing over, with a stack that stays below its limit. -/
structure Ordinary (language : Language) (job : ParseJob) (s : ParseState) (lookahead : Lookahead) :
    Prop where
  arises : Arises language job s lookahead
  queue : s.queue = none
  roomy : job.Roomy s lookahead

/-- A parse that has come to a state, and there to a token that it shifts. Nothing behind the token has
been read. -/
structure Onset (language : Language) (job : ParseJob) (state : StateId) (s : ParseState)
    (lookahead : Lookahead) : Prop where
  ordinary : Ordinary language job s lookahead
  pending : s.pending = []
  stands : s.stack.state = state
  shift : ∃ next, job.tables.action state lookahead.subtree.kind = .shift next

section Input

theorem shape_readAt (job : ParseJob) (serial position : Nat) :
    (job.readAt serial position).shape = (job.readAt 0 position).shape := by
  simp only [readAt]
  split
  · split
    · rfl
    · split <;> rfl
  · rfl

/-- What a token shows depends on its kind and its widths. -/
theorem shape_of_look (hEnd : job.isInvalid endSymbol = false) (hTables : other.tables = job.tables)
    {serial serial' position position' : Nat}
    (hLook : (other.readAt serial' position').look = (job.readAt serial position).look) :
    (other.readAt serial' position').shape = (job.readAt serial position).shape := by
  have hShape : ∀ {job : ParseJob} {serial position : Nat}, job.isInvalid endSymbol = false →
      (job.readAt serial position).shape = .leaf 0 (job.readAt serial position).kind
        (job.readAt serial position).padding (job.readAt serial position).size 0
        (job.isInvalid (job.readAt serial position).kind) := by
    intro job serial position hEnd
    rcases job.readAt_cases serial position with ⟨_, _, _, _, -, -, hSame⟩ | ⟨padding, hSame⟩
    · rw [hSame]
      rfl
    · rw [hSame]
      exact congrArg (leaf 0 endSymbol padding 0 0 ·) hEnd.symm
  have hInvalid : other.isInvalid = job.isInvalid := by
    funext kind
    rw [isInvalid, isInvalid, hTables]
  obtain ⟨hKind, hPadding, hSize⟩ : _ ∧ _ ∧ _ := by simpa [look] using hLook
  rw [hShape (hInvalid ▸ hEnd), hShape hEnd, hKind, hPadding, hSize, hInvalid]

theorem length_inputFrom (job : ParseJob) (position count : Nat) :
    (job.inputFrom position count).length = count := by
  induction count generalizing position with
  | zero => rfl
  | succ count ih => rw [inputFrom, List.length_cons, ih]

theorem inputFrom_add (job : ParseJob) (position count more : Nat) :
    job.inputFrom position (count + more) = job.inputFrom position count
      ++ job.inputFrom (position + width (job.inputFrom position count)) more := by
  induction count generalizing position with
  | zero => rw [Nat.zero_add]; rfl
  | succ count ih =>
      rw [Nat.succ_add, inputFrom, ih, inputFrom, List.cons_append, width_cons, Nat.add_assoc]

/-- Input that shows the same shows the same in parts. -/
theorem looks_add {position position' count more : Nat}
    (hSame : (other.inputFrom position' (count + more)).map look
      = (job.inputFrom position (count + more)).map look) :
    (other.inputFrom position' count).map look = (job.inputFrom position count).map look
      ∧ (other.inputFrom (position' + width (other.inputFrom position' count)) more).map look
        = (job.inputFrom (position + width (job.inputFrom position count)) more).map look := by
  rw [inputFrom_add, inputFrom_add, List.map_append, List.map_append] at hSame
  exact List.append_inj hSame (by simp [length_inputFrom])

end Input

/-- Behind tokens that have been read comes the next token of the text. -/
theorem faces_nextInput (hQueue : s.queue = none) (hRead : job.ReadFrom s.stack.stop s.pending) :
    job.Faces (job.nextInput s).2 (job.nextInput s).1 := by
  obtain ⟨t, nextSerial, hNext, ⟨ts, hPending⟩ | ⟨-, hSame⟩⟩ := @exists_nextInput job _ hQueue
  · rw [hNext]
    rw [hPending] at hRead
    exact hRead.1
  · rw [hNext]
    exact ⟨_, hSame⟩

theorem Faces.total_eq (h : job.Faces s lookahead) :
    lookahead.subtree.total = width (job.inputFrom s.stack.stop 1) := by
  obtain ⟨serial, hRead⟩ := h
  rw [hRead, ← total_shape, shape_readAt, total_shape]
  rfl

/-- A token that is shifted has a width. -/
theorem Faces.wide_of_shift (hKnown : job.Assured g m s lookahead) (h : job.Faces s lookahead) {state : StateId}
    (hShift : job.tables.action s.stack.state lookahead.subtree.kind = .shift state) :
    0 < lookahead.subtree.total := by
  obtain ⟨serial, hRead⟩ := h
  rw [hRead] at hShift ⊢
  refine (solid_readAt serial s.stack.stop (isLeaf_readAt job _ _)).resolve_left fun hLast => ?_
  exact hKnown.generated.stops hKnown.proper s.stack.state state (hLast ▸ hShift)

section Ordinary
variable (hFaithful : language.tables.Faithful g m) (hProper : g.Proper)
  (h : Ordinary language job s lookahead)
include hFaithful hProper h

theorem Ordinary.assured : job.Assured g m s lookahead := h.arises.assured hFaithful hProper

theorem Ordinary.unaided : job.Unaided s lookahead := h.arises.unaided hFaithful hProper h.queue

theorem Ordinary.sound : s.stack.Sound job.tables.widths := (h.assured hFaithful hProper).sized.sound

theorem Ordinary.topStop_entries :
    ParseStack.topStop s.stack.closeError.entries = s.stack.stop := by
  rw [← ParseStack.stop_closeError (h.sound hFaithful hProper), ParseStack.stop,
    if_pos (by simp [ParseStack.openError_closeError])]

theorem Ordinary.step (hStep : job.step s lookahead = .next next r) : Ordinary language job r next :=
  ⟨h.arises.step hStep, ((h.unaided hFaithful hProper).step (h.assured hFaithful hProper) hStep).queue,
    h.roomy.step hStep⟩

theorem Ordinary.quiet {may : Nat → Prop} {r : ParseState × Lookahead}
    (hQuiet : job.Quiet may (s, lookahead) r) :
    Ordinary language job r.1 r.2 := by
  induction hQuiet with
  | refl => exact h
  | tail _ hStep ih => exact ih.step hFaithful hProper hStep.1

/-- If nothing has been read ahead, the lookahead is the token behind the stack. -/
theorem Ordinary.faces_of_pending (hPending : s.pending = []) : job.Faces s lookahead := by
  have hSupply := (h.unaided hFaithful hProper).supply
  rw [hPending] at hSupply
  exact hSupply.readFrom_of_single.1

/-- Behind a token that was not inserted there are no inserted ones. -/
theorem Ordinary.readFrom (hFaces : job.Faces s lookahead) :
    job.ReadFrom s.stack.stop (lookahead.subtree :: s.pending) := by
  refine (h.unaided hFaithful hProper).supply.readFrom ?_
  obtain ⟨serial, hRead⟩ := hFaces
  rw [hRead]
  exact isMissing_readAt job serial s.stack.stop

/-- A step recovers only where there is no action for the lookahead. -/
theorem Ordinary.quiet_step {may : Nat → Prop} (hStep : job.step s lookahead = .next next r)
    (hSkips : job.tables.action s.stack.state lookahead.subtree.kind = .error →
      job.decision s lookahead.subtree = .skipInvalid ∧ may s.stack.stop) :
    job.Quiet may (s, lookahead) (r, next) := by
  refine .single ⟨hStep, fun at' hRecovers => ?_⟩
  obtain ⟨rfl, hError⟩ := (h.assured hFaithful hProper).eq_of_recovers hRecovers
  exact hSkips hError

end Ordinary

theorem decision_eq_skipInvalid {token : Subtree} :
    job.decision s token = .skipInvalid ↔ token.kind ≠ endSymbol ∧ job.isInvalid token.kind = true := by
  unfold decision
  split
  · rename_i hSkip
    simpa using hSkip
  · rename_i hSkip
    refine iff_of_false ?_ (by simpa using hSkip)
    split
    · exact Decision.noConfusion
    · split
      · exact Decision.noConfusion
      · split <;> exact Decision.noConfusion

section Steps
variable (hLeaf : lookahead.subtree.isLeaf = true)
include hLeaf

theorem step_of_shift (hRoom : s.stack.height < job.limits.maxHeight) {state : StateId}
    (hShift : job.tables.action s.stack.state lookahead.subtree.kind = .shift state) :
    job.step s lookahead
      = .ofInput (job.nextInput { s with stack := s.stack.push state lookahead.subtree }) := by
  have hNarrow : ¬(job.limits.maxHeight ≤ s.stack.height ∧ 0 < lookahead.subtree.total) :=
    fun hFull => absurd hRoom (Nat.not_lt.mpr hFull.1)
  rw [step]
  simp only [kind_leftmost_of_isLeaf hLeaf, hShift, hLeaf, if_true, shiftToken, if_neg hNarrow]

theorem step_of_skipInvalid
    (hError : job.tables.action s.stack.state lookahead.subtree.kind = .error)
    (hDecision : job.decision s lookahead.subtree = .skipInvalid) :
    job.step s lookahead = .ofInput (job.nextInput (job.skip s [lookahead.subtree])) := by
  rw [(Recovers.error hError).step_eq hLeaf, repair_eq_carryOut, hDecision]
  rfl

end Steps

/-- Another parse has come quietly to a stack that shows the same as this one above some entries. There
are no tokens ahead that it has read. -/
structure Echo (base : List StackEntry) (stack : ParseStack) (other : ParseJob) (may : Nat → Prop)
    (from' r : ParseState × Lookahead) : Prop where
  quiet : other.Quiet may from' r
  pending : r.1.pending = []
  mirrors : ParseStack.Mirrors base from'.1.stack.closeError.entries stack r.1.stack

/-- What has been built on some entries is built in every parse that shifts the first of the tokens in the
same state, if it has the same tokens ahead up to the lookahead. If that takes skipping, it skips only
tokens behind some width of what is built. -/
def Echoes (language : Language) (job : ParseJob) (base : List StackEntry) (clean : Nat) (skips : Prop)
    (s : ParseState) (lookahead : Lookahead) : Prop :=
  job.Faces s lookahead ∧ ∃ count,
    s.stack.stop = ParseStack.topStop base + width (job.inputFrom (ParseStack.topStop base) count)
      ∧ ∀ other onset ahead, Onset language other (ParseStack.topState base) onset ahead →
        (other.inputFrom onset.stack.stop (count + 1)).map look
          = (job.inputFrom (ParseStack.topStop base) (count + 1)).map look →
        ∃ r, Echo base s.stack other (fun position => skips ∧ onset.stack.stop + clean ≤ position)
          (onset, ahead) r

end ParseJob

namespace ParseJob
variable {language : Language} {g : Grammar} {m : Automaton} {job other : ParseJob}
  {s onset : ParseState} {lookahead ahead : Lookahead} {base below : List StackEntry}
  {r : ParseState × Lookahead} {count : Nat} (hFaithful : language.tables.Faithful g m)
  (hProper : g.Proper)
include hFaithful hProper

/-- At stacks that show the same, with the same tokens read above the entries below, the lookaheads show
the same. -/
theorem shape_lookahead (hEnd : job.isInvalid endSymbol = false) (h : Ordinary language job s lookahead)
    (hOther : Ordinary language other r.1 r.2) (hFaces : job.Faces s lookahead)
    (hPending : r.1.pending = [])
    (hMirrors : ParseStack.Mirrors base below s.stack r.1.stack)
    (hStop : s.stack.stop = ParseStack.topStop base + width (job.inputFrom (ParseStack.topStop base) count))
    (hLooks : (other.inputFrom (ParseStack.topStop below) (count + 1)).map look
      = (job.inputFrom (ParseStack.topStop base) (count + 1)).map look) :
    r.2.subtree.shape = lookahead.subtree.shape := by
  obtain ⟨serial, hRead⟩ := hFaces
  obtain ⟨serial', hRead'⟩ := hOther.faces_of_pending hFaithful hProper hPending
  obtain ⟨hBehind, hLast⟩ := looks_add hLooks
  obtain ⟨w, hHere, hThere⟩ := hMirrors.exists_stop (h.sound hFaithful hProper)
    (hOther.sound hFaithful hProper)
  have hWidth : w = width (other.inputFrom (ParseStack.topStop below) count) := by
    rw [width_of_looks hBehind]
    omega
  rw [hRead, hRead', shape_readAt, shape_readAt job]
  refine shape_of_look hEnd (hOther.arises.tables.trans h.arises.tables.symm) ?_
  rw [hThere, hStop, hWidth]
  exact (List.cons.inj hLast).1

section Follow
variable (hOther : Ordinary language other r.1 r.2) (hPending : r.1.pending = [])
  (hTables : other.tables = job.tables) (hShape : r.2.subtree.shape = lookahead.subtree.shape)
include hOther hPending hTables hShape

/-- The other parse shifts what this one shifts. -/
theorem follow_shift {stack : ParseStack} (hMirrors : ParseStack.Mirrors base below stack.closeError
      r.1.stack.closeError) {state : StateId}
    (hShift : job.tables.action stack.state lookahead.subtree.kind = .shift state) :
    ∃ u, (∀ may, other.Quiet may r u) ∧ u.1.pending = []
      ∧ ParseStack.Mirrors base below (stack.push state lookahead.subtree) u.1.stack := by
  have hLeaf := (hOther.unaided hFaithful hProper).isLeaf
  have hState : r.1.stack.state = stack.state := by
    rw [← ParseStack.state_closeError, hMirrors.state_eq, ParseStack.state_closeError]
  have hKind := kind_of_shape hShape
  rw [← hState, ← hKind, ← hTables] at hShift
  have hStep := step_of_shift hLeaf hOther.roomy.here hShift
  obtain ⟨t, nextSerial, hNext, -⟩ := @exists_nextInput other
    { r.1 with stack := r.1.stack.push state r.2.subtree } hOther.queue
  rw [hNext] at hStep
  refine ⟨_, fun may => hOther.quiet_step hFaithful hProper hStep fun hError => ?_, ?_, ?_⟩
  · simp [hShift] at hError
  · exact congrArg List.tail hPending
  · exact hMirrors.stacked hShape rfl false _ _

/-- The other parse skips the invalid tokens that this one skips. -/
theorem follow_skip {s : ParseState} (hMirrors : ParseStack.Mirrors base below s.stack r.1.stack)
    (hAbove : s.stack.entries ≠ base)
    (hError : job.tables.action s.stack.state lookahead.subtree.kind = .error)
    (hDecision : job.decision s lookahead.subtree = .skipInvalid) {may : Nat → Prop}
    (hMay : may r.1.stack.stop) : ∃ u, other.Quiet may r u ∧ u.1.pending = []
      ∧ ParseStack.Mirrors base below (s.stack.pushSkipped job.tables [lookahead.subtree]) u.1.stack := by
  have hLeaf := (hOther.unaided hFaithful hProper).isLeaf
  have hKind := kind_of_shape hShape
  rw [← hMirrors.state_eq, ← hKind, ← hTables] at hError
  have hSame : other.decision r.1 r.2.subtree = .skipInvalid := by
    rw [decision_eq_skipInvalid] at hDecision ⊢
    rw [hKind, isInvalid, hTables]
    exact hDecision
  have hStep := step_of_skipInvalid hLeaf hError hSame
  obtain ⟨t, nextSerial, hNext, -⟩ := @exists_nextInput other (other.skip r.1 [r.2.subtree]) hOther.queue
  rw [hNext] at hStep
  refine ⟨_, hOther.quiet_step hFaithful hProper hStep fun _ => ⟨hSame, hMay⟩, ?_, ?_⟩
  · exact congrArg List.tail hPending
  · have hPieces : [r.2.subtree].map shape = [lookahead.subtree].map shape := by simp [hShape]
    rw [skip, hTables]
    exact (hMirrors.pushSkipped hAbove hPieces).withSerial _ _

/-- The other parse reduces by the rule that this one reduces by. -/
theorem follow_reduce {s : ParseState} (hKnown : job.Assured g m s lookahead)
    (hMirrors : ParseStack.Mirrors base below s.stack r.1.stack)
    {rule : RuleId} {info : Production}
    (hReduce : job.tables.action s.stack.state lookahead.subtree.kind = .reduce rule)
    (hRule : job.tables.rules[rule]? = some info)
    (hSome : (ParseStack.steps base).length < (ParseStack.steps s.stack.entries).length)
    (hEnough : (ParseStack.steps base).length + info.rhs.length
      ≤ (ParseStack.steps s.stack.entries).length) (lookaheadStop : Nat) :
    ∃ u, (∀ may, other.Quiet may r u) ∧ u.1.pending = [] ∧ ParseStack.Mirrors base below
      (s.stack.reduce job.tables info lookaheadStop).2 u.1.stack := by
  have hLeaf := (hOther.unaided hFaithful hProper).isLeaf
  have hKind := kind_of_shape hShape
  obtain ⟨info', hFound, -, -, hReduced⟩ := hKnown.reducible.stack _ _ hReduce
  obtain rfl := Option.some.inj (hRule.symm.trans hFound)
  rw [← hMirrors.state_eq, ← hKind, ← hTables] at hReduce
  obtain ⟨info', hFound', hStep⟩ := (hOther.assured hFaithful hProper).reducible.step r.2 rule
    (by rwa [kind_leftmost_of_isLeaf hLeaf])
  rw [hTables] at hFound'
  obtain rfl := Option.some.inj (hRule.symm.trans hFound')
  refine ⟨_, fun may => hOther.quiet_step hFaithful hProper hStep fun hError => ?_, hPending, ?_⟩
  · simp [hReduce] at hError
  · rw [hTables]
    exact hMirrors.reduce hSome hEnough hKnown.sized.sound (hOther.sound hFaithful hProper) _ _
      (hReduced lookaheadStop)

end Follow

/-- What follows what has been built on some entries has been built on them as well. -/
theorem Echoes.follow (hEnd : job.isInvalid endSymbol = false) (hOrdinary : Ordinary language job s lookahead)
    {s' : ParseState} {lookahead' : Lookahead} {clean clean' : Nat} {skips skips' : Prop} {more : Nat}
    (h : Echoes language job base clean skips s lookahead) (hSkips : skips → skips' ∧ clean' ≤ clean)
    (hFaces : job.Faces s' lookahead')
    (hStop : s'.stack.stop = s.stack.stop + width (job.inputFrom s.stack.stop more))
    (hFollow : ∀ {other : ParseJob} {below : List StackEntry} {r : ParseState × Lookahead},
      Ordinary language other r.1 r.2 → r.1.pending = [] → other.tables = job.tables →
      r.2.subtree.shape = lookahead.subtree.shape →
      ParseStack.Mirrors base below s.stack r.1.stack →
      ∃ u, other.Quiet (fun position => skips' ∧ ParseStack.topStop below + clean' ≤ position) r u
        ∧ u.1.pending = [] ∧ ParseStack.Mirrors base below s'.stack u.1.stack) :
    Echoes language job base clean' skips' s' lookahead' := by
  obtain ⟨hHere, count, hReached, hEchoes⟩ := h
  refine ⟨hFaces, count + more, ?_, fun other onset ahead hOnset hLooks => ?_⟩
  · rw [hStop, inputFrom_add, width_append, hReached, Nat.add_assoc]
  · rw [Nat.add_right_comm] at hLooks
    have hBehind := (looks_add hLooks).1
    obtain ⟨r, hEcho⟩ := hEchoes other onset ahead hOnset hBehind
    have hOther := hOnset.ordinary.quiet hFaithful hProper hEcho.quiet
    have hStart := hOnset.ordinary.topStop_entries hFaithful hProper
    rw [← hStart] at hBehind
    have hShape := shape_lookahead hFaithful hProper hEnd hOrdinary hOther hHere hEcho.pending
      hEcho.mirrors hReached hBehind
    obtain ⟨u, hQuiet, hPending, hMirrors⟩ := hFollow hOther hEcho.pending
      (hOther.arises.tables.trans hOrdinary.arises.tables.symm) hShape hEcho.mirrors
    have hBefore := hEcho.quiet.mono fun position hMay =>
      (⟨(hSkips hMay.1).1, (Nat.add_le_add_left (hSkips hMay.1).2 _).trans hMay.2⟩ :
        skips' ∧ onset.stack.stop + clean' ≤ position)
    rw [hStart] at hQuiet
    exact ⟨u, hBefore.trans hQuiet, hPending, hMirrors⟩

/-- The first of the tokens shows the same. -/
theorem shape_of_onset (hEnd : job.isInvalid endSymbol = false)
    (hOrdinary : Ordinary language job s lookahead) (hFaces : job.Faces s lookahead)
    (hBelow : ParseStack.topStop base = s.stack.stop)
    (hOther : Ordinary language other onset ahead) (hPending : onset.pending = [])
    (hLooks : (other.inputFrom onset.stack.stop (count + 1)).map look
      = (job.inputFrom (ParseStack.topStop base) (count + 1)).map look) :
    ahead.subtree.shape = lookahead.subtree.shape := by
  obtain ⟨serial, hRead⟩ := hFaces
  obtain ⟨serial', hRead'⟩ := hOther.faces_of_pending hFaithful hProper hPending
  rw [hBelow] at hLooks
  rw [hRead, hRead', shape_readAt, shape_readAt job]
  exact shape_of_look hEnd (hOther.arises.tables.trans hOrdinary.arises.tables.symm)
    (List.cons.inj hLooks).1

/-- Parses that stand in the same state show the same above what they have built. -/
theorem mirrors_of_onset (hOrdinary : Ordinary language job s lookahead)
    (hOnset : Onset language other (ParseStack.topState s.stack.closeError.entries) onset ahead) :
    ParseStack.Mirrors s.stack.closeError.entries onset.stack.closeError.entries s.stack.closeError
      onset.stack.closeError where
  entries := ⟨[], [], rfl, rfl, rfl⟩
  opened := by rw [ParseStack.openError_closeError, ParseStack.openError_closeError]
  states := ParseStack.state_closeError.trans hOnset.stands
  level := by
    rw [ParseStack.height_closeError, ParseStack.decidedLevel_closeError]
    exact (hOrdinary.unaided hFaithful hProper).levelled
  level' := by
    rw [ParseStack.height_closeError, ParseStack.decidedLevel_closeError]
    exact (hOnset.ordinary.unaided hFaithful hProper).levelled

/-- A token on top of all that has been built. -/
theorem echoes_of_shift (hEnd : job.isInvalid endSymbol = false)
    (hOrdinary : Ordinary language job s lookahead) {s' : ParseState} {lookahead' : Lookahead}
    {clean : Nat} {skips : Prop} (hHere : job.Faces s lookahead) (hFaces : job.Faces s' lookahead')
    (hStop : s'.stack.stop = s.stack.stop + width (job.inputFrom s.stack.stop 1)) {state : StateId}
    (hShift : job.tables.action s.stack.state lookahead.subtree.kind = .shift state) {nextSerial : Nat}
    (hStack : s'.stack = { s.stack.push state lookahead.subtree with nextSerial }) :
    Echoes language job s.stack.closeError.entries clean skips s' lookahead' := by
  have hBelow := hOrdinary.topStop_entries hFaithful hProper
  refine ⟨hFaces, 1, by rw [hBelow, hStop], fun other onset ahead hOnset hLooks => ?_⟩
  have hTables := hOnset.ordinary.arises.tables.trans hOrdinary.arises.tables.symm
  have hShape := shape_of_onset hFaithful hProper hEnd hOrdinary hHere hBelow hOnset.ordinary
    hOnset.pending hLooks
  obtain ⟨u, hQuiet, hPending, hMirrors⟩ := @follow_shift _ _ _ job other lookahead _ _ (onset, ahead)
    hFaithful hProper hOnset.ordinary hOnset.pending hTables hShape _
    (mirrors_of_onset hFaithful hProper hOrdinary hOnset) _ hShift
  exact ⟨u, hQuiet _, hPending, hStack ▸ hMirrors.withSerial _ _⟩

/-- Where the first of the tokens is not shifted in the state below, there is nothing to build again. -/
theorem echoes_of_blocked (hEnd : job.isInvalid endSymbol = false)
    (hOrdinary : Ordinary language job s lookahead) {s' : ParseState} {lookahead' : Lookahead}
    {clean : Nat} {skips : Prop} (hHere : job.Faces s lookahead) (hFaces : job.Faces s' lookahead')
    (hStop : s'.stack.stop = s.stack.stop + width (job.inputFrom s.stack.stop 1))
    (hBelow : ParseStack.topStop base = s.stack.stop)
    (hBlocked : ∀ state,
      job.tables.action (ParseStack.topState base) lookahead.subtree.kind ≠ .shift state) :
    Echoes language job base clean skips s' lookahead' := by
  refine ⟨hFaces, 1, hBelow ▸ hStop, fun other onset ahead hOnset hLooks => ?_⟩
  obtain ⟨next, hShift⟩ := hOnset.shift
  have hShape := shape_of_onset hFaithful hProper hEnd hOrdinary hHere hBelow hOnset.ordinary
    hOnset.pending hLooks
  rw [kind_of_shape hShape, hOnset.ordinary.arises.tables, ← hOrdinary.arises.tables] at hShift
  exact absurd hShift (hBlocked next)

end ParseJob
end IncrementalParsing
