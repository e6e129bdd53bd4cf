import IncrementalParsing.Proofs.Parser.Arising
import IncrementalParsing.Proofs.Parser.StackReach

/-! Where a parse stands in the text. Whatever the lexer finds, the widths on the stack add up, so
the parser moves on by the width of what it takes up, and never back. -/
namespace IncrementalParsing
open Subtree

/-- What the widths of nodes depend on: which kinds are taken apart. -/
def Tables.widths (t : Tables) : Subtree.Kinds where
  spliced := t.splices
  invalid _ := false

namespace ParseStack
variable {kinds : Kinds} {s r : ParseStack}

/-- The next token starts behind what the stack has taken up. -/
theorem Sound.stop_of_leaves (h : s.Sound kinds) (hAfter : r.Sound kinds) {ts : List Subtree}
    (hMeasured : ∀ u ∈ ts, All (Measured kinds) u) (hLeaves : r.leaves = s.leaves ++ leavesAll ts) :
    r.stop = s.stop + width ts := by
  rw [hAfter.stop_eq, hLeaves, List.map_append, List.sum_append, ← h.stop_eq,
    width_leavesAll ts hMeasured]

theorem Sound.withSerial (h : s.Sound kinds) (nextSerial : Nat) :
    ({ s with nextSerial } : ParseStack).Sound kinds :=
  ⟨h.stacked, h.openStop, h.entries, h.opened⟩

theorem stop_noteDecision (s : ParseStack) : s.noteDecision.stop = s.stop := rfl

/-- A push moves the end of the stack by the width of the piece. -/
theorem stop_push (h : s.Sound kinds) (next : StateId) (u : Subtree) :
    (s.push next u).stop = s.stop + u.total := by
  have hOpen := (sound_closeError h).2.2
  have hClosed := stop_closeError h
  rw [stop, if_pos (by simp [hOpen])] at hClosed
  rw [← hClosed, push, stop, if_pos (by simp [hOpen])]
  rfl

/-- A skip moves the end of the stack by the width of all that is skipped. -/
theorem stop_pushSkipped (tables : Tables) (h : s.Sound kinds) {pieces : List Subtree}
    (hPieces : ∀ u ∈ pieces, All (Measured kinds) u) :
    (s.pushSkipped tables pieces).stop = s.stop + width pieces := by
  obtain ⟨hSound, hLeaves⟩ := sound_pushSkipped tables h hPieces
  exact h.stop_of_leaves hSound hPieces hLeaves

/-- Popped pieces and what is left end where the stack ended. -/
theorem stop_pop (h : s.Sound kinds) (depth : Nat) :
    (s.pop depth).2.stop + width (s.pop depth).1 = s.stop := by
  obtain ⟨hSound, hLeaves, hPieces, -⟩ := sound_pop h depth
  exact (hSound.stop_of_leaves h hPieces hLeaves).symm

end ParseStack

namespace ParseJob
variable {job : ParseJob} {g : Grammar} {m : Automaton}

/-- The widths of all that is at hand add up, with some kinds taken apart. -/
structure SizedBy (kinds : Kinds) (s : ParseState) : Prop where
  sound : s.stack.Sound kinds
  pending : ∀ u ∈ s.pending, All (Measured kinds) u
  queue : ∀ q, s.queue = some q → ∀ u ∈ q.ahead, All (Measured kinds) u

/-- The widths of all that is at hand add up. -/
abbrev Sized (job : ParseJob) (s : ParseState) : Prop := SizedBy job.tables.widths s

/-- What the tables do keeps the widths, with some kinds taken apart. -/
structure Suits (job : ParseJob) (kinds : Kinds) : Prop where
  valid : ∀ k, kinds.invalid k = false
  shifted : ∀ {state k next}, job.tables.action state k = .shift next → kinds.spliced k = false
  reduced : ∀ {s : ParseStack}, s.Sound kinds → s.openError = #[] → ∀ info lookaheadStop,
    All (Measured kinds) (s.reduced job.tables info lookaheadStop)

/-- A reduction keeps the widths and does not move on in the text. It has read no further than before, or
than its decision did. -/
theorem Suits.reduce {kinds : Kinds} (hSuits : job.Suits kinds) {s : ParseStack} (h : s.Sound kinds)
    (info : Production) (lookaheadStop : Nat) : (s.reduce job.tables info lookaheadStop).2.Sound kinds
      ∧ (s.reduce job.tables info lookaheadStop).2.stop ≤ s.stop
      ∧ reach (s.reduce job.tables info lookaheadStop).2.material ≤ max (reach s.material) lookaheadStop := by
  obtain ⟨hClosed, -, hOpen⟩ := ParseStack.sound_closeError h
  have hNode := hSuits.reduced hClosed hOpen info lookaheadStop
  have hSound := ParseStack.sound_reduce_of_measured info lookaheadStop h hNode
  obtain ⟨hWidth, hReach⟩ := ParseStack.reach_reduce info lookaheadStop h hNode
  exact ⟨hSound, by rwa [hSound.stop_eq_width, h.stop_eq_width], hReach⟩

theorem Suits.measured_of_isLeaf {kinds : Kinds} (hSuits : job.Suits kinds) {u : Subtree}
    (hLeaf : u.isLeaf = true) : All (Measured kinds) u :=
  all_of_isLeaf hLeaf (Subtree.measured_of_isLeaf hLeaf fun hInvalid =>
    absurd hInvalid (by simp [hSuits.valid]))

theorem measured_widths_of_isLeaf {u : Subtree} (hLeaf : u.isLeaf = true) :
    All (Measured job.tables.widths) u :=
  all_of_isLeaf hLeaf (Subtree.measured_of_isLeaf hLeaf fun hInvalid =>
    absurd hInvalid (by simp [Tables.widths]))

theorem isHidden_widths (k : SymbolId) (hHidden : job.tables.isHidden k = true) :
    job.tables.widths.spliced k = true := by
  simp [Tables.widths, Tables.splices, hHidden]

/-- Error nodes are not taken apart like hidden ones. -/
theorem not_splices_errorSymbol (hGenerated : job.tables.Generated g m) (hProper : g.Proper) :
    job.tables.isHidden errorSymbol = false ∧ errorSymbol ≠ job.tables.start := by
  refine hGenerated.splices_of_isTerminal hProper ?_
  rw [hGenerated.isTerminal_iff]
  exact decide_eq_true (Nat.lt_of_lt_of_le (by decide) hProper.reserved)

/-- A reduction does not move the end of the stack. -/
theorem Sized.stop_reduce (hGenerated : job.tables.Generated g m) (hProper : g.Proper)
    {s : ParseState} (h : job.Sized s) (info : Production) (lookaheadStop : Nat) :
    (s.stack.reduce job.tables info lookaheadStop).2.stop = s.stack.stop := by
  obtain ⟨hSound, hLeaves⟩ := ParseStack.sound_reduce h.sound isHidden_widths
    (not_splices_errorSymbol hGenerated hProper).1 info lookaheadStop
  exact @ParseStack.Sound.stop_of_leaves _ _ _ h.sound hSound [] (by simp) (by simpa using hLeaves)

/-- The tables of a grammar keep the widths. -/
theorem suits_widths (hGenerated : job.tables.Generated g m) (hProper : g.Proper) :
    job.Suits job.tables.widths where
  valid _ := rfl
  shifted hShift := by
    obtain ⟨hShown, hStart⟩ := hGenerated.splices_of_isTerminal hProper
      (job.tables.isTerminal_of_action hShift (by simp))
    simp [Tables.widths, Tables.splices, hShown, hStart]
  reduced h hOpen info lookaheadStop := (ParseStack.reduced_spec h hOpen isHidden_widths
    (not_splices_errorSymbol hGenerated hProper).1 info lookaheadStop).2.1

/-- Skipping a token keeps the widths. -/
theorem SizedBy.skip {kinds : Kinds} {s : ParseState} (h : SizedBy kinds s) (tables : Tables)
    {t : Subtree} {ts : List Subtree} (hPending : s.pending = t :: ts) :
    SizedBy kinds { s with stack := s.stack.pushSkipped tables [t], pending := ts } where
  sound := (ParseStack.sound_pushSkipped tables h.sound
    (by simpa using h.pending t (by simp [hPending]))).1
  pending u hMem := h.pending u (by simp [hPending, hMem])
  queue := h.queue

/-- One move keeps the widths. -/
theorem SizedBy.move {kinds : Kinds} (hSuits : job.Suits kinds) {s r : ParseState}
    (hMove : job.Move s r) (h : SizedBy kinds s) : SizedBy kinds r := by
  have hRest : ∀ {t : Subtree} {ts : List Subtree}, s.pending = t :: ts →
      All (Measured kinds) t ∧ ∀ u ∈ ts, All (Measured kinds) u := by
    intro t ts hPending
    exact ⟨h.pending t (by simp [hPending]), fun u hMem => h.pending u (by simp [hPending, hMem])⟩
  cases hMove with
  | note => exact ⟨ParseStack.sound_noteDecision h.sound, h.pending, h.queue⟩
  | read hLeaves hLast =>
      refine ⟨⟨h.sound.stacked, h.sound.openStop, h.sound.entries, h.sound.opened⟩, ?_, h.queue⟩
      intro u hMem
      rcases List.mem_append.mp hMem with hMem | hMem
      · exact h.pending u hMem
      · obtain rfl := List.mem_singleton.mp hMem
        exact hSuits.measured_of_isLeaf (isLeaf_readAt _ _ _)
  | offer q t ts hPending hQueue hAhead hStart hReusable =>
      refine ⟨h.sound, ?_, ?_⟩
      · intro u hMem
        obtain rfl := List.mem_singleton.mp hMem
        exact h.queue q hQueue u (by simp [hAhead])
      · intro p hSome
        obtain rfl := Option.some.inj hSome
        exact all_behind (q.behind_of_offer t) (h.queue q hQueue)
  | advance q p hPending hQueue hBehind =>
      refine ⟨h.sound, h.pending, ?_⟩
      intro p' hSome
      obtain rfl := Option.some.inj hSome
      exact all_behind hBehind (h.queue q hQueue)
  | drop t hPending hLeaf => exact ⟨h.sound, by simp, h.queue⟩
  | insert ts nextSerial hLeaves hInserted =>
      refine ⟨⟨h.sound.stacked, h.sound.openStop, h.sound.entries, h.sound.opened⟩, ?_, h.queue⟩
      intro u hMem
      rcases List.mem_append.mp hMem with hMem | hMem
      · obtain ⟨serial, terminal, -, rfl⟩ := hInserted u hMem
        exact hSuits.measured_of_isLeaf rfl
      · exact h.pending u hMem
  | shift t ts next hPending hLeaf hShift =>
      obtain ⟨hToken, hMore⟩ := hRest hPending
      have hPlain : Plain kinds t := fun _ hSpliced =>
        absurd hSpliced (by simp [hSuits.shifted hShift])
      exact ⟨(ParseStack.sound_push h.sound next hToken hPlain).1, hMore, h.queue⟩
  | reuse t ts next hPending hLeaf hState hGoto =>
      obtain ⟨hNode, hMore⟩ := hRest hPending
      have hPlain : Plain kinds t := fun hNone =>
        absurd hNone (children_of_not_isLeaf hLeaf)
      refine ⟨(ParseStack.sound_push h.sound next hNode hPlain).1, hMore, ?_⟩
      intro p hSome
      obtain ⟨q, hQueue, rfl⟩ := Option.map_eq_some_iff.mp hSome
      exact all_behind (.pass (.refl q)) (h.queue q hQueue)
  | reduce t ts rule info lookaheadStop hPending hReduce hRule =>
      exact ⟨(hSuits.reduce h.sound info lookaheadStop).1, h.pending, h.queue⟩
  | skip t ts hPending hLeaf hKind => exact h.skip job.tables hPending
  | cut depth ts u us hPending =>
      obtain ⟨hPopped, -, hPieces, -⟩ := ParseStack.sound_pop h.sound depth
      have hNoted := ParseStack.sound_noteDecision hPopped
      refine ⟨?_, fun v hMem => h.pending v (by rw [hPending]; exact List.mem_append_right ts hMem),
        h.queue⟩
      dsimp only
      split
      · exact hNoted
      · refine (ParseStack.sound_pushSkipped job.tables hNoted fun v hMem => ?_).1
        rcases List.mem_append.mp hMem with hMem | hMem
        · exact hPieces v hMem
        · exact h.pending v (by rw [hPending]; exact List.mem_append_left _ hMem)

theorem Sized.move (hGenerated : job.tables.Generated g m) (hProper : g.Proper)
    {s r : ParseState} (hMove : job.Move s r) (h : job.Sized s) : job.Sized r :=
  SizedBy.move (suits_widths hGenerated hProper) hMove h

/-- Moves keep the stack and its input measured. -/
theorem Sized.moves (hGenerated : job.tables.Generated g m) (hProper : g.Proper)
    {s r : ParseState} (hMoves : job.Moves s r) (h : job.Sized s) : job.Sized r :=
  keep_of_moves (SizedBy.move (suits_widths hGenerated hProper)) hMoves h

theorem sizedBy_start {kinds : Kinds} {queue : Option ReuseQueue}
    (hQueue : ∀ q, queue = some q → ∀ u ∈ q.ahead, All (Measured kinds) u)
    (nextSerial : Nat) : SizedBy kinds (start queue nextSerial) where
  sound := ParseStack.sound_empty nextSerial
  pending := by simp [start]
  queue := hQueue

/-- A parse starts with its input measured. -/
theorem sized_start {queue : Option ReuseQueue}
    (hQueue : ∀ q, queue = some q → ∀ u ∈ q.ahead, All (Measured job.tables.widths) u)
    (nextSerial : Nat) : job.Sized (start queue nextSerial) :=
  sizedBy_start hQueue nextSerial

/-- However a parse ends, the widths on its stack add up. -/
theorem SizedBy.outcome {kinds : Kinds} {s : ParseState} (h : SizedBy kinds s) {accepted : Bool}
    {stack : ParseStack} (hOutcome : job.Outcome s accepted stack) : stack.Sound kinds := by
  cases hOutcome with
  | accepted => exact h.sound
  | abandoned =>
      obtain ⟨hSound, -, hPieces, -⟩ := ParseStack.sound_popAll h.sound
      split
      · exact hSound
      · exact (ParseStack.sound_pushSkipped job.tables hSound hPieces).1

end ParseJob

section
variable {language : Language} {g : Grammar} {m : Automaton}

/-- The widths in a tree add up, however it has come about. -/
theorem Grown.measured (hGenerated : language.tables.Generated g m) (hProper : g.Proper) {tree : Tree}
    {accepted : Bool} (h : Grown language tree accepted) :
    ∀ u ∈ tree.root.children, All (Measured language.tables.widths) u := by
  refine (h.of_runs (Q := fun _ root => ∀ u ∈ root.children, All (Measured language.tables.widths) u)
    (fun _ _ hRoot => hRoot) ?_).2
  rintro p text queue limit nextSerial made accepted rfl hQueue hMade -
  obtain ⟨r, verdict, stack, -, hMoves, hOutcome, rfl⟩ :=
    @ParseJob.parseWithin_moves (p.job text) (hGenerated.stops hProper) _ _ _ _ hMade
  have hGenerated' : (p.job text).tables.Generated g m := hGenerated
  obtain ⟨hError, hStart⟩ := ParseJob.not_splices_errorSymbol hGenerated' hProper
  have hSized := (@ParseJob.sized_start (p.job text) _ hQueue nextSerial).moves hGenerated' hProper hMoves
  exact (ParseStack.sound_toRoot (hSized.outcome hOutcome) rfl hStart.symm hError _ _).2

/-- However a tree has come about, its nodes say where their children start. -/
theorem Grown.laid (hGenerated : language.tables.Generated g m) (hProper : g.Proper) {tree : Tree}
    {accepted : Bool} (h : Grown language tree accepted) : tree.Laid := by
  have hLaid : ∀ {tree : Tree} {accepted : Bool}, Grown language tree accepted →
      ∀ u ∈ tree.root.children, All Subtree.Laid u :=
    fun hGrown u hMem => (hGrown.measured hGenerated hProper u hMem).imp fun _ hNode => hNode.laid
  induction h with
  | parse p hLanguage hParse hVerdict =>
      exact Parser.laid_of_runWith hParse (hLaid (.parse p hLanguage hParse hVerdict))
  | edit _ hEdit ih => rwa [Tree.Laid, (Tree.root_applyEdit hEdit).1]
  | reparse hGrown p hLanguage hReparse hVerdict =>
      exact Parser.laid_of_runWith (Parser.reparse_eq_ok hReparse).2
        (hLaid (.reparse hGrown p hLanguage hReparse hVerdict))

/-- The widths add up wherever a parse comes to. -/
theorem Arises.sized (hGenerated : language.tables.Generated g m) (hProper : g.Proper)
    {job : ParseJob} {s : ParseState} {lookahead : Lookahead}
    (h : Arises language job s lookahead) : job.Sized (s.facing lookahead) := by
  induction h with
  | parse p hLanguage text nextSerial =>
      subst hLanguage
      have hStart := @ParseJob.sized_start (p.job text) none (by simp) nextSerial
      exact hStart.moves hGenerated hProper (ParseJob.nextInput_moves _ (by simp [ParseJob.start])).1
  | reparse p hLanguage text hGrown nextSerial =>
      have hTree := hGrown.measured hGenerated hProper
      subst hLanguage
      have hStart := @ParseJob.sized_start (p.job text) _ (all_ahead_queueOf hTree p) nextSerial
      exact hStart.moves hGenerated hProper (ParseJob.nextInput_moves _ (by simp [ParseJob.start])).1
  | step h hStep ih =>
      have hTidy := (h.along hGenerated hProper).tidy
      rw [← h.tables] at hGenerated
      have hLeads := ParseJob.leads_step (hGenerated.stops hProper) _ _ hTidy
      rw [hStep] at hLeads
      exact ih.moves hGenerated hProper hLeads.1

end
end IncrementalParsing
