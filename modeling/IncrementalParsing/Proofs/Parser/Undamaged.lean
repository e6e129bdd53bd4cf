import IncrementalParsing.Proofs.Parser.Damage
import IncrementalParsing.Proofs.Parser.Finishing
import IncrementalParsing.Proofs.Parser.Steady
import IncrementalParsing.Proofs.Tables.Disputes
import IncrementalParsing.Proofs.Tree.Sentences

/-! How a sentence is parsed. If the tables do what every sentence needs, no token is ever without an
action, so recovery has nothing to do and there is no damage in the tree. -/
namespace IncrementalParsing
open Subtree

/-- On every path that makes up a sentence with the tokens that are left, the tables go on with it. -/
def Tables.Guides (t : Tables) (g : Grammar) (m : Automaton) : Prop :=
  ∀ steps rest, m.Path steps → g.Continues (steps.map (·.1)) rest → t.Guided g steps rest

namespace ParseJob
variable {job : ParseJob} {g : Grammar} {m : Automaton} {s : ParseState} {lookahead : Lookahead}

theorem tokensFrom_of_some {position : Nat} {token : Token} (h : job.token? position = some token) :
    job.tokensFrom position = token :: job.tokensFrom (position + token.width) := by
  rw [tokensFrom]
  split
  · rename_i found hFound
    obtain rfl := Option.some.inj (h.symm.trans hFound)
    rfl
  · rename_i hNone
    exact absurd (h.symm.trans hNone) (by simp)

theorem tokensFrom_of_none {position : Nat} (h : job.token? position = none) :
    job.tokensFrom position = [] := by
  rw [tokensFrom]
  split
  · rename_i found hFound
    exact absurd (h.symm.trans hFound) (by simp)
  · rfl

theorem tokensFrom_congr {other : ParseJob}
    (hSame : ∀ position, other.token? position = job.token? position) (position : Nat) :
    other.tokensFrom position = job.tokensFrom position := by
  fun_induction job.tokensFrom position with
  | case1 position token hToken ih => rw [tokensFrom_of_some ((hSame position).trans hToken), ih]
  | case2 position hNone => exact tokensFrom_of_none ((hSame position).trans hNone)

/-- A parse of a sentence. Nothing has been damaged or read ahead, and what is on the stack and what is
left make up the sentence. As long as anything is left, every step on the stack has a width. -/
structure Unharmed (job : ParseJob) (g : Grammar) (s : ParseState) : Prop where
  steady : ParseStack.Steady job.tables s.stack
    (((job.tokensFrom s.stack.stop).map Token.kind).headD endSymbol)
  pending : s.pending = []
  queue : s.queue = none
  inside : s.stack.stop ≤ job.text.size
  continues : g.Continues ((ParseStack.steps s.stack.entries).map (·.1))
    ((job.tokensFrom s.stack.stop).map Token.kind)
  valid : ∀ token ∈ job.tokensFrom s.stack.stop, job.isInvalid token.kind = false
  short : job.tokensFrom s.stack.stop ≠ [] → (ParseStack.steps s.stack.entries).length ≤ s.stack.stop

/-- The lookahead is the token behind the stack. -/
def Faces (job : ParseJob) (s : ParseState) (lookahead : Lookahead) : Prop :=
  ∃ serial, lookahead.subtree = job.readAt serial s.stack.stop

theorem Faces.kind (hRange : job.lexer.InRange) (hInside : s.stack.stop ≤ job.text.size)
    (h : job.Faces s lookahead) : (lookahead.subtree.leftmost 0).1.kind
    = ((job.tokensFrom s.stack.stop).map Token.kind).headD endSymbol := by
  obtain ⟨serial, hRead⟩ := h
  rcases readAt_of_le hRange serial hInside with ⟨token, hToken, hSame⟩ | ⟨hNone, hSame⟩
  · rw [hRead, hSame, tokensFrom_of_some hToken]
    rfl
  · rw [hRead, hSame, tokensFrom_of_none hNone]
    rfl

theorem Unharmed.nextInput (h : job.Unharmed g s) :
    job.Unharmed g (job.nextInput s).2 ∧ job.Faces (job.nextInput s).2 (job.nextInput s).1 := by
  have hNext : job.nextInput s = (⟨job.readAt s.stack.nextSerial s.stack.stop, false⟩,
      { s with stack := { s.stack with nextSerial := s.stack.nextSerial + 1 } }) := by
    rw [ParseJob.nextInput]
    simp only [h.pending, h.queue, Option.map_none, readToken]
  rw [hNext]
  exact ⟨⟨h.steady.read _, h.pending, h.queue, h.inside, h.continues, h.valid, h.short⟩, _, rfl⟩

theorem unharmed_start {nextSerial : Nat}
    (hSentence : g.StandsFor [g.start] ((job.tokensFrom 0).map Token.kind))
    (hValid : ∀ token ∈ job.tokensFrom 0, job.isInvalid token.kind = false) :
    job.Unharmed g (start none nextSerial) where
  steady := .start nextSerial _
  pending := rfl
  queue := rfl
  inside := Nat.zero_le _
  continues := hSentence
  valid := hValid
  short := fun _ => Nat.le_refl 0

/-- The lookahead is skipped, because the text is longer than the stack may be high. -/
def Overflows (job : ParseJob) (s : ParseState) (lookahead : Lookahead) : Prop :=
  job.limits.maxHeight < job.text.size ∧ lookahead.subtree.isLeaf = true
    ∧ lookahead.subtree.kind ≠ endSymbol
    ∧ job.step s lookahead = .ofInput (job.nextInput (job.skip s [lookahead.subtree]))

section Step
variable (hKnown : job.Assured g m s lookahead) (hRange : job.lexer.InRange)
  (hFaces : job.Faces s lookahead)
include hKnown hRange hFaces

/-- A token of a sentence is shifted, unless the stack is too high for the text. -/
theorem Unharmed.shift (h : job.Unharmed g s) {token : SymbolId} {tokens : List SymbolId} {next : StateId}
    (hRest : (job.tokensFrom s.stack.stop).map Token.kind = token :: tokens)
    (hShift : job.tables.action s.stack.state token = .shift next)
    (hAwaits : g.Awaits ((ParseStack.steps s.stack.entries).map (·.1)) token tokens) :
    (∃ r, job.step s lookahead = .ofInput (job.nextInput r) ∧ job.Unharmed g r)
      ∨ job.Overflows s lookahead := by
  obtain ⟨serial, hRead⟩ := hFaces
  rcases readAt_of_le hRange serial h.inside with ⟨found, hFound, hSame⟩ | ⟨hNone, -⟩
  swap
  · rw [tokensFrom_of_none hNone] at hRest
    simp at hRest
  rw [hSame] at hRead
  have hTokens := tokensFrom_of_some hFound
  have hShort := h.short (by simp [hTokens])
  have hValid := h.valid
  rw [hTokens] at hRest hValid
  obtain ⟨rfl, rfl⟩ := List.cons.inj hRest
  obtain ⟨hWide, hBound⟩ := token?_width hFound
  have hSound : s.stack.Sound job.tables.widths := hKnown.sized.sound
  have hClean := (h.steady.clean_legal hKnown.faithful hKnown.proper).1
  have hLow : s.stack.height ≤ s.stack.stop := (hClean.height_eq hSound).trans_le hShort
  have hStop : (s.stack.push next lookahead.subtree).stop = s.stack.stop + found.width := by
    rw [ParseStack.stop_push hSound, hRead]
    rfl
  have hSteps : ParseStack.steps (s.stack.push next lookahead.subtree).entries
      = (found.kind, next) :: ParseStack.steps s.stack.entries := by
    rw [ParseStack.steps_push, hRead]
    rfl
  have hKind : lookahead.subtree.kind = found.kind := by rw [hRead]; rfl
  have hLeaf : lookahead.subtree.isLeaf = true := by rw [hRead]; rfl
  have hStep : job.step s lookahead = job.shiftToken s next lookahead.subtree := by
    rw [step, leftmost_of_isLeaf hLeaf]
    simp only [show lookahead.subtree.info.kind = found.kind from hKind, hShift, hLeaf, if_true]
  rw [hStep, shiftToken]
  split
  · rename_i hHigh
    refine .inr ⟨by omega, hLeaf, fun hEnd => ?_, ?_⟩
    · refine hKnown.generated.stops hKnown.proper s.stack.state next ?_
      rw [← hEnd, hKind]
      exact hShift
    · rw [hStep, shiftToken, if_pos hHigh]
  · refine .inl ⟨_, rfl, ?_, h.pending, h.queue, hStop.trans_le hBound, ?_, ?_, ?_⟩
    · have hSteady := h.steady
      rw [hTokens, List.map_cons, List.headD_cons, ← hKind] at hSteady
      have hWhole : lookahead.subtree.hasError = false := by
        rw [hRead]
        exact hValid found (by simp)
      exact hSteady.shift (hKind ▸ hShift) hLeaf hWhole _
    · dsimp only
      rw [hStop, hSteps]
      exact hAwaits
    · dsimp only
      rw [hStop]
      exact fun token hMem => hValid token (by simp [hMem])
    · intro _
      dsimp only
      rw [hStop, hSteps, List.length_cons]
      omega

/-- A rule of a sentence is reduced by. -/
theorem Unharmed.reduce (hEmpty : ∀ info ∈ g.rules, info.symbols = [] → info.lhs = g.start)
    (hAbsent : ∀ info ∈ g.rules, g.start ∉ info.symbols) (h : job.Unharmed g s) {rule : RuleId}
    {info : Rule} {above below : List (SymbolId × StateId)} (hRule : g.rules[rule]? = some info)
    (hSteps : ParseStack.steps s.stack.entries = above ++ below)
    (hSymbols : (above.map (·.1)).reverse = info.symbols)
    (hReduce : job.tables.action s.stack.state
      (((job.tokensFrom s.stack.stop).map Token.kind).headD endSymbol) = .reduce rule)
    (hAwaits : g.Awaits (below.map (·.1)) info.lhs ((job.tokensFrom s.stack.stop).map Token.kind)) :
    ∃ r, job.step s lookahead = .next lookahead r ∧ job.Faces r lookahead ∧ job.Unharmed g r := by
  have hHere := hReduce
  rw [← hFaces.kind hRange h.inside] at hReduce
  obtain ⟨found, hFound, hStep⟩ := hKnown.reducible.step lookahead rule hReduce
  obtain ⟨source, hSource, rfl⟩ := hKnown.generated.rule_of_rules hFound
  obtain rfl := Option.some.inj (hRule.symm.trans hSource)
  generalize s.stack.stop + (lookahead.subtree.leftmost 0).2 + (lookahead.subtree.leftmost 0).1.lookahead
    = lookaheadStop at hStep
  obtain ⟨next, hReduced, hAfter⟩ := hKnown.legal.exists_steps_reduce hKnown.faithful
    hKnown.proper hKnown.lasting hReduce hFound lookaheadStop
  have hStop : (s.stack.reduce job.tables info.toProduction lookaheadStop).2.stop = s.stack.stop :=
    hKnown.sized.stop_reduce hKnown.generated hKnown.proper info.toProduction lookaheadStop
  have hLength : above.length = info.rhs.length := by
    rw [← List.length_map (f := (·.1)), ← List.length_reverse, hSymbols, Production.symbols,
      List.length_map]
  rw [hSteps, ← hLength, List.drop_left] at hAfter
  refine ⟨_, hStep, ?_, ?_, h.pending, h.queue, hStop.trans_le h.inside, ?_, ?_, ?_⟩
  · obtain ⟨serial, hRead⟩ := hFaces
    exact ⟨serial, hStop.symm ▸ hRead⟩
  · dsimp only
    rw [hStop]
    exact h.steady.reduce hHere hFound lookaheadStop
  · dsimp only
    rw [hStop, hAfter]
    exact hAwaits
  · dsimp only
    rw [hStop]
    exact h.valid
  · intro hSome
    dsimp only at hSome ⊢
    rw [hStop] at hSome ⊢
    rw [hAfter, List.length_cons]
    have hShort := h.short hSome
    rw [hSteps, List.length_append] at hShort
    cases hNone : info.symbols with
    | nil =>
        rw [hEmpty info (Array.mem_of_getElem? hRule) hNone] at hAwaits
        exact absurd (List.map_eq_nil_iff.mp (hAwaits.eq_nil hAbsent)) hSome
    | cons first others =>
        have hAbove : 0 < above.length := by
          rw [hLength, ← List.length_map (f := (·.symbol))]
          exact Nat.lt_of_lt_of_eq (Nat.succ_pos others.length) (congrArg List.length hNone).symm
        omega

/-- A parse of a sentence goes on until it accepts, or the stack gets too high. -/
theorem Unharmed.step (hGuides : job.tables.Guides g m)
    (hEmpty : ∀ info ∈ g.rules, info.symbols = [] → info.lhs = g.start)
    (hAbsent : ∀ info ∈ g.rules, g.start ∉ info.symbols) (h : job.Unharmed g s) :
    (job.step s lookahead = .done true s.stack ∧ ∃ token,
        ParseStack.Steady job.tables s.stack token ∧ job.tables.action s.stack.state token = .accept)
      ∨ (∃ next r, job.step s lookahead = .next next r ∧ job.Faces r next ∧ job.Unharmed g r)
      ∨ job.Overflows s lookahead := by
  have hEnd := hKnown.legal.aligned.endOf_steps
  have hKind := hFaces.kind hRange h.inside
  have hSteady := h.steady
  cases hGuides _ _ hKnown.legal.aligned.path h.continues with
  | shift token tokens next hRest hShift hAwaits =>
      rw [hEnd] at hShift
      rcases h.shift hKnown hRange hFaces hRest hShift hAwaits with ⟨r, hStep, hAfter⟩ | hOver
      · exact .inr (.inl ⟨_, _, hStep, hAfter.nextInput.2, hAfter.nextInput.1⟩)
      · exact .inr (.inr hOver)
  | reduce rule info above below hRule hSteps hSymbols hReduce hAwaits =>
      rw [hEnd] at hReduce
      obtain ⟨r, hStep, hAfter⟩ := h.reduce hKnown hRange hFaces hEmpty hAbsent hRule hSteps hSymbols hReduce
        hAwaits
      exact .inr (.inl ⟨_, _, hStep, hAfter⟩)
  | accept hAccept hRest =>
      rw [hEnd] at hAccept
      rw [hRest, List.headD_nil] at hKind hSteady
      refine .inl ⟨?_, endSymbol, hSteady, hAccept⟩
      rw [ParseJob.step]
      simp only [hKind]
      rw [ParseStack.state, hAccept]

end Step

/-- However long it takes, a parse of a sentence ends with an accepted stack without damage, or it has
been damaged because the stack got too high. -/
theorem Unharmed.run {language : Language} (hFaithful : language.tables.Faithful g m)
    (hProper : g.Proper) (hGuides : language.tables.Guides g m) (hRange : job.lexer.InRange)
    (hEmpty : ∀ info ∈ g.rules, info.symbols = [] → info.lhs = g.start)
    (hAbsent : ∀ info ∈ g.rules, g.start ∉ info.symbols) {limit : Nat}
    (hArises : Arises language job s lookahead) (hFaces : job.Faces s lookahead)
    (h : job.Unharmed g s) {accepted : Bool} {stack : ParseStack}
    (hRun : job.run limit s lookahead = some (accepted, stack)) :
    (accepted = true ∧ ∃ token,
        ParseStack.Steady job.tables stack token ∧ job.tables.action stack.state token = .accept)
      ∨ job.limits.maxHeight < job.text.size ∧ ∃ r u : ParseState, job.Moves (s.facing lookahead) r
        ∧ r.stack.Damaged ∧ job.Moves r u ∧ job.Outcome u accepted stack := by
  induction limit generalizing s lookahead with
  | zero => simp [ParseJob.run] at hRun
  | succ limit ih =>
      have hKnown := hArises.assured hFaithful hProper
      have hStops := hKnown.generated.stops hKnown.proper
      rw [ParseJob.run] at hRun
      rcases h.step hKnown hRange hFaces (hArises.tables ▸ hGuides) hEmpty hAbsent with
        ⟨hDone, hSteady⟩ | ⟨next, r, hNext, hAfterFaces, hAfter⟩ | ⟨hLong, hLeaf, hKind, hStep⟩
      · rw [hDone] at hRun
        obtain ⟨rfl, rfl⟩ := Prod.mk.inj (Option.some.inj hRun)
        exact .inl ⟨rfl, hSteady⟩
      · have hLeads := leads_step hStops s lookahead hKnown.along.tidy
        rw [hNext] at hRun hLeads
        refine (ih (hArises.step hNext) hAfterFaces hAfter hRun).imp_right (And.imp_right ?_)
        rintro ⟨u, v, hMoves, hRest⟩
        exact ⟨u, v, hLeads.1.trans hMoves, hRest⟩
      · rw [hStep] at hRun
        have hSkip := @Move.skip job (s.facing lookahead) lookahead.subtree s.pending rfl hLeaf hKind
        obtain ⟨hInput, hTidy⟩ := @nextInput_moves job (job.skip s [lookahead.subtree])
          (by simp [skip, h.pending])
        obtain ⟨u, hMoves, hOutcome⟩ := run_moves hStops limit _ _ hTidy hRun
        exact .inr ⟨hLong, _, u, .single hSkip,
          ParseStack.damaged_pushSkipped _ _ (List.cons_ne_nil _ _), hInput.trans hMoves, hOutcome⟩

end ParseJob

section
variable {p : Parser} {g : Grammar} {m : Automaton} (hFaithful : p.language.tables.Faithful g m)
  (hProper : g.Proper) (hGuides : p.language.tables.Guides g m) (hRange : p.language.lexer.InRange)
  (hEmpty : ∀ info ∈ g.rules, info.symbols = [] → info.lhs = g.start)
  (hAbsent : ∀ info ∈ g.rules, g.start ∉ info.symbols) {text : ByteArray} {tree : Tree}
include hFaithful hProper hGuides hRange hEmpty hAbsent

/-- If the tokens of a text are valid and make up a sentence, its tree is the root over an accepted
stack without damage, or the stack was damaged on the way because it got too high. -/
theorem Parser.ends_of_sentence (hParse : p.parse text = some tree)
    (hValid : ∀ token ∈ p.language.tokens text, p.language.tables.kinds.invalid token.kind = false)
    (hSentence : g.StandsFor [g.start] ((p.language.tokens text).map Token.kind)) :
    ∃ accepted stack, tree.root = (stack.toRoot p.language.tables text.size accepted).1
      ∧ ((accepted = true ∧ ∃ token, ParseStack.Steady p.language.tables stack token
          ∧ p.language.tables.action stack.state token = .accept)
        ∨ p.limits.maxHeight < text.size ∧ ∃ r u : ParseState,
          (p.job text).Moves (ParseJob.start none p.nextSerial) r ∧ r.stack.Damaged
            ∧ (p.job text).Moves r u ∧ (p.job text).Outcome u accepted stack) := by
  obtain ⟨made, hMade, rfl⟩ := Parser.runWith_eq_some hParse
  rw [ParseJob.parseWithin] at hMade
  obtain ⟨⟨accepted, stack⟩, hRun, rfl⟩ := Option.map_eq_some_iff.mp hMade
  have hTokens : (p.job text).tokensFrom 0 = p.language.tokens text :=
    @ParseJob.tokensFrom_congr ((Parser.ofLanguage p.language).job text) (p.job text) (fun _ => rfl) 0
  have hStart := @ParseJob.unharmed_start (p.job text) g p.nextSerial (hTokens ▸ hSentence)
    (hTokens ▸ hValid)
  refine ⟨accepted, stack, rfl, (hStart.nextInput.1.run hFaithful hProper hGuides hRange hEmpty hAbsent
    (.parse p rfl text p.nextSerial) hStart.nextInput.2 hRun).imp_right (And.imp_right ?_)⟩
  rintro ⟨r, u, hMoves, hRest⟩
  obtain ⟨hInput, -⟩ :=
    @ParseJob.nextInput_moves (p.job text) (ParseJob.start none p.nextSerial) (by simp [ParseJob.start])
  exact ⟨r, u, hInput.trans hMoves, hRest⟩

/-- If the tokens of a text are valid and make up a sentence, its tree has no damage, as long as the
stack may be as high as the text is long. -/
theorem Parser.undamaged_of_sentence (hHeight : text.size ≤ p.limits.maxHeight)
    (hParse : p.parse text = some tree)
    (hValid : ∀ token ∈ p.language.tokens text, p.language.tables.kinds.invalid token.kind = false)
    (hSentence : g.StandsFor [g.start] ((p.language.tokens text).map Token.kind)) :
    tree.hasError = false := by
  obtain ⟨accepted, stack, hRoot, ⟨rfl, token, hSteady, -⟩ | ⟨hLong, -⟩⟩ :=
    Parser.ends_of_sentence hFaithful hProper hGuides hRange hEmpty hAbsent hParse hValid hSentence
  · have hError := @ParseJob.isTerminal_reserved (p.job text) g m hFaithful.toGenerated hProper errorSymbol
      (by decide)
    have hStart := (hFaithful.splices_of_isTerminal hProper hError).2.symm
    rw [Tree.hasError, hRoot]
    exact (hSteady.clean_legal hFaithful hProper).1.toRoot hStart text.size
  · exact absurd hHeight (Nat.not_le.mpr hLong)

/-- A tree without damage is the root over an accepted stack that shifts and reductions alone have
made. -/
theorem Parser.steady_of_undamaged
    (hTokens : ∀ symbol, p.language.tables.isErrorToken symbol = true →
      errorSymbol < symbol ∧ p.language.tables.isTerminal symbol = true)
    (hLexer : ∀ text position token, p.language.lexer.next text position = some token →
      p.language.tables.isTerminal token.kind = true ∧ token.kind ≠ endSymbol)
    (hParse : p.parse text = some tree) (hWhole : tree.hasError = false) :
    ∃ stack token, ParseStack.Steady p.language.tables stack token
      ∧ p.language.tables.action stack.state token = .accept
      ∧ tree.root = (stack.toRoot p.language.tables text.size true).1 := by
  obtain ⟨hValid, hSentence⟩ :=
    Parser.sentence_of_parse hFaithful hProper hRange hTokens hLexer hParse hWhole
  obtain ⟨accepted, stack, hRoot, ⟨rfl, token, hSteady, hAccept⟩ | ⟨-, r, u, hMoves, hDamaged, hRest,
      hOutcome⟩⟩ :=
    Parser.ends_of_sentence hFaithful hProper hGuides hRange hEmpty hAbsent hParse hValid hSentence
  · exact ⟨stack, token, hSteady, hAccept, hRoot⟩
  · have hUpheld := @ParseJob.upheld_traced (p.job text) g m hFaithful.toGenerated hProper hTokens
    have hLawful := (ParseJob.lawful_start (by simp) p.nextSerial).moves hUpheld hMoves
    have hError := ParseJob.hasError_of_damaged hUpheld hLawful hDamaged hRest hOutcome text.size
    rw [Tree.hasError, hRoot] at hWhole
    exact absurd (hWhole.symm.trans hError) Bool.false_ne_true

end
end IncrementalParsing
