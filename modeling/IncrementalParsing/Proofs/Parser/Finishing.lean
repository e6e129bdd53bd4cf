import IncrementalParsing.Proofs.Letters.Language
import IncrementalParsing.Proofs.Parser.Advancing
import IncrementalParsing.Proofs.Tables.Ending

/-! Parsing comes to an end where reductions do, whatever the lexer finds and whatever the limits
are. Behind every recovery the parse moves on in the text or accepts it. -/
namespace IncrementalParsing
open Subtree

/-- No chain of reductions goes on forever from a stack that a parse comes to. -/
def Language.ReductionsEnd (language : Language) : Prop :=
  ∀ job s lookahead, Arises language job s lookahead →
    ∀ terminal, language.tables.Ends terminal s.stack.states

/-- After finitely many steps, something has been read beyond a position, or the text is accepted. -/
inductive ParseJob.Proceeds (job : ParseJob) (position : Nat) : ParseState → Lookahead → Prop
  | read {s : ParseState} {lookahead : Lookahead} (h : position < s.stack.stop) :
      Proceeds job position s lookahead
  | accept {s : ParseState} {lookahead : Lookahead} {stack : ParseStack}
      (hStep : job.step s lookahead = .done true stack) : Proceeds job position s lookahead
  | later {s r : ParseState} {lookahead next : Lookahead}
      (hStep : job.step s lookahead = .next next r) (h : Proceeds job position r next) :
      Proceeds job position s lookahead

/-- All parses of a language come to an end. -/
structure Language.Finishes (language : Language) : Prop where
  parse : ∀ p : Parser, p.language = language → ∀ text, ∃ tree, p.parse text = some tree
  reparse : ∀ p : Parser, p.language = language → ∀ edited accepted, Grown language edited accepted →
    ∀ text, edited.length = text.size → ∃ tree, p.reparse edited text = .ok tree
  /-- Wherever a token is recovered from, this ends the parse, or the parse proceeds. -/
  recovery : ∀ job s lookahead reached, Arises language job s lookahead →
    lookahead.subtree.isLeaf = true → job.Recovers s lookahead reached →
      (∃ accepted stack, job.step s lookahead = .done accepted stack)
        ∨ ∃ next r, job.step s lookahead = .next next r ∧ job.Proceeds s.stack.stop r next

section
variable {language : Language} {g : Grammar} {m : Automaton} {job : ParseJob} {s : ParseState}
  {lookahead : Lookahead} {promised : Option Nat}

theorem Arises.known (hGenerated : language.tables.Generated g m) (hProper : g.Proper)
    (h : Arises language job s lookahead) : job.Known g m s lookahead where
  generated := h.tables.symm ▸ hGenerated
  proper := hProper
  along := h.along hGenerated hProper
  sized := h.sized hGenerated hProper

theorem Arises.assured (hFaithful : language.tables.Faithful g m) (hProper : g.Proper)
    (h : Arises language job s lookahead) : job.Assured g m s lookahead :=
  ⟨h.known hFaithful.toGenerated hProper, hFaithful.fits⟩

theorem ParseJob.poised_start (queue : Option ReuseQueue) (nextSerial : Nat) :
    job.Poised none (job.nextInput (start queue nextSerial)).2
      (job.nextInput (start queue nextSerial)).1 := by
  have hMeets := @meets_nextInput job (start queue nextSerial) (by simp [start]) (by simp [start])
  exact ⟨hMeets.linked, hMeets.solid⟩

theorem ParseJob.energy_start (hRange : job.lexer.InRange) (queue : Option ReuseQueue) (nextSerial : Nat) :
    job.energy none ((job.nextInput (start queue nextSerial)).2.facing
        (job.nextInput (start queue nextSerial)).1)
      ≤ (job.limits.maxMissing + 3) * (queued queue * (job.text.size + 1) + job.text.size)
        + (job.limits.maxMissing + 2) := by
  have hMeets := @meets_nextInput job (start queue nextSerial) (by simp [start]) (by simp [start])
  refine Nat.add_le_add_right (Nat.mul_le_mul_left _ ((hMeets.cheap hRange).trans ?_)) _
  exact Nat.add_le_add_left ((spare_nil 0).trans_le (Nat.sub_le _ _)) _

/-- Wherever a parse comes to, the input is as it was found, or recovery has made sure of it. -/
theorem Arises.poised (hGenerated : language.tables.Generated g m) (hProper : g.Proper)
    (h : Arises language job s lookahead) : ∃ promised, job.Poised promised s lookahead := by
  induction h with
  | parse => exact ⟨none, ParseJob.poised_start _ _⟩
  | reparse => exact ⟨none, ParseJob.poised_start _ _⟩
  | step h hStep ih =>
      obtain ⟨promised, hPoised⟩ := ih
      have hAdvance := ParseJob.advance_step (h.known hGenerated hProper) hPoised
      rw [hStep] at hAdvance
      cases hAdvance with
      | reduced _ _ hPoised => exact ⟨promised, hPoised⟩
      | spent hSpent =>
          cases hSpent with
          | moved _ _ promised' hPoised => exact ⟨promised', hPoised⟩

/-- What recovery has made sure of lets the parse proceed. -/
theorem Arises.proceeds (hGenerated : language.tables.Generated g m) (hProper : g.Proper)
    (hEnds : language.ReductionsEnd) (h : Arises language job s lookahead) {count : Nat}
    (hPoised : job.Poised (some count) s lookahead) {position : Nat}
    (hPosition : position ≤ s.stack.stop) : job.Proceeds position s lookahead := by
  induction count using Nat.strongRecOn generalizing s lookahead with
  | ind count ih =>
      obtain ⟨_, _, hSame, hLeaf, -⟩ := Tables.Welcomes.exists_head hPoised.input
      obtain ⟨rfl, rfl⟩ := List.cons.inj hSame
      clear hSame
      -- The reductions in front of the token end, so the induction inside is on those that are left.
      have hAcc := Tables.ends_iff_acc.mp (hEnds job s lookahead h (lookahead.subtree.leftmost 0).1.kind)
      generalize hStates : s.stack.states = states at hAcc
      induction hAcc generalizing s with
      | intro states _ ihAcc =>
          have hAdvance := ParseJob.advance_step (h.known hGenerated hProper) hPoised
          generalize hStep : job.step s lookahead = outcome at hAdvance
          cases hAdvance with
          | reduced r hReduction hAfter _ hStop =>
              rw [h.tables, hStates] at hReduction
              exact .later hStep (ihAcc r.stack.states hReduction (h.step hStep) hAfter
                (hStop ▸ hPosition) rfl)
          | spent hSpent =>
              cases hSpent with
              | done accepted stack hPromise =>
                  obtain rfl := hPromise (by simp)
                  exact .accept hStep
              | moved next r promised' hAfter _ _ hCloser =>
                  rcases hCloser hLeaf with hStop | ⟨hStop, count', rfl, hLess⟩
                  · exact .later hStep (.read (hPosition.trans_lt hStop))
                  · exact .later hStep
                      (ih count' (hLess count rfl) (h.step hStep) hAfter (hPosition.trans hStop))

theorem Arises.recovers (hGenerated : language.tables.Generated g m) (hProper : g.Proper)
    (hEnds : language.ReductionsEnd) (h : Arises language job s lookahead)
    (hLeaf : lookahead.subtree.isLeaf = true) {reached : ParseState}
    (hRecovers : job.Recovers s lookahead reached) :
    (∃ accepted stack, job.step s lookahead = .done accepted stack)
      ∨ ∃ next r, job.step s lookahead = .next next r ∧ job.Proceeds s.stack.stop r next := by
  obtain ⟨promised, hPoised⟩ := h.poised hGenerated hProper
  have hKnown := h.known hGenerated hProper
  have hAdvance := ParseJob.advance_step hKnown hPoised
  generalize hStep : job.step s lookahead = outcome at hAdvance
  cases hAdvance with
  | reduced r hReduction =>
      rw [ParseJob.kind_leftmost_of_isLeaf hLeaf, hKnown.reduction?_of_recovers hRecovers] at hReduction
      simp at hReduction
  | spent hSpent =>
      cases hSpent with
      | done accepted stack => exact .inl ⟨accepted, stack, rfl⟩
      | moved next r promised' hAfter _ _ hCloser =>
          refine .inr ⟨next, r, rfl, ?_⟩
          rcases hCloser hLeaf with hStop | ⟨hStop, count, rfl, -⟩
          · exact .read hStop
          · exact (h.step hStep).proceeds hGenerated hProper hEnds hAfter hStop

theorem ParseJob.isSome_run_mono {limit more : Nat} (h : (job.run limit s lookahead).isSome = true)
    (hMore : limit ≤ more) : (job.run more s lookahead).isSome = true := by
  induction limit generalizing s lookahead more with
  | zero => simp [run] at h
  | succ limit ih =>
      cases more with
      | zero => simp at hMore
      | succ more =>
          rw [run] at h ⊢
          split
          · rename_i next r hStep
            rw [hStep] at h
            exact ih h (Nat.le_of_succ_le_succ hMore)
          · rfl

/-- A parse gets through a chain of reductions, if it ends from wherever the chain may end. -/
theorem Arises.isSome_run_of_moved (hGenerated : language.tables.Generated g m) (hProper : g.Proper)
    (hRange : job.lexer.InRange) {first : List StateId} {count fuel rest : Nat}
    (h : Arises language job s lookahead)
    (hPoised : job.Poised promised s lookahead)
    (hFirst : language.tables.Ends (lookahead.subtree.leftmost 0).1.kind first)
    (hChain : language.tables.Reductions (lookahead.subtree.leftmost 0).1.kind first count
      s.stack.states)
    (hFuel : (language.stateCount + 2) ^ language.stateCount * (first.length + 1) ≤ count + fuel)
    (hMoved : ∀ next r promised', Arises language job r next → job.Poised promised' r next →
      job.energy promised' (r.facing next) < job.energy promised (s.facing lookahead) →
      r.stack.states.length ≤ first.length + (language.stateCount + 1) →
      (job.run rest r next).isSome = true) :
    (job.run (rest + fuel) s lookahead).isSome = true := by
  obtain ⟨hShort, hLow⟩ := hChain.bounded (hGenerated.lt_of_reduction hProper) hFirst
  induction fuel generalizing s count with
  | zero => exact absurd hShort (Nat.not_lt.mpr hFuel)
  | succ fuel ih =>
      have hAdvance := ParseJob.advance_step (h.known hGenerated hProper) hPoised
      rw [Nat.add_succ, ParseJob.run]
      generalize hStep : job.step s lookahead = outcome at hAdvance
      cases hAdvance with
      | reduced r hReduction hAfter hEnergy =>
          rw [h.tables] at hReduction
          have hLonger := Tables.Reductions.more hChain hReduction
          obtain ⟨hShort', hLow'⟩ := hLonger.bounded (hGenerated.lt_of_reduction hProper) hFirst
          exact ih (h.step hStep) hAfter hLonger (by omega) (hEnergy ▸ hMoved) hShort' hLow'
      | spent hSpent =>
          cases hSpent with
          | done => rfl
          | moved next r promised' hAfter hLess hHeight =>
              refine ParseJob.isSome_run_mono (hMoved next r promised' (h.step hStep) hAfter
                (hLess hRange) ?_)
                (Nat.le_add_right _ _)
              have hSame : language.stateCount = language.tables.stateCount := rfl
              omega

/-- A parse ends within a number of steps that depends on what it has left to do. -/
theorem Arises.isSome_run (hGenerated : language.tables.Generated g m) (hProper : g.Proper)
    (hEnds : language.ReductionsEnd) (hRange : job.lexer.InRange) {height energy : Nat}
    (h : Arises language job s lookahead)
    (hPoised : job.Poised promised s lookahead)
    (hEnergy : job.energy promised (s.facing lookahead) ≤ energy)
    (hHeight : s.stack.states.length + energy * (language.stateCount + 1) ≤ height) :
    (job.run ((energy + 1) * ((language.stateCount + 2) ^ language.stateCount * (height + 1))) s
      lookahead).isSome = true := by
  have hEnough : (language.stateCount + 2) ^ language.stateCount * (s.stack.states.length + 1)
      ≤ 0 + (language.stateCount + 2) ^ language.stateCount * (height + 1) := by
    rw [Nat.zero_add]
    exact Nat.mul_le_mul_left _ (by omega)
  induction energy generalizing s lookahead promised with
  | zero =>
      rw [Nat.succ_mul]
      exact h.isSome_run_of_moved hGenerated hProper hRange hPoised (hEnds job s lookahead h _) .none hEnough
        fun _ _ _ _ _ hLess => by omega
  | succ energy ih =>
      rw [Nat.succ_mul]
      refine h.isSome_run_of_moved hGenerated hProper hRange hPoised (hEnds job s lookahead h _) .none hEnough
        fun next r promised' hNext hAfter hLess hLow => ?_
      rw [Nat.succ_mul] at hHeight
      refine ih hNext hAfter (by omega) (by omega) ?_
      rw [Nat.zero_add]
      exact Nat.mul_le_mul_left _ (by omega)

/-- The steps that a parser is allowed are enough. -/
theorem Parser.le_stepLimit (p : Parser) (size nodes : Nat) {energy : Nat}
    (hAll : energy = (p.limits.maxMissing + 3) * (nodes * (size + 1) + size) + (p.limits.maxMissing + 2)) :
    (energy + 1) * ((p.language.stateCount + 2) ^ p.language.stateCount
      * (energy * (p.language.stateCount + 1) + 1)) ≤ p.stepLimit size nodes := by
  let base := size + nodes + p.limits.maxMissing + p.language.stateCount + 2
  have hBase : p.stepLimit size nodes = base ^ (p.language.stateCount + 16) := rfl
  have hEnergy : energy + 1 ≤ base ^ 4 := by
    calc energy + 1 = (p.limits.maxMissing + 3) * ((nodes + 1) * (size + 1)) := by
          rw [hAll, Nat.succ_mul nodes, ← Nat.add_assoc, Nat.mul_succ]
          rfl
      _ ≤ (base * base) * (base * base) := by
          refine Nat.mul_le_mul ?_ (Nat.mul_le_mul (by omega) (by omega))
          exact (show p.limits.maxMissing + 3 ≤ base + base by omega).trans
            (by rw [← Nat.two_mul]; exact Nat.mul_le_mul_right _ (by omega))
      _ = base ^ 4 := by rw [← Nat.pow_two, ← Nat.pow_two, ← Nat.pow_mul]
  have hHeight : energy * (p.language.stateCount + 1) + 1 ≤ base ^ 5 := by
    calc energy * (p.language.stateCount + 1) + 1
        ≤ (energy + 1) * (p.language.stateCount + 1) := by
          rw [Nat.succ_mul]
          omega
      _ ≤ base ^ 4 * base := Nat.mul_le_mul hEnergy (by omega)
      _ = base ^ 5 := (Nat.pow_succ ..).symm
  rw [hBase]
  calc (energy + 1) * ((p.language.stateCount + 2) ^ p.language.stateCount
          * (energy * (p.language.stateCount + 1) + 1))
      ≤ base ^ 4 * (base ^ p.language.stateCount * base ^ 5) :=
        Nat.mul_le_mul hEnergy (Nat.mul_le_mul (Nat.pow_le_pow_left (by omega) _) hHeight)
    _ = base ^ (p.language.stateCount + 9) := by
        rw [← Nat.pow_add, ← Nat.pow_add, show 4 + (p.language.stateCount + 5)
          = p.language.stateCount + 9 by omega]
    _ ≤ base ^ (p.language.stateCount + 16) := Nat.pow_le_pow_right (by omega) (by omega)

/-- A run from the start ends in time. -/
theorem Parser.exists_runWith (hGenerated : language.tables.Generated g m) (hProper : g.Proper)
    (hEnds : language.ReductionsEnd) (hRange : language.lexer.InRange) {p : Parser}
    (hLanguage : p.language = language) {text : ByteArray} {queue : Option ReuseQueue} {nextSerial : Nat}
    (hStart : Arises language (p.job text) ((p.job text).nextInput (ParseJob.start queue nextSerial)).2
      ((p.job text).nextInput (ParseJob.start queue nextSerial)).1) :
    ∃ tree, p.runWith text queue nextSerial = some tree := by
  obtain ⟨energy, hAll⟩ : ∃ energy, energy
      = (p.limits.maxMissing + 3) * (ParseJob.queued queue * (text.size + 1) + text.size)
        + (p.limits.maxMissing + 2) :=
    ⟨_, rfl⟩
  subst hLanguage
  have hEnergy : (p.job text).energy none _ ≤ energy :=
    hAll ▸ @ParseJob.energy_start (p.job text) hRange queue nextSerial
  have hStates : ((p.job text).nextInput (ParseJob.start queue nextSerial)).2.stack.states = [] :=
    (@ParseJob.meets_nextInput (p.job text) (ParseJob.start queue nextSerial) (by simp [ParseJob.start])
      (by simp [ParseJob.start])).states
  have hRun := hStart.isSome_run hGenerated hProper hEnds hRange
    (ParseJob.poised_start queue nextSerial) hEnergy (by rw [hStates, List.length_nil, Nat.zero_add])
  have hEnough := ParseJob.isSome_run_mono hRun (p.le_stepLimit text.size (ParseJob.queued queue) hAll)
  obtain ⟨done, hDone⟩ := Option.isSome_iff_exists.mp hEnough
  have hSteps : p.stepsFor text queue = p.stepLimit text.size (ParseJob.queued queue) := by
    cases queue <;> rfl
  rw [← hSteps] at hDone
  have hMade : (p.job text).parseWithin (p.stepsFor text queue) queue nextSerial
      = some (done.2.toRoot (p.job text).tables (p.job text).text.size done.1) := by
    rw [ParseJob.parseWithin]
    exact congrArg (Option.map _) hDone
  rw [Parser.runWith_eq, hMade]
  exact ⟨_, rfl⟩

/-- Reductions of a grounded grammar end wherever a parse comes to. -/
theorem Language.reductionsEnd_of_grounded (hFaithful : language.tables.Faithful g m)
    (hProper : g.Proper) (hGrounded : g.Grounded) : language.ReductionsEnd := by
  intro job s lookahead h terminal
  rw [ParseStack.states_eq]
  exact hFaithful.ends_of_grounded hProper hGrounded terminal
    (h.known hFaithful.toGenerated hProper).legal.aligned.path

/-- Every parse and every reparse of a language comes to an end, if its reductions do and its tokens end
where offsets are. -/
theorem parsing_finishes (hBuilt : language.tables.Built) (hEnds : language.ReductionsEnd)
    (hRange : language.lexer.InRange) : language.Finishes := by
  obtain ⟨g, m, hGenerated, hProper⟩ := hBuilt.generated
  refine ⟨?_, ?_, ?_⟩
  · intro p hLanguage text
    exact Parser.exists_runWith hGenerated hProper hEnds hRange hLanguage (.parse p hLanguage text _)
  · intro p hLanguage edited accepted hGrown text hLength
    obtain ⟨tree, hRun⟩ := Parser.exists_runWith hGenerated hProper hEnds hRange hLanguage
      (.reparse p hLanguage text hGrown (max p.nextSerial edited.nextSerial))
    exact ⟨tree, Parser.reparse_eq_of_run (hGrown.language_eq.trans hLanguage.symm) hLength hRun⟩
  · intro job s lookahead reached hArises hLeaf hRecovers
    exact hArises.recovers hGenerated hProper hEnds hLeaf hRecovers

/-- Where no symbol derives itself, be it behind something empty, reductions end on every stack that
faithful tables lead to, and so they do in every parse. -/
theorem reductions_end_of_grounded {b : GrammarDraft} {t : Tables} (hDescribed : b.Described)
    (hBuild : b.build = .ok g) (hTables : Tables.ofGrammar g = .ok t) (hFits : g.rules.size ≤ ruleBound)
    (hGrounded : g.Grounded) :
    (∀ states, t.Reached states → ∀ terminal, t.Ends terminal states)
      ∧ ∀ language : Language, language.tables = t → language.ReductionsEnd := by
  have hProper := hDescribed.proper hBuild
  obtain ⟨m, hFaithful⟩ := Tables.faithful_ofGrammar hTables hFits
  refine ⟨fun states hReached terminal => ?_, fun language hSame => ?_⟩
  · obtain ⟨steps, hPath, rfl⟩ := hFaithful.exists_path hProper hReached
    exact hFaithful.ends_of_grounded hProper hGrounded terminal hPath
  · subst hSame
    exact Language.reductionsEnd_of_grounded hFaithful hProper hGrounded

end

namespace Labels

/-- Letters are above labels, entries above lists of them, and these above files. -/
def rank (symbol : SymbolId) : Nat := [0, 0, 3, 0, 0, 0, 0, 1, 2, 2].getD symbol 0

theorem grounded : grammar.Grounded := by
  have hSome : ∀ info ∈ grammar.rules, info.symbols ≠ [] := by decide +kernel
  have hRank : ∀ info ∈ grammar.rules, info.symbols.length = 1 →
      ∀ only ∈ info.symbols, rank info.lhs < rank only := by decide +kernel
  exact Grammar.grounded_of_rank (fun _ _ _ _ other hOther _ => hSome other hOther) hRank

theorem reductionsEnd : language.ReductionsEnd := by
  obtain ⟨b, hDescribed, hBuild⟩ := plain_grammar.described
  obtain ⟨m, hFaithful⟩ := Tables.faithful_ofGrammar ofGrammar_eq_ok fits_rules
  exact Language.reductionsEnd_of_grounded hFaithful (hDescribed.proper hBuild) grounded

/-- Nothing is reduced forever in the language of labels. -/
theorem reductions_end_of_labels : grammar.Grounded
    ∧ (∀ states, tables.Reached states → ∀ terminal, tables.Ends terminal states)
    ∧ language.ReductionsEnd := by
  obtain ⟨b, hDescribed, hBuild⟩ := plain_grammar.described
  obtain ⟨hReached, hLanguages⟩ :=
    reductions_end_of_grounded hDescribed hBuild ofGrammar_eq_ok fits_rules grounded
  exact ⟨grounded, hReached, hLanguages language rfl⟩

/-- A parser of labels that must neither insert tokens nor pile up any parses whatever it is given. -/
theorem finishes_without_limits :
    language.tables.Built ∧ language.ReductionsEnd ∧ language.lexer.InRange ∧ language.Finishes
      ∧ ∃ tree, ({ parser with limits := ⟨0, 0, 0, true⟩ } : Parser).parse "5a:".toUTF8 = some tree := by
  have hFinishes := parsing_finishes built_tables reductionsEnd inRange_lexer
  exact ⟨built_tables, reductionsEnd, inRange_lexer, hFinishes, hFinishes.parse _ rfl _⟩

end Labels

namespace Letters

/-- The symbols `t` and `u` stand for one another. -/
def cyclic : Grammar :=
  grammar 1 [⟨"s", ⟨false, true, false, false⟩⟩, ⟨"t", ⟨false, true, false, false⟩⟩,
    ⟨"u", ⟨false, true, false, false⟩⟩] #[
    ⟨⟨5, [.plain 4]⟩, none⟩,
    ⟨⟨3, [.plain 4]⟩, none⟩,
    ⟨⟨4, [.plain 5]⟩, none⟩,
    ⟨⟨4, [.plain 2]⟩, none⟩]

def cyclicTables : Tables :=
  tables cyclic 5 [
    [.error, .error, .shift 1],
    [.reduce 3, .error, .error],
    [.accept, .error, .error],
    [.reduce 0, .error, .error],
    [.reduce 2, .error, .error]] [
    [some 2, some 3, some 4], [none, none, none], [none, none, none], [none, none, none],
    [none, none, none]]

theorem built_cyclic : cyclicTables.Built := by
  have hPlain : GrammarDraft.Plain cyclic (letters 1)
      [⟨"s", ⟨false, true, false, false⟩⟩, ⟨"t", ⟨false, true, false, false⟩⟩,
        ⟨"u", ⟨false, true, false, false⟩⟩] := {
    symbols := rfl
    terminalEntries := by decide
    nonterminalEntries := by decide +kernel
    names := by decide +kernel
    room := by decide
    fields := by decide
    rules := by decide +kernel
    terminalCount := rfl
    start := by decide
    productive := by decide +kernel
    precedence := rfl }
  exact built_tables hPlain (by decide +kernel)

/-- Behind `a`, the one symbol is reduced to the other and back, rather than to the start symbol. -/
theorem not_ends_of_cyclic : cyclicTables.Built
    ∧ ∃ states, cyclicTables.Reached states ∧ ¬cyclicTables.Ends endSymbol states := by
  have hReached : cyclicTables.Reached [3] := by
    have hShift : cyclicTables.action 0 2 = .shift 1 := by decide +kernel
    have hStep : cyclicTables.reduction? endSymbol [1] = some [3] := by decide +kernel
    exact .reduce (.shift .nil hShift) hStep
  refine ⟨built_cyclic, [3], hReached, fun hEnds => hEnds.not_after_self ?_⟩
  have hOther : cyclicTables.After endSymbol [4] [3] := by
    unfold Tables.After
    decide +kernel
  have hBack : cyclicTables.After endSymbol [3] [4] := by
    unfold Tables.After
    decide +kernel
  exact .head hBack (.single hOther)

end Letters
end IncrementalParsing
