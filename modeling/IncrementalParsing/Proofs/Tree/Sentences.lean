import IncrementalParsing.Proofs.Grammar.Awaiting
import IncrementalParsing.Proofs.Tree.Reports
import IncrementalParsing.Proofs.Tree.Tokens

/-! A tree without damage is the tree of a sentence: every node in it stands for the tokens below it,
because it follows a rule and nothing has been inserted or skipped. -/
namespace IncrementalParsing
open Subtree

/-- Symbols that have all symbols of rules, and all symbols of some slots, have the parts that the slots
are flattened to. -/
theorem Flattens.forall_mem {t : Tables} {S : SymbolId → Prop}
    (hRules : ∀ rule ∈ t.rules, ∀ slot ∈ rule.rhs, S slot.symbol) {slots : List Slot}
    {outer : Option FieldId} {found : Outline} (h : Flattens t slots outer found)
    (hSlots : ∀ slot ∈ slots, S slot.symbol) : ∀ part ∈ found, S part.1 := by
  induction h with
  | nil => simp
  | @shown slot slots outer rest _ _ ih =>
      intro part hMem
      rcases List.mem_cons.mp hMem with rfl | hMem
      · exact hSlots slot (by simp)
      · exact ih (fun other hOther => hSlots other (by simp [hOther])) part hMem
  | @hidden slot slots outer inner rest rule _ hRule _ _ _ ihInner ihRest =>
      intro part hMem
      rcases List.mem_append.mp hMem with hMem | hMem
      · exact ihInner (hRules rule hRule) part hMem
      · exact ihRest (fun other hOther => hSlots other (by simp [hOther])) part hMem

/-- What the parts of some slots stand for, the slots stand for. -/
theorem Flattens.standsFor {t : Tables} {g : Grammar}
    (hRules : ∀ rule ∈ t.rules, ∃ info ∈ g.rules, info.toProduction = rule) {slots : List Slot}
    {outer : Option FieldId} {found : Outline} (h : Flattens t slots outer found)
    {tokens : List SymbolId} (hTokens : g.StandsFor (found.map (·.1)) tokens) :
    g.StandsFor (slots.map (·.symbol)) tokens := by
  induction h generalizing tokens with
  | nil => exact hTokens
  | shown _ _ ih =>
      obtain ⟨first, rest, rfl, hFirst, hRest⟩ := hTokens.of_cons
      exact hFirst.append (ih hRest)
  | @hidden slot slots outer inner rest rule _ hRule hLhs _ _ ihInner ihRest =>
      obtain ⟨info, hMem, rfl⟩ := hRules rule hRule
      rw [List.map_append] at hTokens
      obtain ⟨_, hTokens⟩ := hTokens
      obtain ⟨first, last, _, _, hFirst, hLast, rfl, -⟩ := hTokens.of_append
      have hSlot : g.StandsFor [slot.symbol] first := hLhs ▸ .rule hMem (ihInner ⟨_, hFirst⟩)
      exact hSlot.append (ihRest ⟨_, hLast⟩)

namespace Subtree

/-- A node without children is a token with a width, if it is neither the end of the input nor damaged,
or it is an empty node of a nonterminal. -/
structure Firm (t : Tables) (u : Subtree) : Prop where
  token : u.isLeaf = true → t.isTerminal u.kind = true → u.kind ≠ endSymbol → u.hasError = false →
    0 < u.total
  empty : u.isLeaf = true → t.isTerminal u.kind = false → u.total = 0

variable {t : Tables} {u : Subtree}

theorem Firm.withField (h : Firm t u) (field : Option FieldId) : Firm t (u.withField field) where
  token := by simpa using h.token
  empty := by simpa using h.empty

/-- A token is firm if it has a width or is damaged. -/
theorem Firm.of_terminal (hTerminal : t.isTerminal u.kind = true)
    (hWide : u.kind ≠ endSymbol → u.hasError = false → 0 < u.total) : Firm t u where
  token := fun _ _ => hWide
  empty := by simp [hTerminal]

theorem Firm.of_not_isLeaf (hLeaf : u.isLeaf = false) : Firm t u where
  token := by simp [hLeaf]
  empty := by simp [hLeaf]

theorem isLeaf_branch (serial : Nat) (kind : SymbolId) (state : Option StateId) (children : List Subtree)
    (lookaheadEnd : Nat) (fragile : Bool) :
    (branch serial kind state children lookaheadEnd fragile).isLeaf = children.isEmpty := rfl

theorem firm_branch {serial : Nat} {kind : SymbolId} {state : Option StateId} {children : List Subtree}
    {lookaheadEnd : Nat} {fragile : Bool} (hKind : t.isTerminal kind = false) :
    Firm t (branch serial kind state children lookaheadEnd fragile) where
  token := fun _ hTerminal => absurd (hKind.symm.trans hTerminal) (by simp)
  empty := by
    intro hLeaf _
    rw [isLeaf_branch] at hLeaf
    rw [List.isEmpty_iff.mp hLeaf]
    rfl

end Subtree

namespace ParseJob
variable {job : ParseJob} {g : Grammar} {m : Automaton}

/-- Parsing upholds that nodes are rooted and firm. -/
theorem upheld_firm (hGenerated : job.tables.Generated g m) (hProper : g.Proper)
    (hLexer : ∀ position token, job.lexer.next job.text position = some token →
      job.tables.isTerminal token.kind = true) :
    job.Upheld g m fun u => Rooted g u ∧ Firm job.tables u := by
  have hReserved := isTerminal_reserved hGenerated hProper
  refine upheld_beside hGenerated hProper ⟨fun field u h => h.withField field, ?_⟩ ?_ ?_ ?_
  · intro serial state children hSome _
    exact .of_not_isLeaf (by simpa [isLeaf_branch] using hSome)
  · intro serial position
    refine .of_terminal (isTerminal_readAt hReserved hLexer serial position) fun hOther _ => ?_
    rcases job.readAt_cases serial position with ⟨_, _, _, _, hWide, -, hRead⟩ | ⟨_, hRead⟩
    · rw [hRead]
      exact hWide
    · rw [hRead] at hOther
      exact absurd rfl hOther
  · intro serial terminal hMem
    exact .of_terminal (isTerminal_insertable hGenerated hProper hMem)
      fun _ hError => absurd hError (by simp [inserted, hasError, info])
  · intro s rule info hRule _ lookaheadStop
    obtain ⟨source, hSource, rfl⟩ := hGenerated.rule_of_rules hRule
    refine firm_branch ?_
    rw [hGenerated.isTerminal_iff]
    exact decide_eq_false (Nat.not_lt.mpr (hProper.lhs source (Array.mem_of_getElem? hSource)).1)

end ParseJob

namespace Subtree
variable {t : Tables} {g : Grammar} {m : Automaton} {u : Subtree}

/-- What a parse makes sure of at every node: it follows a rule, its damage shows, its tokens add up,
and it is not empty where it should not be. -/
structure WellMade (t : Tables) (u : Subtree) : Prop where
  grammatical : Grammatical t u
  flagged : Flagged t u
  measured : Measured t.kinds u
  firm : Firm t u

/-- A tree that is grammatical, flagged, measured and firm is well made. -/
theorem all_wellMade (hGrammatical : All (Grammatical t) u) (hFlagged : All (Flagged t) u)
    (hMeasured : All (Measured t.kinds) u) (hFirm : All (Firm t) u) : All (WellMade t) u := by
  induction u using children_induction with
  | node u ih =>
      refine all_iff.mpr ⟨⟨hGrammatical.self, hFlagged.self, hMeasured.self, hFirm.self⟩, ?_⟩
      exact fun c hChild => ih c hChild (hGrammatical.child hChild) (hFlagged.child hChild)
        (hMeasured.child hChild) (hFirm.child hChild)

/-- Children without damage are all in the outline. -/
theorem outline_of_undamaged {ts : List Subtree} (hFlagged : ∀ c ∈ ts, Flagged t c)
    (hFilled : ∀ c ∈ ts, c.kind = errorSymbol → c.isLeaf = false)
    (hWhole : ∀ c ∈ ts, c.hasError = false) :
    (outline ts).map (·.1) = ts.map (·.kind) ∧ ∀ c ∈ ts, (c.kind, c.field) ∈ outline ts := by
  have hKinds : ts.filter (fun c => c.kind != errorSymbol) = ts := by
    refine List.filter_eq_self.mpr fun c hMem => bne_iff_ne.mpr fun hKind => ?_
    have hDamaged := (hFlagged c hMem).error hKind (hFilled c hMem hKind)
    exact absurd ((hWhole c hMem).symm.trans hDamaged) (by simp)
  rw [outline, hKinds, List.map_map]
  exact ⟨rfl, fun c hMem => List.mem_map.mpr ⟨c, hMem, rfl⟩⟩

theorem exists_of_mem_leavesAll {ts : List Subtree} {token : Token} (h : token ∈ leavesAll ts) :
    ∃ c ∈ ts, token ∈ c.leaves := by
  induction ts with
  | nil => simp at h
  | cons c ts ih =>
      rw [leavesAll_cons] at h
      rcases List.mem_append.mp h with hFirst | hRest
      · exact ⟨c, by simp, hFirst⟩
      · obtain ⟨d, hMem, hToken⟩ := ih hRest
        exact ⟨d, by simp [hMem], hToken⟩

/-- Side by side, subtrees stand for their tokens if each of them does. -/
theorem standsFor_leavesAll {ts : List Subtree}
    (h : ∀ c ∈ ts, g.StandsFor [c.kind] (c.leaves.map Token.kind)) :
    g.StandsFor (ts.map (·.kind)) ((leavesAll ts).map Token.kind) := by
  induction ts with
  | nil => exact .nil
  | cons c ts ih =>
      rw [List.map_cons, leavesAll_cons, List.map_append]
      exact (h c (by simp)).append (ih fun d hMem => h d (by simp [hMem]))

theorem exists_rule_of_generated (hGenerated : t.Generated g m) {rule : Production}
    (hRule : rule ∈ t.rules) : ∃ info ∈ g.rules, info.toProduction = rule := by
  rw [hGenerated.rules] at hRule
  exact Array.mem_map.mp hRule

theorem ne_end_of_rule (hGenerated : t.Generated g m) (hProper : g.Proper) :
    ∀ rule ∈ t.rules, ∀ slot ∈ rule.rhs, slot.symbol ≠ endSymbol := by
  intro rule hRule slot hSlot
  obtain ⟨info, hMem, rfl⟩ := exists_rule_of_generated hGenerated hRule
  exact (hProper.symbol info hMem slot.symbol (List.mem_map_of_mem hSlot)).2.1

/-- What children without damage are derived from stands for their tokens, if they stand for them. -/
theorem standsFor_of_derives (hGenerated : t.Generated g m) (hProper : g.Proper) {symbol : SymbolId}
    {ts : List Subtree} (hDerives : Derives t symbol (outline ts)) (hFlagged : ∀ c ∈ ts, Flagged t c)
    (hFilled : ∀ c ∈ ts, c.kind = errorSymbol → c.isLeaf = false)
    (hWhole : ∀ c ∈ ts, c.hasError = false)
    (hChildren : ∀ c ∈ ts, c.kind ≠ endSymbol → g.StandsFor [c.kind] (c.leaves.map Token.kind)) :
    g.StandsFor [symbol] ((leavesAll ts).map Token.kind) := by
  obtain ⟨rule, hRule, rfl, hFlattens⟩ := hDerives
  obtain ⟨hOutline, hAll⟩ := outline_of_undamaged hFlagged hFilled hWhole
  have hOther := ne_end_of_rule hGenerated hProper
  have hParts := hFlattens.forall_mem (S := (· ≠ endSymbol)) hOther (hOther rule hRule)
  have hTokens := standsFor_leavesAll fun c hMem => hChildren c hMem (hParts _ (hAll c hMem))
  rw [← hOutline] at hTokens
  obtain ⟨info, hMem, rfl⟩ := exists_rule_of_generated hGenerated hRule
  exact .rule hMem (hFlattens.standsFor (fun _ => exists_rule_of_generated hGenerated) hTokens)

/-- A node without damage stands for its tokens. -/
theorem standsFor_leaves (hGenerated : t.Generated g m) (hProper : g.Proper) (h : All (WellMade t) u)
    (hWhole : u.hasError = false) (hKind : u.kind ≠ endSymbol) :
    g.StandsFor [u.kind] (u.leaves.map Token.kind) := by
  induction u using children_induction with
  | node u ih =>
      have hSelf := h.self
      have hChildWhole : ∀ c ∈ u.children, c.hasError = false := by
        intro c hChild
        cases hDamaged : c.hasError with
        | false => rfl
        | true => exact absurd (hWhole.symm.trans (hSelf.measured.damaged c hChild hDamaged)) (by simp)
      cases hTerminal : t.isTerminal u.kind with
      | true =>
          have hLeaf : u.isLeaf = true := by
            cases hLeaf : u.isLeaf with
            | true => rfl
            | false =>
                rcases hSelf.grammatical.inner hLeaf with hError | ⟨rule, hRule, hLhs⟩
                · exact absurd (hWhole.symm.trans (hSelf.flagged.error hError hLeaf)) (by simp)
                · obtain ⟨info, hMem, rfl⟩ := exists_rule_of_generated hGenerated hRule
                  rw [← hLhs, hGenerated.isTerminal_iff] at hTerminal
                  exact absurd (of_decide_eq_true hTerminal) (Nat.not_lt.mpr (hProper.lhs info hMem).1)
          rw [leaves_of_no_children (children_of_isLeaf hLeaf),
            if_pos (hSelf.firm.token hLeaf hTerminal hKind hWhole)]
          exact .terminal (hGenerated.isTerminal_iff _ ▸ hTerminal)
      | false =>
          have hLeaves : u.leaves = leavesAll u.children := by
            by_cases hNone : u.children = []
            · have hEmpty := hSelf.firm.empty (by simp [isLeaf, hNone]) hTerminal
              rw [leaves_of_no_children hNone, hNone, hEmpty]
              rfl
            · exact leaves_of_children hNone
          have hError : u.kind ≠ errorSymbol := by
            rintro hIs
            rw [hIs, hGenerated.isTerminal_iff] at hTerminal
            exact of_decide_eq_false hTerminal (Nat.lt_of_lt_of_le Nat.one_lt_two hProper.reserved)
          have hFlagged := fun c hChild => (h.child (c := c) hChild).self.flagged
          have hFilled := hSelf.flagged.filled hError
          have hChildren : ∀ c ∈ u.children, c.kind ≠ endSymbol →
              g.StandsFor [c.kind] (c.leaves.map Token.kind) :=
            fun c hChild => ih c hChild (h.child hChild) (hChildWhole c hChild)
          rw [hLeaves]
          cases hHidden : t.isHidden u.kind with
          | false =>
              exact standsFor_of_derives hGenerated hProper (hSelf.grammatical.shown hTerminal hHidden)
                hFlagged hFilled hChildWhole hChildren
          | true =>
              obtain ⟨rule, hRule, hLhs, hOutline⟩ := hSelf.grammatical.hidden hTerminal hHidden
              obtain ⟨hAll, -⟩ := outline_of_undamaged hFlagged hFilled hChildWhole
              obtain ⟨info, hMem, rfl⟩ := exists_rule_of_generated hGenerated hRule
              have hSymbols : u.children.map (·.kind) = info.symbols := by
                rw [← hAll, hOutline, slotOutline, List.map_map]
                rfl
              rw [← hLhs]
              refine .rule hMem (hSymbols ▸ standsFor_leavesAll fun c hChild => hChildren c hChild ?_)
              refine (hProper.symbol info hMem c.kind ?_).2.1
              rw [← hSymbols]
              exact List.mem_map_of_mem hChild

end Subtree

section
variable {language : Language} {g : Grammar} {m : Automaton} {tree : Tree} {accepted : Bool}

/-- So every grown tree is firm below its root. -/
theorem Grown.firm (hGenerated : language.tables.Generated g m) (hProper : g.Proper)
    (hLexer : ∀ text position token, language.lexer.next text position = some token →
      language.tables.isTerminal token.kind = true) (h : Grown language tree accepted) :
    ∀ u ∈ tree.root.children, All (Firm language.tables) u := by
  have hUpheld : ∀ (p : Parser) (text : ByteArray), p.language = language →
      (p.job text).Upheld g m fun u => Rooted g u ∧ Firm language.tables u := by
    rintro p text rfl
    exact ParseJob.upheld_firm hGenerated hProper (hLexer text)
  obtain ⟨-, p, text, s, stack, rfl, hRests⟩ := h.rests hUpheld
  exact fun u hMem => (hRests.below (hUpheld p text rfl) u hMem).imp fun _ hNode => hNode.2

/-- A root without damage stands for the tokens below it, and none of them is invalid. -/
theorem Subtree.FlaggedRoot.sentence {t : Tables} {root : Subtree} (hGenerated : t.Generated g m)
    (hProper : g.Proper) (hFlagged : FlaggedRoot t accepted root)
    (hLawful : ParseJob.LawfulRoot t accepted root)
    (hMeasured : ∀ u ∈ root.children, All (Measured t.kinds) u)
    (hFirm : ∀ u ∈ root.children, All (Firm t) u) (hWhole : root.hasError = false) :
    g.StandsFor [g.start] ((leavesAll root.children).map Token.kind)
      ∧ ∀ token ∈ leavesAll root.children, t.kinds.invalid token.kind = false := by
  obtain ⟨hNone, hAccepted⟩ : (¬∃ c ∈ root.children, c.hasError = true) ∧ accepted = true := by
    have hCause := (not_congr hFlagged.hasError).mp (by simp [hWhole])
    simpa using hCause
  have hChildren : ∀ c ∈ root.children, c.hasError = false :=
    fun c hChild => Bool.eq_false_iff.mpr fun hDamaged => hNone ⟨c, hChild, hDamaged⟩
  have hAll : ∀ c ∈ root.children, All (WellMade t) c := fun c hChild =>
    all_wellMade (hLawful.below c hChild) (hFlagged.below c hChild) (hMeasured c hChild) (hFirm c hChild)
  refine ⟨hGenerated.start ▸ standsFor_of_derives hGenerated hProper (hLawful.derives hAccepted)
    (fun c hChild => (hAll c hChild).self.flagged) hFlagged.filled hChildren
    fun c hChild => standsFor_leaves hGenerated hProper (hAll c hChild) (hChildren c hChild), ?_⟩
  intro token hMem
  obtain ⟨c, hChild, hToken⟩ := exists_of_mem_leavesAll hMem
  exact valid_of_mem_leaves c (hMeasured c hChild) (hChildren c hChild) token hToken

/-- If the tree of a text has no damage, the tokens of the text are valid and make up a sentence. -/
theorem Parser.sentence_of_parse {p : Parser} (hFaithful : p.language.tables.Faithful g m)
    (hProper : g.Proper) (hRange : p.language.lexer.InRange)
    (hTokens : ∀ symbol, p.language.tables.isErrorToken symbol = true →
      errorSymbol < symbol ∧ p.language.tables.isTerminal symbol = true)
    (hLexer : ∀ text position token, p.language.lexer.next text position = some token →
      p.language.tables.isTerminal token.kind = true ∧ token.kind ≠ endSymbol)
    {text : ByteArray} (hParse : p.parse text = some tree) (hWhole : tree.hasError = false) :
    (∀ token ∈ p.language.tokens text, p.language.tables.kinds.invalid token.kind = false)
      ∧ g.StandsFor [g.start] ((p.language.tokens text).map Token.kind) := by
  have hGenerated := hFaithful.toGenerated
  have hTerminal := fun text position token hNext => (hLexer text position token hNext).1
  have hOrderly : (p.job text).Orderly := ParseJob.orderly_of_generated hGenerated hProper hRange
    fun position token hNext => (hLexer text position token hNext).2
  obtain ⟨made, hMade, rfl⟩ := Parser.runWith_eq_some hParse
  obtain ⟨accepted, hVerdict, hLawful⟩ := ParseJob.lawful_parseWithin
    (ParseJob.upheld_grammatical hGenerated hProper hFaithful.rules_le (hTerminal text)) (by simp) hMade
  obtain ⟨hLexes, hEnd, hMeasured⟩ := ParseJob.reading_parseWithin hOrderly (by simp) hMade
  have hGrown : Grown p.language _ accepted := .parse p rfl hParse hVerdict
  obtain ⟨hSentence, hValid⟩ := (hGrown.flaggedRoot hGenerated hProper hTokens).sentence hGenerated
    hProper hLawful hMeasured (hGrown.firm hGenerated hProper hTerminal) hWhole
  have hSame : leavesAll made.1.children = p.language.tokens text :=
    ParseJob.eq_tokensFrom (hLexes.of_same fun _ => rfl)
      (by rw [Nat.zero_add, width_leavesAll _ hMeasured]; exact hEnd)
  rw [← hSame]
  exact ⟨hValid, hSentence⟩

end
end IncrementalParsing
