import IncrementalParsing.Proofs.SysY.Sentences
import IncrementalParsing.Proofs.SysY.Shapes
import IncrementalParsing.Proofs.Tree.Identities

/-! How operators and if statements nest in trees without damage. What stands on the stack of such a
parse leaves to its neighbours what they bind, and every shift and every reduction keeps this so. -/
namespace IncrementalParsing
open Subtree

namespace SysY

/-- An operator on top of its left operand binds tighter than what is in front of the operand. -/
def Tightens (symbols : List SymbolId) : Prop :=
  ∀ operator level below, (operator, level) ∈ binaryOperators →
    symbols = operator.kind :: Nonterminal.expression.id :: below → bound below < level

/-- Subtrees on the stack, the last one first, leave to each other and to `next` what these bind. -/
def Ranked (t : Tables) : List Subtree → (next : SymbolId) → Prop
  | [], _ => True
  | u :: us, next =>
      Stands t u (us.map kind) next ∧ Tightens (u.kind :: us.map kind) ∧ Ranked t us u.kind

section Ranked
variable {t : Tables} {us top rest : List Subtree} {next : SymbolId}

theorem Ranked.before (h : Ranked t us next) {other : SymbolId} (hOperator : operatorLevel? other = none)
    (hOther : other ≠ Terminal.elseKeyword.kind) : Ranked t us other := by
  cases us with
  | nil => trivial
  | cons u us => exact ⟨h.1.before hOperator hOther, h.2⟩

theorem Ranked.of_append (h : Ranked t (top ++ rest) next) : ∃ other, Ranked t rest other := by
  induction top generalizing next with
  | nil => exact ⟨next, h⟩
  | cons u us ih => exact ih h.2.2

theorem Ranked.sound (h : Ranked t us next) : ∀ u ∈ us, All Shaped u ∧ Wraps t u := by
  induction us generalizing next with
  | nil => simp
  | cons u us ih =>
      intro v hMem
      rcases List.mem_cons.mp hMem with rfl | hMem
      · exact ⟨h.1.shaped, h.1.wraps⟩
      · exact ih h.2.2 v hMem

/-- Where each symbol shows or wraps something that does, taking hidden nodes apart leaves a node for
each slot. -/
theorem unwrapped_taken (hWrappers : ∀ kind ∈ wrappers, t.isHidden kind = true) (slots : List Slot)
    (h : ∀ u ∈ us, Wraps t u ∧ (t.isHidden u.kind = true → u.kind ∈ wrappers)) :
    unwrapped (t.isHidden ·.kind) (slots.zipWith (fun slot u => u.withField slot.field) us)
      = slots.zipWith (fun slot u => (core u).withField slot.field) us := by
  induction us generalizing slots with
  | nil => simp
  | cons u us ih =>
      cases slots with
      | nil => simp
      | cons slot slots =>
          have hRest := ih slots fun v hMem => h v (by simp [hMem])
          obtain ⟨hWraps, hShown⟩ := h u (by simp)
          rw [List.zipWith_cons_cons, List.zipWith_cons_cons]
          by_cases hWrapper : u.kind ∈ wrappers
          · obtain ⟨c, hChildren, hField, hChild⟩ := hWraps hWrapper
            rw [unwrapped_of_opens (by simpa using hWrappers _ hWrapper), hRest, children_withField, hChildren,
              core, if_pos hWrapper, hChildren, List.map_singleton,
              unwrapped_of_not_opens (by simpa using hChild), unwrapped_nil, orField, hField,
              field_withField]
            rfl
          · have hOpen : t.isHidden u.kind = false := Bool.eq_false_iff.mpr fun h => hWrapper (hShown h)
            rw [unwrapped_of_not_opens (by simpa using hOpen), hRest, core_eq_self hWrapper]

end Ranked

/-- A node made by a rule from the subtrees it takes. Hidden ones are taken apart unless the node is
hidden itself. -/
structure Makes (t : Tables) (info : Production) (taken : List Subtree) (node : Subtree) : Prop where
  lhs : node.kind = info.lhs
  parts : node.children =
    let children := info.rhs.zipWith (fun slot u => u.withField slot.field) taken
    if t.isHidden info.lhs then children else unwrapped (t.isHidden ·.kind) children

theorem Makes.all_shaped {t : Tables} {info : Rule} {us : List Subtree} {node : Subtree}
    (hMakes : Makes t info.toProduction us node) (hShaped : ∀ u ∈ us, All Shaped u) :
    ∀ c ∈ node.children, All Shaped c := by
  have hTaken : ∀ c ∈ info.rhs.zipWith (fun slot u => u.withField slot.field) us, All Shaped c := by
    intro c hMem
    obtain ⟨i, hLess, rfl⟩ := List.getElem_of_mem hMem
    rw [List.getElem_zipWith]
    exact (hShaped _ (List.getElem_mem _)).withField Shaped.withField _
  rw [hMakes.parts]
  dsimp only
  split
  · exact hTaken
  · exact forall_all_unwrapped Shaped.withField _ hTaken

section Reductions
variable {m : Automaton} {t : Tables} (h : Tables.Faithful theGrammar m t)
include h

theorem isHidden_eq (symbol : SymbolId) :
    t.isHidden symbol = (symbols[symbol]?.elim SymbolTraits.none (·.traits)).hidden := by
  rw [Tables.isHidden, symbolTraits_eq h.toGenerated]

theorem isHidden_wrappers : ∀ kind ∈ wrappers, t.isHidden kind = true := by
  simp only [isHidden_eq h]
  exact hidden_wrappers

/-- The children of a node that shows stand for the slots of its rule, if none of them is a list. -/
theorem Makes.children_of_shown {info : Rule} {taken : List Subtree} {node : Subtree}
    (hMakes : Makes t info.toProduction taken node) (hMem : info ∈ theGrammar.rules)
    (hLhs : info.lhs ∈ nesters)
    (hKinds : taken.map kind = info.symbols) (hWraps : ∀ u ∈ taken, Wraps t u) :
    node.children = info.rhs.zipWith (fun slot u => (core u).withField slot.field) taken := by
  obtain ⟨hOpen, hSymbols⟩ := shown_nesters info hMem hLhs
  rw [← isHidden_eq h] at hOpen
  rw [hMakes.parts]
  simp only [hOpen, Bool.false_eq_true, if_false]
  refine unwrapped_taken (isHidden_wrappers h) info.rhs fun u hTaken => ⟨hWraps u hTaken, fun hHidden => ?_⟩
  rw [isHidden_eq h] at hHidden
  exact hSymbols _ (hKinds ▸ List.mem_map_of_mem hTaken) hHidden

/-- What a reduction makes leaves to its neighbours what they bind, if the subtrees it takes did. -/
theorem stands_reduced {above below : List (SymbolId × StateId)} {us vs : List Subtree}
    (hPath : m.Path (above ++ below)) (hAbove : above.map (·.1) = us.map kind)
    (hBelow : below.map (·.1) = vs.map kind) {rule : RuleId} {info : Rule}
    (hRule : theGrammar.rules[rule]? = some info) (hSymbols : (us.map kind).reverse = info.symbols)
    {token : SymbolId} (hReduce : t.action (Automaton.endOf (above ++ below)) token = .reduce rule)
    (hRanked : Ranked t (us ++ vs) token) {node : Subtree}
    (hMakes : Makes t info.toProduction us.reverse node) : Stands t node (vs.map kind) token := by
  have hMem := Array.mem_of_getElem? hRule
  have hSound : ∀ u ∈ us.reverse, All Shaped u ∧ Wraps t u := fun u hTaken =>
    hRanked.sound u (List.mem_append_left _ (List.mem_reverse.mp hTaken))
  have hAll := hMakes.all_shaped fun u hTaken => (hSound u hTaken).1
  have hChildren := fun hLhs => hMakes.children_of_shown h hMem hLhs
    (by rw [List.map_reverse, hSymbols]) fun u hTaken => (hSound u hTaken).2
  have hSame : (above.map (·.1)).reverse = info.symbols := by rw [hAbove, hSymbols]
  rw [List.reverse_eq_iff] at hSymbols
  cases form_of_mem hMem with
  | @binary operator level hOperator =>
      have hKinds : us.map kind
        = [Nonterminal.expression.id, operator.kind, Nonterminal.expression.id] := hSymbols
      simp only [List.map_eq_cons_iff, List.map_eq_nil_iff] at hKinds
      obtain ⟨r, _, rfl, hr, o, _, rfl, ho, l, _, rfl, hl, rfl⟩ := hKinds
      obtain ⟨hRight, -, -, hTightens, hLeft, -⟩ := hRanked
      refine stands_binary hAll hMakes.lhs
        (hChildren (show Nonterminal.binaryExpression.id ∈ nesters by decide)) hOperator ho
        (ho ▸ hLeft) ?_ ?_ ?_
      · simpa [ho, hl] using hRight
      · exact hTightens operator level _ hOperator (by simp [ho, hl])
      · rintro limit hLimit
        obtain ⟨other, hOther, rfl⟩ := exists_operator hLimit
        exact level_le_of_reduce h hPath hRule hSame rfl rfl hOther hReduce
  | @unary operator hOperator =>
      have hKinds : us.map kind = [Nonterminal.expression.id, operator.kind] := hSymbols
      simp only [List.map_eq_cons_iff, List.map_eq_nil_iff] at hKinds
      obtain ⟨a, _, rfl, -, o, _, rfl, ho, rfl⟩ := hKinds
      refine stands_unary hAll hMakes.lhs
        (hChildren (show Nonterminal.unaryExpression.id ∈ nesters by decide)) hOperator ?_ ?_
      · simpa [ho] using hRanked.1
      · rw [← hBelow]
        exact ne_expression_of_unary h hPath hRule hSame rfl hReduce
  | bare =>
      have hKinds : us.map kind = ifSymbols.reverse := hSymbols
      simp only [ifSymbols, List.reverse_cons, List.reverse_nil, List.nil_append, List.cons_append,
        List.map_eq_cons_iff, List.map_eq_nil_iff] at hKinds
      obtain ⟨s, _, rfl, -, p, _, rfl, -, c, _, rfl, -, q, _, rfl, -, i, _, rfl, -, rfl⟩ := hKinds
      refine stands_bare hAll hMakes.lhs ?_ ?_
      · rw [part?, hChildren (show Nonterminal.ifStatement.id ∈ nesters by decide)]
        simp [plainRule, ifHead, as, sub, tok, Slot.plain, Field.id_inj]
      · rintro rfl
        exact not_reduced_at_alternative h hPath hRule hSame rfl rfl rfl hReduce
  | alternative =>
      have hKinds : us.map kind = Nonterminal.statement.id :: Terminal.elseKeyword.kind :: ifSymbols.reverse :=
        hSymbols
      simp only [ifSymbols, List.reverse_cons, List.reverse_nil, List.nil_append, List.cons_append,
        List.map_eq_cons_iff, List.map_eq_nil_iff] at hKinds
      obtain ⟨a, _, rfl, -, e, _, rfl, he, s, _, rfl, -, p, _, rfl, -, c, _, rfl, -, q, _, rfl, -, i, _, rfl, -,
        rfl⟩ := hKinds
      obtain ⟨hLast, -, -, -, hFirst, -⟩ := hRanked
      have hParts := hChildren (show Nonterminal.ifStatement.id ∈ nesters by decide)
      have hEnd : node.children = (ifHead ++ [tok .elseKeyword]).zipWith
          (fun slot u => (core u).withField slot.field) [i, q, c, p, s, e]
            ++ [(core a).withField Field.alternative.id] := hParts
      refine stands_alternative hAll hMakes.lhs hEnd ?_ ?_ (he ▸ hFirst) hLast
      · rw [part?, hParts]
        simp [plainRule, ifHead, as, sub, tok, Slot.plain, Field.id_inj]
      · rw [part?, hParts]
        simp [plainRule, ifHead, as, sub, tok, Slot.plain, Field.id_inj]
  | loop =>
      have hKinds : us.map kind = [Nonterminal.statement.id, Terminal.rightParen.kind,
        Nonterminal.expression.id, Terminal.leftParen.kind, Terminal.whileKeyword.kind] := hSymbols
      simp only [List.map_eq_cons_iff, List.map_eq_nil_iff] at hKinds
      obtain ⟨s, _, rfl, -, p, _, rfl, -, c, _, rfl, -, q, _, rfl, -, w, _, rfl, -, rfl⟩ := hKinds
      have hEnd : node.children = [tok .whileKeyword, tok .leftParen, as .condition (sub .expression),
          tok .rightParen].zipWith (fun slot u => (core u).withField slot.field) [w, q, c, p]
            ++ [(core s).withField Field.body.id] :=
        hChildren (show Nonterminal.whileStatement.id ∈ nesters by decide)
      exact stands_loop hAll hMakes.lhs hEnd hRanked.1
  | @wrapper _ only hLhs hForm hShown =>
      have hKinds : us.map kind = [only] := by rw [hSymbols, Production.symbols, hForm]; rfl
      obtain ⟨c, rfl, hKind⟩ := List.map_eq_singleton_iff.mp hKinds
      rw [← isHidden_eq h, ← hKind] at hShown
      refine stands_wrapper hAll (hMakes.lhs ▸ hLhs) ?_ hShown ?_ hRanked.1
      · rw [hMakes.parts, hForm, if_pos (isHidden_wrappers h _ hLhs)]
        rfl
      · intro hWrapper
        rw [isHidden_wrappers h _ hWrapper] at hShown
        simp at hShown
  | other hLhs => exact stands_of_kind (hMakes.lhs ▸ hLhs) hAll

end Reductions

section Run
variable {m : Automaton} {t : Tables} (h : Tables.Faithful theGrammar m t)
include h

/-- A token that is shifted leaves to what is in front of it what this binds. -/
theorem Ranked.shift {us : List Subtree} {steps : List (SymbolId × StateId)} {u : Subtree}
    {next : StateId} (hRanked : Ranked t us u.kind) (hPath : m.Path steps)
    (hSteps : steps.map (·.1) = us.map kind)
    (hShift : t.action (Automaton.endOf steps) u.kind = .shift next) (hLeaf : u.isLeaf = true)
    (token : SymbolId) : Ranked t (u :: us) token := by
  have hTerminal : u.kind < Terminal.all.length := by
    by_contra hLarge
    have hOther : theGrammar.isTerminal u.kind = false := decide_eq_false hLarge
    rw [Tables.action, h.isTerminal_iff, hOther] at hShift
    simp at hShift
  have hShapely : ∀ kind ∈ shapely, Terminal.all.length ≤ kind := by decide
  refine ⟨stands_of_kind (fun hMem => Nat.not_le.mpr hTerminal (hShapely _ hMem))
    (by simp [children_of_isLeaf hLeaf]), ?_, hRanked⟩
  rintro operator level below hOperator hSame
  obtain ⟨hKind, hBelow⟩ := List.cons.inj hSame
  rw [← hSteps] at hBelow
  obtain ⟨⟨_, state⟩, rest, rfl, rfl, rfl⟩ := List.map_eq_cons_iff.mp hBelow
  exact bound_lt_of_shift h hPath hOperator (hKind ▸ hShift)

/-- The node of a reduction leaves to its neighbours what these bind. -/
theorem Ranked.reduce {us vs : List Subtree} {above below : List (SymbolId × StateId)}
    (hPath : m.Path (above ++ below)) (hAbove : above.map (·.1) = us.map kind)
    (hBelow : below.map (·.1) = vs.map kind) {rule : RuleId} {info : Rule}
    (hRule : theGrammar.rules[rule]? = some info) (hSymbols : (us.map kind).reverse = info.symbols)
    {token : SymbolId} (hReduce : t.action (Automaton.endOf (above ++ below)) token = .reduce rule)
    (hRanked : Ranked t (us ++ vs) token) {node : Subtree}
    (hMakes : Makes t info.toProduction us.reverse node) : Ranked t (node :: vs) token := by
  have hLhs : ∀ operator level, (operator, level) ∈ binaryOperators → node.kind ≠ operator.kind := by
    have hOperators : ∀ operator ∈ binaryOperators, operator.1.kind < Terminal.all.length := by decide
    rintro operator level hOperator hSame
    have hLarge := le_lhs info (Array.mem_of_getElem? hRule)
    rw [← hMakes.lhs, hSame] at hLarge
    exact Nat.not_lt.mpr hLarge (hOperators _ hOperator)
  refine ⟨stands_reduced h hPath hAbove hBelow hRule hSymbols hReduce hRanked hMakes, ?_, ?_⟩
  · rintro operator level _ hOperator hSame
    exact absurd (List.cons.inj hSame).1 (hLhs operator level hOperator)
  · obtain ⟨other, hRest⟩ := hRanked.of_append
    refine hRest.before ?_ ?_
    · cases hLevel : operatorLevel? node.kind with
      | none => rfl
      | some level =>
          obtain ⟨operator, hOperator, hKind⟩ := exists_operator hLevel
          exact absurd hKind.symm (hLhs operator level hOperator)
    · rw [hMakes.lhs]
      exact Nat.ne_of_gt (Nat.lt_of_lt_of_le (by decide) (le_lhs info (Array.mem_of_getElem? hRule)))

/-- What shifts and reductions make leaves to each other what operators and if statements bind. -/
theorem ranked_of_steady {s : ParseStack} {token : SymbolId} (hSteady : ParseStack.Steady t s token) :
    Ranked t (s.entries.map (·.subtree)) token := by
  have hKinds : ∀ es : List StackEntry,
      (es.map fun e => (e.subtree.kind, e.state)).map (·.1) = (es.map (·.subtree)).map kind := by
    simp
  induction hSteady with
  | start nextSerial token => exact trivial
  | read _ nextSerial ih => exact ih
  | @shift s u next hSteady hShift hLeaf hWhole token ih =>
      obtain ⟨hClean, hLegal⟩ := hSteady.clean_legal h proper_theGrammar
      rw [ParseStack.push, hClean.closeError]
      rw [ParseStack.state, ← hLegal.aligned.endOf_steps] at hShift
      refine ih.shift h hLegal.aligned.path ?_ hShift hLeaf token
      rw [hClean.steps_eq, hKinds]
  | @reduce s token rule info hSteady hReduce hRule lookaheadStop ih =>
      obtain ⟨hClean, hLegal⟩ := hSteady.clean_legal h proper_theGrammar
      obtain ⟨source, hSource, rfl⟩ := h.rule_of_rules hRule
      obtain ⟨top, rest, next, node, hEntries, hSymbols, -, hAfter, hKind, hChildren⟩ :=
        hClean.exists_reduced h proper_theGrammar ParseStack.lasting_true hLegal hReduce hRule lookaheadStop
      have hPath := hLegal.aligned.path
      rw [ParseStack.state, ← hLegal.aligned.endOf_steps] at hReduce
      rw [hClean.steps_eq, hEntries, List.map_append] at hPath hReduce
      rw [hAfter]
      rw [hEntries, List.map_append] at ih
      refine Ranked.reduce h hPath (hKinds top) (hKinds rest) hSource ?_ hReduce ih ⟨hKind, ?_⟩
      · rw [← hSymbols, List.map_map]
        rfl
      · rw [hChildren, ← List.map_reverse, List.zipWith_map_right]

/-- The tree over an accepted stack is shaped throughout. -/
theorem shaped_toRoot {s : ParseStack} {token : SymbolId} (hSteady : ParseStack.Steady t s token)
    (length : Nat) : All Shaped (s.toRoot t length true).1 := by
  have hClean := (hSteady.clean_legal h proper_theGrammar).1
  have hSound := (ranked_of_steady h hSteady).sound
  have hKind : (s.toRoot t length true).1.kind ∉ shapely := by
    change t.start ∉ shapely
    rw [h.start]
    decide
  refine all_iff.mpr ⟨shaped_of_kind hKind, ?_⟩
  rw [ParseStack.children_toRoot, hClean.closeError]
  refine forall_all_unwrapped Shaped.withField _ fun u hMem => ?_
  obtain ⟨e, hEntry, hPiece⟩ := List.mem_flatMap.mp hMem
  have hNodes := (hSound e.subtree (List.mem_map_of_mem (List.mem_reverse.mp hEntry))).1
  split at hPiece
  · exact hNodes.child hPiece
  · obtain rfl := List.mem_singleton.mp hPiece
    exact hNodes.withField Shaped.withField _

end Run

/-- A text whose tokens are valid and make up a source file has a tree without damage. -/
theorem exists_undamaged {language : Language} (hLanguage : SysY.language = .ok language) {text : ByteArray}
    (hSize : text.size ≤ ({} : ParserLimits).maxHeight)
    (hValid : ∀ token ∈ tokenize text, token.terminal.isInvalid = false)
    (hSentence : theGrammar.StandsFor [Nonterminal.sourceFile.id]
      ((tokenize text).toList.map (·.terminal.kind))) :
    ∃ tree, (Parser.ofLanguage language).parse text = some tree ∧ tree.hasError = false := by
  obtain ⟨hTables, hLexer⟩ := language_eq_ok hLanguage
  obtain ⟨m, hFaithful⟩ := Tables.faithful_ofGrammar hTables fits_theGrammar
  have hEnds := Language.reductionsEnd_of_grounded hFaithful proper_theGrammar grounded_theGrammar
  have hRange : (Parser.ofLanguage language).language.lexer.InRange := by
    change language.lexer.InRange
    exact hLexer ▸ inRange_lexer
  obtain ⟨tree, hParse⟩ := Parser.exists_runWith hFaithful.toGenerated proper_theGrammar hEnds hRange rfl
    (.parse (Parser.ofLanguage language) rfl text (Parser.ofLanguage language).nextSerial)
  obtain ⟨hEmpty, hAbsent⟩ := start_theGrammar
  rw [valid_tokenize hLanguage] at hValid
  rw [map_kind_tokenize hLanguage] at hSentence
  exact ⟨tree, hParse, Parser.undamaged_of_sentence hFaithful proper_theGrammar
    (fun _ _ hPath hContinues => guided hFaithful hPath hContinues) hRange hEmpty hAbsent hSize hParse hValid
    hSentence⟩

end SysY

/-- In a tree without damage, operators bind by their level and from the left, a unary operator binds
tighter than any binary one, and an alternative belongs to the nearest if. The stack may be limited to
any height, as a tree without damage was never cut off. -/
theorem SysY.shaped_of_undamaged {language : Language} (hLanguage : SysY.language = .ok language)
    (p : Parser) (hParser : p.language = language) {text : ByteArray} {tree : Tree}
    (hParse : p.parse text = some tree) (hWhole : tree.hasError = false) :
    All SysY.Shaped tree.root := by
  subst hParser
  obtain ⟨hTables, hLexer⟩ := language_eq_ok hLanguage
  obtain ⟨m, hFaithful⟩ := Tables.faithful_ofGrammar hTables fits_theGrammar
  obtain ⟨hEmpty, hAbsent⟩ := start_theGrammar
  have hRange : p.language.lexer.InRange := hLexer ▸ inRange_lexer
  obtain ⟨stack, token, hSteady, -, hRoot⟩ := Parser.steady_of_undamaged hFaithful proper_theGrammar
    (fun _ _ hPath hContinues => guided hFaithful hPath hContinues) hRange hEmpty hAbsent
    (fun _ => of_isErrorToken hTables)
    (fun text position token hNext => by
      rw [hLexer] at hNext
      obtain ⟨t, hKind, hReal⟩ := exists_kind_of_nextToken hNext
      rw [hKind, hFaithful.isTerminal_iff]
      exact ⟨isTerminal_kind t, Nat.ne_of_gt (Nat.lt_trans Nat.one_pos hReal)⟩) hParse hWhole
  rw [hRoot]
  exact shaped_toRoot hFaithful hSteady text.size

namespace SysY

/-- The product in a sum is told apart from the sum of a product. -/
theorem shaped_sum : ∃ language tree, SysY.language = .ok language
    ∧ (Parser.ofLanguage language).parse "int a=1+2*3;".toUTF8 = some tree ∧ tree.hasError = false
    ∧ All Shaped tree.root := by
  obtain ⟨language, hLanguage⟩ := exists_language
  have hKinds : (tokenize "int a=1+2*3;".toUTF8).toList.map (·.terminal.kind)
      = [.intKeyword, .identifier, .assign, .decimalLiteral, .plus, .decimalLiteral, .star, .decimalLiteral,
        .semicolon].map Terminal.kind := by
    decide +kernel
  obtain ⟨tree, hParse, hWhole⟩ := exists_undamaged hLanguage
    (show "int a=1+2*3;".toUTF8.size ≤ ({} : ParserLimits).maxHeight by decide +kernel)
    (by decide +kernel) (hKinds ▸ standsFor_sum)
  exact ⟨language, tree, hLanguage, hParse, hWhole,
    shaped_of_undamaged hLanguage (Parser.ofLanguage language) rfl hParse hWhole⟩

end SysY
end IncrementalParsing
