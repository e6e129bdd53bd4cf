import IncrementalParsing.Proofs.Grammar.First

/-! What a sentence looks like from the stack of a parser that has read a part of it. The symbols on
the stack are the beginnings of rules that have been begun one within the other, the innermost one on
top, and the tokens that are left are what their rests stand for. -/
namespace IncrementalParsing
namespace Grammar

/-- A form stands for some tokens. -/
def StandsFor (g : Grammar) (form tokens : List SymbolId) : Prop :=
  ∃ rules, g.Yields form tokens rules

/-- Behind the symbols of a stack, the last one first, a sentence may go on with what a symbol stands
for and then with the rest. -/
inductive Awaits (g : Grammar) : (stack : List SymbolId) → (symbol : SymbolId) →
    (rest : List SymbolId) → Prop
  | start : Awaits g [] g.start []
  | within {below rest : List SymbolId} {info : Rule} {front back : List SymbolId}
      {symbol : SymbolId} {tokens : List SymbolId} (hBelow : Awaits g below info.lhs rest)
      (hMem : info ∈ g.rules) (hSymbols : info.symbols = front ++ symbol :: back)
      (hBack : g.StandsFor back tokens) : Awaits g (front.reverse ++ below) symbol (tokens ++ rest)

/-- The symbols of a stack and the tokens that are left make up a sentence. -/
def Continues (g : Grammar) : (stack rest : List SymbolId) → Prop
  | [], rest => g.StandsFor [g.start] rest
  | symbol :: below, rest => g.Awaits below symbol rest

/-- What to do next on a stack, so that it and the rest still make up a sentence. -/
inductive Wants (g : Grammar) (stack rest : List SymbolId) : Prop
  | shift (token : SymbolId) (tokens : List SymbolId) (hRest : rest = token :: tokens)
      (hTerminal : g.isTerminal token = true) (hAwaits : g.Awaits stack token tokens)
  | reduce (info : Rule) (below : List SymbolId) (hMem : info ∈ g.rules)
      (hStack : stack = info.symbols.reverse ++ below) (hAwaits : g.Awaits below info.lhs rest)
  | accept (hStack : stack = [g.start]) (hRest : rest = [])

variable {g : Grammar}

theorem StandsFor.nil : g.StandsFor [] [] := ⟨[], .nil⟩

theorem StandsFor.terminal {symbol : SymbolId} (hTerminal : g.isTerminal symbol = true) :
    g.StandsFor [symbol] [symbol] := ⟨_, .terminal hTerminal .nil⟩

theorem StandsFor.append {left right leftTokens rightTokens : List SymbolId}
    (hLeft : g.StandsFor left leftTokens) (hRight : g.StandsFor right rightTokens) :
    g.StandsFor (left ++ right) (leftTokens ++ rightTokens) := by
  obtain ⟨_, hLeft⟩ := hLeft
  obtain ⟨_, hRight⟩ := hRight
  exact ⟨_, hLeft.append hRight⟩

theorem StandsFor.of_cons {symbol : SymbolId} {form tokens : List SymbolId}
    (h : g.StandsFor (symbol :: form) tokens) : ∃ first rest, tokens = first ++ rest
      ∧ g.StandsFor [symbol] first ∧ g.StandsFor form rest := by
  obtain ⟨_, h⟩ := h
  have hSplit : [symbol] ++ form = symbol :: form := rfl
  rw [← hSplit] at h
  obtain ⟨first, rest, _, _, hFirst, hRest, hTokens, -⟩ := h.of_append
  exact ⟨first, rest, hTokens, ⟨_, hFirst⟩, ⟨_, hRest⟩⟩

theorem StandsFor.rule {info : Rule} {tokens : List SymbolId} (hMem : info ∈ g.rules)
    (hInner : g.StandsFor info.symbols tokens) : g.StandsFor [info.lhs] tokens := by
  obtain ⟨rule, hRule⟩ := Array.mem_iff_getElem?.mp hMem
  obtain ⟨_, hInner⟩ := hInner
  have hYields := Yields.rule hRule hInner .nil
  exact ⟨_, by simpa using hYields⟩

theorem StandsFor.eq_nil {tokens : List SymbolId} (h : g.StandsFor [] tokens) : tokens = [] := by
  obtain ⟨_, h⟩ := h
  cases h
  rfl

/-- A terminal stands for itself. -/
theorem StandsFor.of_terminal (hProper : g.Proper) {symbol : SymbolId} {form tokens : List SymbolId}
    (hTerminal : g.isTerminal symbol = true) (h : g.StandsFor (symbol :: form) tokens) :
    ∃ rest, tokens = symbol :: rest ∧ g.StandsFor form rest := by
  obtain ⟨_, h⟩ := h
  cases h with
  | terminal _ hRest => exact ⟨_, rfl, _, hRest⟩
  | @rule rule info _ _ _ _ _ hRule _ _ =>
      have hFirst := (hProper.lhs info (Array.mem_of_getElem? hRule)).1
      exact absurd (of_decide_eq_true hTerminal) (Nat.not_lt.mpr hFirst)

/-- The last symbol of a rule is awaited where the rule is. -/
theorem Awaits.last {below rest : List SymbolId} {info : Rule} {front : List SymbolId}
    {symbol : SymbolId} (hBelow : g.Awaits below info.lhs rest) (hMem : info ∈ g.rules)
    (hSymbols : info.symbols = front ++ [symbol]) : g.Awaits (front.reverse ++ below) symbol rest :=
  .within hBelow hMem hSymbols .nil

/-- What a symbol begins with is awaited where the symbol is. -/
theorem Awaits.first {below rest : List SymbolId} {info : Rule} {back : List SymbolId}
    {symbol : SymbolId} {tokens : List SymbolId} (hBelow : g.Awaits below info.lhs rest)
    (hMem : info ∈ g.rules) (hSymbols : info.symbols = symbol :: back)
    (hBack : g.StandsFor back tokens) : g.Awaits below symbol (tokens ++ rest) :=
  @within g below rest info [] back symbol tokens hBelow hMem hSymbols hBack

/-- A form whose first symbol is awaited goes on with a token, or with an empty rule. -/
theorem Yields.wants {form tokens : List SymbolId} {rules : List RuleId}
    (h : g.Yields form tokens rules) {symbol : SymbolId} {others stack rest : List SymbolId}
    (hForm : form = symbol :: others)
    (hAwaits : ∀ between, g.StandsFor others between → g.Awaits stack symbol (between ++ rest)) :
    g.Wants stack (tokens ++ rest) := by
  induction h generalizing symbol others rest with
  | nil => simp at hForm
  | terminal hTerminal hRest =>
      obtain ⟨rfl, rfl⟩ := List.cons.inj hForm
      exact .shift _ _ rfl hTerminal (hAwaits _ ⟨_, hRest⟩)
  | @rule rule info _ inner tokens _ _ hRule hInner hRest ih =>
      obtain ⟨rfl, rfl⟩ := List.cons.inj hForm
      have hMem := Array.mem_of_getElem? hRule
      have hHere := hAwaits _ ⟨_, hRest⟩
      rw [List.append_assoc]
      cases hSymbols : info.symbols with
      | nil =>
          rw [hSymbols] at hInner
          cases hInner
          exact .reduce info stack hMem (by simp [hSymbols]) hHere
      | cons first back => exact ih hSymbols fun between hBetween => hHere.first hMem hSymbols hBetween

/-- As long as a stack and the rest make up a sentence, there is something to do, unless all is done. -/
theorem Continues.wants {stack rest : List SymbolId} (h : g.Continues stack rest) :
    g.Wants stack rest := by
  cases stack with
  | nil =>
      obtain ⟨_, h⟩ := h
      have hStart : g.Wants [] (rest ++ []) := h.wants rfl fun between hBetween => by
        rw [hBetween.eq_nil]
        exact Awaits.start
      rwa [List.append_nil] at hStart
  | cons symbol below =>
      change g.Awaits below symbol rest at h
      cases h with
      | start => exact .accept rfl rfl
      | @within below rest info front back _ tokens hBelow hMem hSymbols hBack =>
          obtain ⟨_, hYields⟩ := hBack
          cases back with
          | nil =>
              cases hYields
              exact .reduce info below hMem (by simp [hSymbols]) hBelow
          | cons next back =>
              refine hYields.wants rfl fun between hBetween => ?_
              have hHere : info.symbols = (front ++ [symbol]) ++ next :: back := by simpa using hSymbols
              have hNext := Awaits.within hBelow hMem hHere hBetween
              simpa using hNext

/-- Sets of terminals that are known to follow the symbols of a grammar. -/
structure Following (g : Grammar) (follow : SymbolId → IdSet) : Prop where
  start : (follow g.start).contains endSymbol = true
  rule : ∀ info ∈ g.rules, ∀ front symbol back, info.symbols = front ++ symbol :: back →
    (g.firstSets.ofSequence back (follow info.lhs)).Subset (follow symbol)

/-- What is left behind a symbol begins with a terminal that follows it. -/
theorem Awaits.follow (hProper : g.Proper) {follow : SymbolId → IdSet} (hFollow : g.Following follow)
    {stack rest : List SymbolId} {symbol : SymbolId} (h : g.Awaits stack symbol rest) :
    (follow symbol).contains (rest.headD endSymbol) = true := by
  induction h with
  | start => exact hFollow.start
  | @within below rest info front back symbol tokens _ hMem hSymbols hBack ih =>
      obtain ⟨_, hBack⟩ := hBack
      have hSame : (tokens ++ rest).headD endSymbol = tokens.headD (rest.headD endSymbol) := by
        cases tokens <;> rfl
      rw [hSame]
      exact hFollow.rule info hMem front symbol back hSymbols _ (hBack.follows hProper ih)

/-- What may be awaited right behind a symbol: what stands behind it in a rule, and what that begins
with. -/
theorem Awaits.succeeds {top : SymbolId} {P : SymbolId → Prop}
    (hNext : ∀ info ∈ g.rules, ∀ front symbol back, info.symbols = front ++ top :: symbol :: back →
      P symbol)
    (hFirst : ∀ info ∈ g.rules, P info.lhs → ∀ symbol ∈ info.symbols.head?, P symbol)
    {stack below rest : List SymbolId} {symbol : SymbolId} (h : g.Awaits stack symbol rest)
    (hStack : stack = top :: below) : P symbol := by
  induction h generalizing below with
  | start => simp at hStack
  | @within below' _ info front back symbol _ _ hMem hSymbols _ ih =>
      rcases List.eq_nil_or_concat front with rfl | ⟨others, last, rfl⟩
      · exact hFirst info hMem (ih hStack) symbol (by simp [hSymbols])
      · obtain ⟨rfl, -⟩ : last = top ∧ _ := by simpa using hStack
        exact hNext info hMem others symbol back (by simpa using hSymbols)

/-- Nothing is left behind a start symbol that stands in no rule. -/
theorem Awaits.eq_nil (hAbsent : ∀ info ∈ g.rules, g.start ∉ info.symbols) {stack rest : List SymbolId}
    (h : g.Awaits stack g.start rest) : rest = [] := by
  cases h with
  | start => rfl
  | within _ hMem hSymbols _ => exact absurd (by simp [hSymbols]) (hAbsent _ hMem)

/-- Where an operator may follow, a symbol lets go of it together with what stands behind it. The
symbols are the last ones of rules of each other, or an operator of their own follows them, or nothing
that begins with this one. -/
theorem Awaits.absorb (hProper : g.Proper) {follow : SymbolId → IdSet} (hFollow : g.Following follow)
    {K : SymbolId → Prop} {operator operand : SymbolId} (hTerminal : g.isTerminal operator = true)
    (hStart : ¬K g.start)
    (hPlaces : ∀ info ∈ g.rules, ∀ front symbol back, info.symbols = front ++ symbol :: back → K symbol →
      (back = [] ∧ (K info.lhs ∨ (follow info.lhs).contains operator = false))
        ∨ (back = [operator, operand] ∧ ∀ below rest, g.Awaits below info.lhs rest →
          g.Awaits (front.reverse ++ below) symbol rest)
        ∨ ∃ first others, back = first :: others ∧ g.isTerminal first = true ∧ first ≠ operator)
    {stack rest : List SymbolId} {symbol : SymbolId} (h : g.Awaits stack symbol (operator :: rest))
    (hSymbol : K symbol) :
    ∃ inner after, rest = inner ++ after ∧ g.StandsFor [operand] inner ∧ g.Awaits stack symbol after := by
  generalize hTokens : operator :: rest = tokens at h
  induction h generalizing rest with
  | start => exact absurd hSymbol hStart
  | @within below after info front back symbol tokens hBelow hMem hSymbols hBack ih =>
      rcases hPlaces info hMem front symbol back hSymbols hSymbol with
        ⟨rfl, hLhs | hNot⟩ | ⟨rfl, hOwn⟩ | ⟨first, others, rfl, hFirst, hOther⟩
      · obtain rfl := hBack.eq_nil
        obtain ⟨inner, last, rfl, hInner, hLast⟩ := ih hLhs hTokens
        exact ⟨inner, last, rfl, hInner, hLast.last hMem hSymbols⟩
      · obtain rfl := hBack.eq_nil
        have hNext := hBelow.follow hProper hFollow
        rw [← List.nil_append after, ← hTokens, List.headD_cons, hNot] at hNext
        simp at hNext
      · obtain ⟨inner, rfl, hInner⟩ := hBack.of_terminal hProper hTerminal
        exact ⟨inner, after, (List.cons.inj hTokens).2, hInner, hOwn below after hBelow⟩
      · obtain ⟨inner, rfl, -⟩ := hBack.of_terminal hProper hFirst
        exact absurd (List.cons.inj hTokens).1.symm hOther

/-- The ways to split a form at a symbol. -/
def splits (symbol : SymbolId) : (form : List SymbolId) → List (List SymbolId × List SymbolId)
  | [] => []
  | first :: form =>
      (if Nat.beq first symbol then [([], form)] else [])
        ++ (splits symbol form).map fun split => (first :: split.1, split.2)

theorem mem_splits {symbol : SymbolId} {form front back : List SymbolId} :
    (front, back) ∈ splits symbol form ↔ form = front ++ symbol :: back := by
  induction form generalizing front with
  | nil => simp [splits]
  | cons first form ih =>
      rw [splits, List.mem_append, List.mem_map]
      cases front with
      | nil =>
          simp only [Prod.mk.injEq, reduceCtorEq, false_and, and_false, exists_false, or_false,
            List.nil_append, List.cons.injEq]
          cases hSame : Nat.beq first symbol with
          | true => simp [Nat.eq_of_beq_eq_true hSame, eq_comm]
          | false => simp [Nat.ne_of_beq_eq_false hSame]
      | cons other front =>
          have hNone : (other :: front, back) ∉ (if Nat.beq first symbol then [([], form)] else []) := by
            split <;> simp
          simp only [hNone, false_or, Prod.exists, Prod.mk.injEq, List.cons.injEq, List.cons_append]
          constructor
          · rintro ⟨_, _, hMem, ⟨rfl, rfl⟩, rfl⟩
            exact ⟨rfl, ih.mp hMem⟩
          · rintro ⟨rfl, hRest⟩
            exact ⟨front, back, ih.mpr hRest, ⟨rfl, rfl⟩, rfl⟩

/-- The places of a symbol: the left-hand sides of its rules, with what is in front of it and behind it
there. -/
def places (g : Grammar) (symbol : SymbolId) : List (SymbolId × List SymbolId × List SymbolId) :=
  g.rules.toList.flatMap fun info => (splits symbol info.symbols).map (info.lhs, ·)

theorem mem_places {info : Rule} (hMem : info ∈ g.rules) {front back : List SymbolId}
    {symbol : SymbolId} (hSymbols : info.symbols = front ++ symbol :: back) :
    (info.lhs, front, back) ∈ g.places symbol := by
  refine List.mem_flatMap.mpr ⟨info, by simpa using hMem, List.mem_map.mpr ⟨(front, back), ?_, rfl⟩⟩
  exact mem_splits.mpr hSymbols

/-- Where a symbol is awaited, one of its places is. -/
theorem Awaits.exists_place {stack rest : List SymbolId} {symbol : SymbolId}
    (h : g.Awaits stack symbol rest) (hStart : symbol ≠ g.start) :
    ∃ place ∈ g.places symbol, ∃ below tokens after, stack = place.2.1.reverse ++ below
      ∧ rest = tokens ++ after ∧ g.Awaits below place.1 after ∧ g.StandsFor place.2.2 tokens := by
  cases h with
  | start => exact absurd rfl hStart
  | @within below after info front back _ tokens hBelow hMem hSymbols hBack =>
      exact ⟨_, mem_places hMem hSymbols, below, tokens, after, rfl, rfl, hBelow, hBack⟩

/-- Every symbol stands for something. -/
def Productive (g : Grammar) : Prop := ∀ symbol < g.symbols.size, ∃ tokens, g.StandsFor [symbol] tokens

theorem exists_standsFor_form {form : List SymbolId}
    (h : ∀ symbol ∈ form, ∃ tokens, g.StandsFor [symbol] tokens) : ∃ tokens, g.StandsFor form tokens := by
  induction form with
  | nil => exact ⟨[], .nil⟩
  | cons first form ih =>
      obtain ⟨tokens, hTokens⟩ := h first (by simp)
      obtain ⟨rest, hRest⟩ := ih fun symbol hMem => h symbol (by simp [hMem])
      exact ⟨tokens ++ rest, hTokens.append hRest⟩

/-- A grammar is productive if each nonterminal has a rule of lower symbols. -/
theorem productive_of_height {height : SymbolId → Nat} (hProper : g.Proper)
    (hHeight : ∀ symbol < g.symbols.size, g.isTerminal symbol = false → ∃ info ∈ g.rules,
      info.lhs = symbol ∧ ∀ other ∈ info.symbols,
        g.isTerminal other = true ∨ height other < height symbol) : g.Productive := by
  intro symbol hSymbol
  induction hOrder : height symbol using Nat.strongRecOn generalizing symbol with
  | ind n ih =>
      cases hTerminal : g.isTerminal symbol with
      | true => exact ⟨[symbol], .terminal hTerminal⟩
      | false =>
          obtain ⟨info, hMem, rfl, hLower⟩ := hHeight symbol hSymbol hTerminal
          obtain ⟨tokens, hTokens⟩ : ∃ tokens, g.StandsFor info.symbols tokens := by
            refine exists_standsFor_form fun other hOther => ?_
            rcases hLower other hOther with hTerminal | hLess
            · exact ⟨[other], .terminal hTerminal⟩
            · exact ih _ (hOrder ▸ hLess) other (hProper.symbol info hMem other hOther).1 rfl
          exact ⟨tokens, .rule hMem hTokens⟩

/-- Every symbol of a rule is awaited where the rule is, behind the symbols in front of it. -/
theorem Awaits.exists_within (hProper : g.Proper) (hProductive : g.Productive) {info : Rule}
    (hMem : info ∈ g.rules) {dot : Nat} {symbol : SymbolId} (hSymbol : info.symbols[dot]? = some symbol)
    {below rest : List SymbolId} (h : g.Awaits below info.lhs rest) :
    ∃ rest, g.Awaits ((info.symbols.take dot).reverse ++ below) symbol rest := by
  obtain ⟨hLess, rfl⟩ := List.getElem?_eq_some_iff.mp hSymbol
  obtain ⟨tokens, hTokens⟩ : ∃ tokens, g.StandsFor (info.symbols.drop (dot + 1)) tokens :=
    exists_standsFor_form fun other hOther =>
      hProductive other (hProper.symbol info hMem other (List.mem_of_mem_drop hOther)).1
  refine ⟨tokens ++ rest, .within h hMem ?_ hTokens⟩
  rw [List.getElem_cons_drop, List.take_append_drop]

end Grammar
end IncrementalParsing
