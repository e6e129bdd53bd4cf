import IncrementalParsing.Grammar.First
import Mathlib.Logic.Relation

/-! Derivations of a grammar: in any order, at the last nonterminal of every form, and along the
tree they stand for. -/
namespace IncrementalParsing
namespace Grammar

/-- One nonterminal is replaced by the right-hand side of one of its rules. -/
def Produces (g : Grammar) (before after : List SymbolId) : Prop :=
  ∃ front back, ∃ info ∈ g.rules,
    before = front ++ info.lhs :: back ∧ after = front ++ info.symbols ++ back

/-- Any number of replacements, in any order. -/
def Derives (g : Grammar) : List SymbolId → List SymbolId → Prop :=
  Relation.ReflTransGen g.Produces

/-- A rightmost derivation replaces the last nonterminal of every form. Its rules are listed in the
order of their use. -/
inductive Rightmost (g : Grammar) (start : List SymbolId) : List RuleId → List SymbolId → Prop
  | refl : Rightmost g start [] start
  | step {front back : List SymbolId} {rules : List RuleId} {rule : RuleId} {info : Rule}
      (hBefore : Rightmost g start rules (front ++ info.lhs :: back))
      (hRule : g.rules[rule]? = some info) (hBack : ∀ symbol ∈ back, g.isTerminal symbol = true) :
      Rightmost g start (rules ++ [rule]) (front ++ info.symbols ++ back)

/-- What a form stands for, by the trees of its symbols. The rules are listed as they are completed
from left to right, those inside a tree in front of its own. -/
inductive Yields (g : Grammar) : List SymbolId → List SymbolId → List RuleId → Prop
  | nil : Yields g [] [] []
  | terminal {symbol : SymbolId} {form tokens : List SymbolId} {rules : List RuleId}
      (hTerminal : g.isTerminal symbol = true) (hRest : Yields g form tokens rules) :
      Yields g (symbol :: form) (symbol :: tokens) rules
  | rule {rule : RuleId} {info : Rule} {form inner tokens : List SymbolId}
      {before rules : List RuleId} (hRule : g.rules[rule]? = some info)
      (hInner : Yields g info.symbols inner before) (hRest : Yields g form tokens rules) :
      Yields g (info.lhs :: form) (inner ++ tokens) (before ++ rule :: rules)

variable {g : Grammar}

/-- A form is replaced within another. -/
theorem Produces.within {before after : List SymbolId} (h : g.Produces before after)
    (front back : List SymbolId) : g.Produces (front ++ before ++ back) (front ++ after ++ back) := by
  obtain ⟨left, right, info, hMem, rfl, rfl⟩ := h
  exact ⟨front ++ left, right ++ back, info, hMem, by simp, by simp⟩

/-- A derivation can be made anywhere in a form. -/
theorem Derives.within {before after : List SymbolId} (h : g.Derives before after)
    (front back : List SymbolId) : g.Derives (front ++ before ++ back) (front ++ after ++ back) :=
  h.lift (fun form => front ++ form ++ back) fun _ _ hStep => hStep.within front back

/-- A rule replaces its left side by its right side. -/
theorem produces_of_mem {info : Rule} (hMem : info ∈ g.rules) :
    g.Produces [info.lhs] info.symbols :=
  ⟨[], [], info, hMem, by simp, by simp⟩

/-- A rightmost derivation is a derivation. -/
theorem Rightmost.derives {start form : List SymbolId} {rules : List RuleId}
    (h : g.Rightmost start rules form) : g.Derives start form := by
  induction h with
  | refl => exact .refl
  | step _ hRule _ ih => exact ih.tail ⟨_, _, _, Array.mem_of_getElem? hRule, rfl, rfl⟩

theorem Yields.of_terminals {tokens : List SymbolId}
    (h : ∀ symbol ∈ tokens, g.isTerminal symbol = true) : g.Yields tokens tokens [] := by
  induction tokens with
  | nil => exact .nil
  | cons symbol tokens ih =>
      exact .terminal (h symbol (by simp)) (ih fun other hMem => h other (by simp [hMem]))

/-- What two forms yield, they yield side by side. -/
theorem Yields.append {left right leftTokens rightTokens : List SymbolId}
    {leftRules rightRules : List RuleId} (hLeft : g.Yields left leftTokens leftRules)
    (hRight : g.Yields right rightTokens rightRules) :
    g.Yields (left ++ right) (leftTokens ++ rightTokens) (leftRules ++ rightRules) := by
  induction hLeft with
  | nil => exact hRight
  | terminal hTerminal _ ih => exact .terminal hTerminal ih
  | rule hRule hInner _ _ ih =>
      have hWhole := Yields.rule hRule hInner ih
      simpa using hWhole

/-- What forms yield side by side is what each of them does. -/
theorem Yields.of_append {left right tokens : List SymbolId} {rules : List RuleId}
    (h : g.Yields (left ++ right) tokens rules) :
    ∃ leftTokens rightTokens leftRules rightRules, g.Yields left leftTokens leftRules
      ∧ g.Yields right rightTokens rightRules ∧ tokens = leftTokens ++ rightTokens
      ∧ rules = leftRules ++ rightRules := by
  induction left generalizing tokens rules with
  | nil => exact ⟨[], tokens, [], rules, .nil, h, rfl, rfl⟩
  | cons symbol left ih =>
      cases h with
      | terminal hTerminal hRest =>
          obtain ⟨_, _, _, _, hLeft, hRight, rfl, rfl⟩ := ih hRest
          exact ⟨_, _, _, _, .terminal hTerminal hLeft, hRight, rfl, rfl⟩
      | rule hRule hInner hRest =>
          obtain ⟨_, _, _, _, hLeft, hRight, rfl, rfl⟩ := ih hRest
          exact ⟨_, _, _, _, .rule hRule hInner hLeft, hRight, by simp, by simp⟩

/-- Whatever is derived has a tree. -/
theorem Derives.yields {form tokens : List SymbolId} (h : g.Derives form tokens)
    (hTokens : ∀ symbol ∈ tokens, g.isTerminal symbol = true) :
    ∃ rules, g.Yields form tokens rules := by
  induction h using Relation.ReflTransGen.head_induction_on with
  | refl => exact ⟨[], .of_terminals hTokens⟩
  | head hStep _ ih =>
      obtain ⟨front, back, info, hMem, rfl, rfl⟩ := hStep
      obtain ⟨rules, hYields⟩ := ih
      obtain ⟨_, _, _, _, hBegin, hBack, rfl, rfl⟩ := hYields.of_append
      obtain ⟨_, _, _, _, hFront, hInner, rfl, rfl⟩ := hBegin.of_append
      obtain ⟨rule, hRule⟩ := Array.mem_iff_getElem?.mp hMem
      have hWhole := hFront.append (.rule hRule hInner hBack)
      exact ⟨_, by simpa using hWhole⟩

/-- Whatever has a tree is derived. -/
theorem Yields.derives {form tokens : List SymbolId} {rules : List RuleId} (h : g.Yields form tokens rules) :
    g.Derives form tokens := by
  induction h with
  | nil => exact .refl
  | @terminal symbol form tokens _ _ _ ih => simpa using ih.within [symbol] []
  | @rule rule info form inner tokens _ _ hRule _ _ ihInner ihRest =>
      have hFirst := (produces_of_mem (Array.mem_of_getElem? hRule)).within [] form
      have hInner := ihInner.within [] form
      have hRest := ihRest.within inner []
      simp only [List.nil_append, List.append_nil] at hFirst hInner hRest
      exact .head hFirst (hInner.trans hRest)

theorem Yields.isTerminal {form tokens : List SymbolId} {rules : List RuleId}
    (h : g.Yields form tokens rules) : ∀ symbol ∈ tokens, g.isTerminal symbol = true := by
  induction h with
  | nil => simp
  | terminal hTerminal _ ih => simpa [hTerminal] using ih
  | rule _ _ _ hInner hRest =>
      intro symbol hMem
      exact (List.mem_append.mp hMem).elim (hInner symbol) (hRest symbol)

end Grammar
end IncrementalParsing
