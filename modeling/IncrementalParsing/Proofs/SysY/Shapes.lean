import IncrementalParsing.Proofs.Parser.Steady
import IncrementalParsing.Proofs.SysY.Levels
import IncrementalParsing.Proofs.SysY.Rules

/-! Trees of operators and if statements, and how the rules of SysY make them. Expressions and
statements are hidden nodes over one node that shows, so what counts is the node below them. -/
namespace IncrementalParsing
open Subtree

/-- The first child that plays a part. -/
def Subtree.part? (field : FieldId) (u : Subtree) : Option Subtree :=
  u.children.find? fun c => c.field == some field

namespace SysY

theorem Field.id_inj {f g : Field} : f.id = g.id ↔ f = g := by
  have hAt : ∀ f : Field, Field.all[f.id - 1]? = some f := by
    intro f
    cases f <;> rfl
  refine ⟨fun hSame => ?_, congrArg _⟩
  have hBoth := hAt f
  rw [hSame, hAt g] at hBoth
  exact (Option.some.inj hBoth).symm

/-- The parts that a statement at the end of another one plays in it. -/
def lastParts : List Field := [.consequence, .alternative, .body]

/-- The node that shows where a subtree stands. -/
def core (u : Subtree) : Subtree := if u.kind ∈ wrappers then u.children.headD u else u

/-- The level of the operator of a binary expression. -/
def level? (u : Subtree) : Option Nat :=
  if u.kind = Nonterminal.binaryExpression.id then
    (u.part? Field.operator.id).bind fun operator => operatorLevel? operator.kind
  else none

/-- An if statement without an alternative, or a statement that ends with one. -/
inductive EndsOpen : Subtree → Prop
  | bare {u : Subtree} (hKind : u.kind = Nonterminal.ifStatement.id)
      (hNone : u.part? Field.alternative.id = none) : EndsOpen u
  | last {u c : Subtree} {part : Field}
      (hKind : u.kind = Nonterminal.ifStatement.id ∨ u.kind = Nonterminal.whileStatement.id)
      (hLast : u.children.getLast? = some c) (hPart : part ∈ lastParts)
      (hField : c.field = some part.id) (hBelow : EndsOpen c) : EndsOpen u

/-- Operators bind by their level and from the left, and an alternative belongs to the nearest if. -/
structure Shaped (u : Subtree) : Prop where
  binary : u.kind = Nonterminal.binaryExpression.id → ∃ left right level,
    u.part? Field.left.id = some left ∧ u.part? Field.right.id = some right ∧ level? u = some level
      ∧ (∀ inner ∈ level? left, level ≤ inner) ∧ ∀ inner ∈ level? right, level < inner
  unary : u.kind = Nonterminal.unaryExpression.id → ∃ argument,
    u.part? Field.argument.id = some argument ∧ argument.kind ≠ Nonterminal.binaryExpression.id
  alternative : u.kind = Nonterminal.ifStatement.id → u.part? Field.alternative.id ≠ none →
    ∃ consequence, u.part? Field.consequence.id = some consequence ∧ ¬EndsOpen consequence

section Parts
variable {u : Subtree}

theorem part?_withField (part : FieldId) (field : Option FieldId) (u : Subtree) :
    (u.withField field).part? part = u.part? part := by
  rw [part?, part?, children_withField]

theorem level?_withField (field : Option FieldId) (u : Subtree) :
    level? (u.withField field) = level? u := by
  rw [level?, level?, kind_withField, part?_withField]

theorem EndsOpen.of_withField {field : Option FieldId} (h : EndsOpen (u.withField field)) :
    EndsOpen u := by
  cases h with
  | bare hKind hNone => exact .bare (by simpa using hKind) (by rwa [part?_withField] at hNone)
  | last hKind hLast hPart hField hBelow =>
      exact .last (by simpa using hKind) (by rwa [children_withField] at hLast) hPart hField hBelow

theorem Shaped.withField (field : Option FieldId) (u : Subtree) (h : Shaped u) :
    Shaped (u.withField field) := by
  obtain ⟨hBinary, hUnary, hAlternative⟩ := h
  constructor <;> simpa only [kind_withField, part?_withField, level?_withField]

/-- Only binary expressions have a level. -/
theorem level?_eq_none (hKind : u.kind ≠ Nonterminal.binaryExpression.id) : level? u = none :=
  if_neg hKind

theorem kind_of_level {level : Nat} (hLevel : level? u = some level) :
    u.kind = Nonterminal.binaryExpression.id := by
  by_contra hKind
  rw [level?_eq_none hKind] at hLevel
  simp at hLevel

/-- The levels of binary expressions are those of binary operators. -/
theorem level?_lt {level : Nat} (hLevel : level? u = some level) : level < unaryPrecedence.level := by
  rw [level?, if_pos (kind_of_level hLevel)] at hLevel
  obtain ⟨o, -, hOperator⟩ := Option.bind_eq_some_iff.mp hLevel
  obtain ⟨operator, hMem, -⟩ := exists_operator hOperator
  exact (level_between hMem).2

theorem EndsOpen.kind (h : EndsOpen u) :
    u.kind ∈ [Nonterminal.ifStatement.id, Nonterminal.whileStatement.id] := by
  cases h with
  | bare hKind => simp [hKind]
  | last hKind => simpa using hKind

/-- Only a statement that has another one as its last part, and no if of its own to be open, ends as
that one does. -/
theorem EndsOpen.last_part (h : EndsOpen u) (hOwn : u.kind = Nonterminal.ifStatement.id →
    u.part? Field.alternative.id ≠ none) {front : List Subtree} {c : Subtree}
    (hChildren : u.children = front ++ [c]) : EndsOpen c := by
  cases h with
  | bare hKind hNone => exact absurd hNone (hOwn hKind)
  | last _ hLast _ _ hBelow =>
      obtain rfl : c = _ := by simpa [hChildren] using hLast
      exact hBelow

/-- A node of another kind has nothing to fulfil. -/
theorem shaped_of_kind (hKind : u.kind ∉ shapely) : Shaped u where
  binary h := absurd (h ▸ by decide) hKind
  unary h := absurd (h ▸ by decide) hKind
  alternative h := absurd (h ▸ by decide) hKind

/-- There is nothing to see through but at wrappers. -/
theorem core_eq_self (hKind : u.kind ∉ wrappers) : core u = u := if_neg hKind

end Parts

/-- A hidden node of those lies over one node, which shows. -/
def Wraps (t : Tables) (u : Subtree) : Prop :=
  u.kind ∈ wrappers → ∃ c, u.children = [c] ∧ c.field = none ∧ t.isHidden c.kind = false

/-- A subtree on the stack, over the symbols `below` and in front of `next`, leaves the operators in
front of it and behind it the operands they bind. -/
structure Stands (t : Tables) (u : Subtree) (below : List SymbolId) (next : SymbolId) : Prop where
  shaped : All Shaped u
  wraps : Wraps t u
  exceeds : ∀ level ∈ level? (core u), bound below < level
  operator : ∀ limit ∈ operatorLevel? next, ∀ level ∈ level? (core u), limit ≤ level
  alternative : next = Terminal.elseKeyword.kind → ¬EndsOpen (core u)

section Stands
variable {t : Tables} {u node : Subtree} {below : List SymbolId} {next : SymbolId}

/-- In front of what is neither an operator nor an alternative, anything may stand. -/
theorem Stands.before (h : Stands t u below next) {other : SymbolId} (hOperator : operatorLevel? other = none)
    (hOther : other ≠ Terminal.elseKeyword.kind) : Stands t u below other where
  shaped := h.shaped
  wraps := h.wraps
  exceeds := h.exceeds
  operator := by simp [hOperator]
  alternative hIs := absurd hIs hOther

/-- Below a wrapper that stands everything is shaped. -/
theorem Stands.shaped_core (h : Stands t u below next) : All Shaped (core u) := by
  rw [core]
  split
  · rename_i hWrapper
    obtain ⟨c, hChildren, -⟩ := h.wraps hWrapper
    rw [hChildren]
    exact h.shaped.child (by simp [hChildren])
  · exact h.shaped

theorem stands_of_not_wrapper (hKind : u.kind ∉ wrappers) (hShaped : All Shaped u)
    (hExceeds : ∀ level ∈ level? u, bound below < level)
    (hOperator : ∀ limit ∈ operatorLevel? next, ∀ level ∈ level? u, limit ≤ level)
    (hAlternative : next = Terminal.elseKeyword.kind → ¬EndsOpen u) : Stands t u below next where
  shaped := hShaped
  wraps hIs := absurd hIs hKind
  exceeds := by rwa [core_eq_self hKind]
  operator := by rwa [core_eq_self hKind]
  alternative := by rwa [core_eq_self hKind]

/-- A node that is neither an operation nor ends open stands before anything. -/
theorem stands_of_no_level (hKind : u.kind ∉ wrappers) (hOther : u.kind ≠ Nonterminal.binaryExpression.id)
    (hShaped : All Shaped u) (hAlternative : next = Terminal.elseKeyword.kind → ¬EndsOpen u) :
    Stands t u below next := by
  have hLevel := level?_eq_none hOther
  exact stands_of_not_wrapper hKind hShaped (by simp [hLevel]) (by simp [hLevel]) hAlternative

/-- What is neither an expression nor a statement is not bound by operators, and does not end with an
if statement. -/
theorem stands_of_kind (hKind : u.kind ∉ shapely) (hAll : ∀ c ∈ u.children, All Shaped c) :
    Stands t u below next := by
  have hEnds : ∀ kind ∈ [Nonterminal.ifStatement.id, Nonterminal.whileStatement.id], kind ∈ shapely := by
    decide
  exact stands_of_no_level (fun h => hKind (List.mem_append_left _ h)) (fun h => hKind (h ▸ by decide))
    (all_iff.mpr ⟨shaped_of_kind hKind, hAll⟩) fun _ hOpen => hKind (hEnds _ hOpen.kind)

section Rules
variable (hAll : ∀ c ∈ node.children, All Shaped c)
include hAll

/-- A binary expression is made of operands that its operator binds. -/
theorem stands_binary (hKind : node.kind = Nonterminal.binaryExpression.id) {l o r : Subtree}
    (hChildren : node.children = [(core l).withField Field.left.id, (core o).withField Field.operator.id,
      (core r).withField Field.right.id]) {operator : Terminal} {level : Nat}
    (hOperator : (operator, level) ∈ binaryOperators) (hSymbol : o.kind = operator.kind)
    (hLeft : Stands t l below operator.kind)
    (hRight : Stands t r (operator.kind :: Nonterminal.expression.id :: below) next)
    (hFront : bound below < level) (hBehind : ∀ limit ∈ operatorLevel? next, limit ≤ level) :
    Stands t node below next := by
  have hOwn : core o = o := core_eq_self (by rw [hSymbol]; cases operator <;> decide)
  have hLevel : level? node = some level := by
    rw [level?, if_pos hKind, part?, hChildren, hOwn]
    simp [Field.id_inj, hSymbol, operatorLevel?_kind hOperator]
  have hShaped : Shaped node := by
    refine ⟨fun _ => ⟨(core l).withField Field.left.id, (core r).withField Field.right.id, level, ?_, ?_,
      hLevel, ?_, ?_⟩, fun h => ?_, fun h => ?_⟩
    · simp [part?, hChildren]
    · simp [part?, hChildren, Field.id_inj]
    · rw [level?_withField]
      exact hLeft.operator level (operatorLevel?_kind hOperator)
    · rw [level?_withField]
      exact bound_operator hOperator below ▸ hRight.exceeds
    · exact absurd (hKind.symm.trans h) (by decide)
    · exact absurd (hKind.symm.trans h) (by decide)
  exact stands_of_not_wrapper (by rw [hKind]; decide) (all_iff.mpr ⟨hShaped, hAll⟩)
    (by simpa [hLevel] using hFront) (by simpa [hLevel] using hBehind)
    fun _ hOpen => absurd (hKind ▸ hOpen.kind) (by decide)

/-- No binary expression is the argument of a unary one, as its operator does not bind as tightly. -/
theorem stands_unary (hKind : node.kind = Nonterminal.unaryExpression.id) {o a : Subtree}
    (hChildren : node.children = [(core o).withField Field.operator.id,
      (core a).withField Field.argument.id]) {operator : Terminal} (hOperator : operator ∈ unaryOperators)
    (hArgument : Stands t a (operator.kind :: below) next)
    (hFront : below.head? ≠ some Nonterminal.expression.id) : Stands t node below next := by
  have hBound : bound (operator.kind :: below) = unaryPrecedence.level := by
    rw [bound, if_neg hFront, if_pos (List.any_eq_true.mpr ⟨operator, hOperator, by simp⟩)]
  have hPlain : (core a).kind ≠ Nonterminal.binaryExpression.id := by
    intro hBinary
    obtain ⟨-, -, level, -, -, hInner, -⟩ := hArgument.shaped_core.self.binary hBinary
    have hExceeds := hBound ▸ hArgument.exceeds level hInner
    exact Nat.lt_asymm hExceeds (level?_lt hInner)
  have hShaped : Shaped node := by
    refine ⟨fun h => ?_, fun _ => ⟨(core a).withField Field.argument.id, ?_, by simpa using hPlain⟩,
      fun h => ?_⟩
    · exact absurd (hKind.symm.trans h) (by decide)
    · simp [part?, hChildren, Field.id_inj]
    · exact absurd (hKind.symm.trans h) (by decide)
  exact stands_of_no_level (by rw [hKind]; decide) (by rw [hKind]; decide) (all_iff.mpr ⟨hShaped, hAll⟩)
    fun _ hOpen => absurd (hKind ▸ hOpen.kind) (by decide)

section Statements
variable {front : List Subtree} {s : Subtree}

/-- An if statement without an alternative is not in front of one. -/
theorem stands_bare (hKind : node.kind = Nonterminal.ifStatement.id)
    (hNone : node.part? Field.alternative.id = none) (hNext : next ≠ Terminal.elseKeyword.kind) :
    Stands t node below next := by
  have hShaped : Shaped node := ⟨fun h => absurd (hKind.symm.trans h) (by decide),
    fun h => absurd (hKind.symm.trans h) (by decide), fun _ hSome => absurd hNone hSome⟩
  exact stands_of_no_level (by rw [hKind]; decide) (by rw [hKind]; decide) (all_iff.mpr ⟨hShaped, hAll⟩)
    fun hIs => absurd hIs hNext

/-- What an alternative follows does not end with an if statement that could have it. -/
theorem stands_alternative (hKind : node.kind = Nonterminal.ifStatement.id) {under inner : List SymbolId}
    {a : Subtree} (hChildren : node.children = front ++ [(core a).withField Field.alternative.id])
    (hConsequence : node.part? Field.consequence.id = some ((core s).withField Field.consequence.id))
    (hAlternative : node.part? Field.alternative.id ≠ none)
    (hFirst : Stands t s under Terminal.elseKeyword.kind) (hLast : Stands t a inner next) :
    Stands t node below next := by
  have hShaped : Shaped node := ⟨fun h => absurd (hKind.symm.trans h) (by decide),
    fun h => absurd (hKind.symm.trans h) (by decide),
    fun _ _ => ⟨_, hConsequence, fun hOpen => hFirst.alternative rfl hOpen.of_withField⟩⟩
  refine stands_of_no_level (by rw [hKind]; decide) (by rw [hKind]; decide) (all_iff.mpr ⟨hShaped, hAll⟩)
    fun hIs hOpen => hLast.alternative hIs ?_
  exact (hOpen.last_part (fun _ => hAlternative) hChildren).of_withField

/-- A loop ends as its body does. -/
theorem stands_loop (hKind : node.kind = Nonterminal.whileStatement.id) {inner : List SymbolId}
    (hChildren : node.children = front ++ [(core s).withField Field.body.id])
    (hLast : Stands t s inner next) : Stands t node below next := by
  have hOther : node.kind ≠ Nonterminal.ifStatement.id := by rw [hKind]; decide
  have hShaped : Shaped node := ⟨fun h => absurd (hKind.symm.trans h) (by decide),
    fun h => absurd (hKind.symm.trans h) (by decide), fun h => absurd h hOther⟩
  refine stands_of_no_level (by rw [hKind]; decide) (by rw [hKind]; decide) (all_iff.mpr ⟨hShaped, hAll⟩)
    fun hIs hOpen => hLast.alternative hIs ?_
  exact (hOpen.last_part (fun h => absurd h hOther) hChildren).of_withField

end Statements

/-- A wrapper stands where what it is over does. -/
theorem stands_wrapper (hKind : node.kind ∈ wrappers) {c : Subtree}
    (hChildren : node.children = [c.withField none]) (hShown : t.isHidden c.kind = false)
    (hPlain : c.kind ∉ wrappers) (h : Stands t c below next) : Stands t node below next := by
  have hCore : core node = (core c).withField none := by
    rw [core, if_pos hKind, hChildren, core_eq_self hPlain]
    rfl
  have hShaped : Shaped node := by
    have hOthers : ∀ kind ∈ wrappers, kind ≠ Nonterminal.binaryExpression.id
        ∧ kind ≠ Nonterminal.unaryExpression.id ∧ kind ≠ Nonterminal.ifStatement.id := by
      decide
    obtain ⟨hBinary, hUnary, hIf⟩ := hOthers _ hKind
    exact ⟨fun h => absurd h hBinary, fun h => absurd h hUnary, fun h => absurd h hIf⟩
  refine ⟨all_iff.mpr ⟨hShaped, hAll⟩, fun _ => ⟨_, hChildren, field_withField _ _, by simpa using hShown⟩,
    ?_, ?_, ?_⟩
  · rw [hCore, level?_withField]
    exact h.exceeds
  · rw [hCore, level?_withField]
    exact h.operator
  · rw [hCore]
    exact fun hIs hOpen => h.alternative hIs hOpen.of_withField

end Rules
end Stands
end SysY
end IncrementalParsing
