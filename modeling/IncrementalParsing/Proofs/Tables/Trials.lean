import IncrementalParsing.Parser.Trial
import IncrementalParsing.Proofs.Tables.Progress

/-! What is tried out on stacks of states. Every stack of a trial is a path through the automaton, so a
reduction that faithful tables ask for can always be done there. -/
namespace IncrementalParsing
namespace Tables

/-- The states after one reduction, if the state on top asks for one. -/
def reduction? (t : Tables) (terminal : SymbolId) (states : List StateId) :
    Option (List StateId) :=
  match t.action (states.headD 0) terminal with
  | .reduce rule =>
      match t.rules[rule]? with
      | some info =>
          (t.goto ((states.drop info.rhs.length).headD 0) info.lhs).map
            (· :: states.drop info.rhs.length)
      | none => none
  | _ => none

/-- The states after some reductions in a row. -/
inductive Reductions (t : Tables) (terminal : SymbolId) (states : List StateId) :
    Nat → List StateId → Prop
  | none : Reductions t terminal states 0 states
  | more {count : Nat} {before after : List StateId}
      (hBefore : Reductions t terminal states count before)
      (hStep : t.reduction? terminal before = some after) :
      Reductions t terminal states (count + 1) after

/-- The stacks of states that may be tried out over some states: they are cut down, and terminals
are shifted after reductions. -/
inductive Tried (t : Tables) (states : List StateId) : List StateId → Prop
  | cut (depth : Nat) : Tried t states (states.drop depth)
  | shift {tried : List StateId} {terminal : SymbolId} {next : StateId} (h : Tried t states tried)
      (hShift : t.action (tried.headD 0) terminal = .shift next) : Tried t states (next :: tried)
  | reduce {tried after : List StateId} {terminal : SymbolId} (h : Tried t states tried)
      (hStep : t.reduction? terminal tried = some after) : Tried t states after

/-- Every reduction that the state on top asks for can be done: there is its rule, there are enough
states for it, and the one below them leads on. -/
def CanReduce (t : Tables) (states : List StateId) : Prop :=
  ∀ terminal rule, t.action (states.headD 0) terminal = .reduce rule →
    ∃ info next, t.rules[rule]? = some info ∧ info.rhs.length ≤ states.length
      ∧ t.goto ((states.drop info.rhs.length).headD 0) info.lhs = some next

section
variable {t : Tables} {terminal : SymbolId} {states after : List StateId}

theorem reduction?_eq_some (hStep : t.reduction? terminal states = some after) :
    ∃ rule info next, t.action (states.headD 0) terminal = .reduce rule
      ∧ t.rules[rule]? = some info
      ∧ t.goto ((states.drop info.rhs.length).headD 0) info.lhs = some next
      ∧ after = next :: states.drop info.rhs.length := by
  unfold reduction? at hStep
  split at hStep
  · rename_i rule hReduce
    split at hStep
    · rename_i info hRule
      obtain ⟨next, hGoto, rfl⟩ := Option.map_eq_some_iff.mp hStep
      exact ⟨rule, info, next, hReduce, hRule, hGoto, rfl⟩
    · simp at hStep
  · simp at hStep

theorem reduction?_of_reduce {rule : RuleId} {info : Production} {next : StateId}
    (hReduce : t.action (states.headD 0) terminal = .reduce rule) (hRule : t.rules[rule]? = some info)
    (hGoto : t.goto ((states.drop info.rhs.length).headD 0) info.lhs = some next) :
    t.reduction? terminal states = some (next :: states.drop info.rhs.length) := by
  simp only [reduction?, hReduce, hRule, hGoto, Option.map_some]

/-- A trial goes on with a reduction. -/
theorem act_of_reduction (hStep : t.reduction? terminal states = some after) (limit : Nat) :
    t.act terminal (limit + 1) states = t.act terminal limit after := by
  obtain ⟨rule, info, next, hReduce, hRule, hGoto, rfl⟩ := reduction?_eq_some hStep
  simp only [act, hReduce, hRule, hGoto]

/-- A trial that succeeds has done the reduction it began with. -/
theorem isSome_reduction?_of_act {rule : RuleId} {limit : Nat}
    (hReduce : t.action (states.headD 0) terminal = .reduce rule)
    (hAct : t.act terminal limit states = some after) :
    (t.reduction? terminal states).isSome = true := by
  cases limit with
  | zero => simp [act] at hAct
  | succ limit =>
      simp only [act, hReduce] at hAct
      cases hRule : t.rules[rule]? with
      | none => simp [hRule] at hAct
      | some info =>
          cases hGoto : t.goto ((states.drop info.rhs.length).headD 0) info.lhs with
          | none => simp [hRule, -List.headD_eq_head?_getD, hGoto] at hAct
          | some next => rw [reduction?_of_reduce hReduce hRule hGoto]; rfl

theorem Reductions.head {before : List StateId} {count : Nat}
    (hStep : t.reduction? terminal states = some before)
    (h : t.Reductions terminal before count after) : t.Reductions terminal states (count + 1) after := by
  induction h with
  | none => exact .more .none hStep
  | more _ hNext ih => exact .more ih hNext

/-- A trial that has room for some reductions goes on behind them. -/
theorem act_of_reductions {count : Nat} (h : t.Reductions terminal states count after) (limit : Nat) :
    t.act terminal (limit + count) states = t.act terminal limit after := by
  induction h generalizing limit with
  | none => rfl
  | @more count _ _ _ hStep ih => rw [Nat.add_comm count, ← Nat.add_assoc, ih, act_of_reduction hStep]

/-- A trial gives up where there are more reductions than it has room for. -/
theorem act_eq_none_of_reductions {count limit : Nat} (h : t.Reductions terminal states count after)
    (hLimit : limit ≤ count) : t.act terminal limit states = none := by
  induction h with
  | none => rw [Nat.le_zero.mp hLimit, act]
  | @more count _ _ hBefore hStep ih =>
      rcases Nat.le_succ_iff.mp hLimit with hLess | rfl
      · exact ih hLess
      · rw [Nat.succ_eq_one_add, act_of_reductions hBefore, act_of_reduction hStep, act]

/-- There are no reductions where there is no action. -/
theorem eq_of_reductions_of_error (hError : t.action (states.headD 0) terminal = .error) {count : Nat}
    (h : t.Reductions terminal states count after) : after = states := by
  induction h with
  | none => rfl
  | more _ hStep ih =>
      simp only [ih, reduction?, hError] at hStep
      cases hStep

theorem Tried.reductions {tried : List StateId} {count : Nat} (h : t.Tried states tried)
    (hReductions : t.Reductions terminal tried count after) : t.Tried states after := by
  induction hReductions with
  | none => exact h
  | more _ hStep ih => exact ih.reduce hStep

/-- A trial stops for one of these reasons only, if all its reductions can be done. -/
theorem act_cases (hTried : ∀ tried, t.Tried states tried → t.CanReduce tried)
    (terminal : SymbolId) (limit : Nat) {tried : List StateId} (h : t.Tried states tried) :
    ∃ count last, count ≤ limit ∧ t.Reductions terminal tried count last
      ∧ ((∃ next, t.action (last.headD 0) terminal = .shift next
            ∧ t.act terminal limit tried = some (next :: last))
        ∨ (t.action (last.headD 0) terminal = .accept ∧ t.act terminal limit tried = some last)
        ∨ (t.action (last.headD 0) terminal = .error ∧ t.act terminal limit tried = none)
        ∨ (count = limit ∧ t.act terminal limit tried = none)) := by
  induction limit generalizing tried with
  | zero => exact ⟨0, tried, Nat.le_refl 0, .none, .inr (.inr (.inr ⟨rfl, rfl⟩))⟩
  | succ limit ih =>
      cases hAction : t.action (tried.headD 0) terminal with
      | shift next =>
          exact ⟨0, tried, Nat.zero_le _, .none, .inl ⟨next, hAction, by simp only [act, hAction]⟩⟩
      | accept =>
          exact ⟨0, tried, Nat.zero_le _, .none, .inr (.inl ⟨hAction, by simp only [act, hAction]⟩)⟩
      | error =>
          exact ⟨0, tried, Nat.zero_le _, .none,
            .inr (.inr (.inl ⟨hAction, by simp only [act, hAction]⟩))⟩
      | reduce rule =>
          obtain ⟨info, next, hRule, -, hGoto⟩ := hTried tried h terminal rule hAction
          have hStep := reduction?_of_reduce hAction hRule hGoto
          obtain ⟨count, last, hCount, hReductions, hEnd⟩ := ih (h.reduce hStep)
          refine ⟨count + 1, last, Nat.succ_le_succ hCount, hReductions.head hStep, ?_⟩
          rw [act_of_reduction hStep, Nat.succ_inj]
          exact hEnd

/-- What a trial ends with may be tried out further. -/
theorem Tried.act (hTried : ∀ tried, t.Tried states tried → t.CanReduce tried) {limit : Nat}
    {tried next : List StateId} (h : t.Tried states tried)
    (hAct : t.act terminal limit tried = some next) : t.Tried states next := by
  obtain ⟨count, last, -, hReductions, hEnd⟩ := act_cases hTried terminal limit h
  have hLast := h.reductions hReductions
  rw [hAct] at hEnd
  rcases hEnd with ⟨state, hShift, hNext⟩ | ⟨-, hNext⟩ | ⟨-, hNext⟩ | ⟨-, hNext⟩
  · obtain rfl := Option.some.inj hNext
    exact hLast.shift hShift
  · obtain rfl := Option.some.inj hNext
    exact hLast
  · simp at hNext
  · simp at hNext

end

namespace Generated
variable {t : Tables} {g : Grammar} {m : Automaton}

theorem headD_states (steps : List (SymbolId × StateId)) :
    (steps.map (·.2)).headD 0 = Automaton.endOf steps := by
  cases steps <;> rfl

/-- Whatever a reduction leaves of a path is a path again. -/
theorem path_of_reduction (h : Generated g m t) (hProper : g.Proper)
    {steps : List (SymbolId × StateId)} (hPath : m.Path steps) {terminal : SymbolId}
    {after : List StateId} (hStep : t.reduction? terminal (steps.map (·.2)) = some after) :
    ∃ found, m.Path found ∧ after = found.map (·.2) := by
  obtain ⟨rule, info, next, -, hRule, hGoto, rfl⟩ := reduction?_eq_some hStep
  rw [← List.map_drop, headD_states] at hGoto
  refine ⟨(info.lhs, next) :: steps.drop info.rhs.length, ?_, by simp⟩
  rw [← List.take_append_drop info.rhs.length steps] at hPath
  exact hPath.of_append.cons (h.goto (h.lhs_of_rule hProper hRule).2 hGoto).2

/-- Whatever is tried out over a path is a path again. -/
theorem path_of_tried (h : Generated g m t) (hProper : g.Proper)
    {steps : List (SymbolId × StateId)} (hPath : m.Path steps) {tried : List StateId}
    (hTried : t.Tried (steps.map (·.2)) tried) :
    ∃ found, m.Path found ∧ tried = found.map (·.2) := by
  induction hTried with
  | cut depth =>
      refine ⟨steps.drop depth, ?_, (List.map_drop).symm⟩
      rw [← List.take_append_drop depth steps] at hPath
      exact hPath.of_append
  | @shift tried terminal next _ hShift ih =>
      obtain ⟨found, hFound, rfl⟩ := ih
      rw [headD_states] at hShift
      exact ⟨(terminal, next) :: found, hFound.cons (h.shift hShift), rfl⟩
  | @reduce tried after terminal _ hStep ih =>
      obtain ⟨found, hFound, rfl⟩ := ih
      exact h.path_of_reduction hProper hFound hStep

end Generated

namespace Faithful
variable {t : Tables} {g : Grammar} {m : Automaton}

/-- Reductions can be done on everything that is tried out over a path. -/
theorem canReduce_of_tried (h : Faithful g m t) (hProper : g.Proper)
    {steps : List (SymbolId × StateId)} (hPath : m.Path steps) {tried : List StateId}
    (hTried : t.Tried (steps.map (·.2)) tried) : t.CanReduce tried := by
  intro terminal rule hReduce
  obtain ⟨found, hFound, rfl⟩ := h.path_of_tried hProper hPath hTried
  rw [Generated.headD_states] at hReduce
  obtain ⟨info, next, hRule, hBound, -, -, hGoto⟩ := h.reduction hProper hFound hReduce
  refine ⟨info, next, hRule, by simpa using hBound, ?_⟩
  rw [← List.map_drop, Generated.headD_states]
  exact hGoto

end Faithful
end Tables
end IncrementalParsing
