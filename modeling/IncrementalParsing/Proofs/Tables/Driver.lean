import IncrementalParsing.Proofs.Automaton.Viable
import IncrementalParsing.Proofs.Tables.Contests
import IncrementalParsing.Proofs.Tables.Trials

/-! The driver of LR tables, without trees and without recovery. Whatever it accepts is derived from
the start symbol, and where the construction of the tables meets no conflict it accepts everything that
is derived. -/
namespace IncrementalParsing
namespace Tables

/-- Follows the tables over some tokens and the end of the input behind them, from a stack of states
above state zero. Answers the rules of its reductions in their order, if the tables accept within
`limit` steps. -/
def drive (t : Tables) : (limit : Nat) → (states : List StateId) → (tokens : List SymbolId) →
    Option (List RuleId)
  | 0, _, _ => none
  | limit + 1, states, tokens =>
      match t.action (states.headD 0) (tokens.headD endSymbol) with
      | .shift next => if tokens = [] then none else t.drive limit (next :: states) tokens.tail
      | .reduce rule =>
          (t.reduction? (tokens.headD endSymbol) states).bind fun after =>
            (t.drive limit after tokens).map (rule :: ·)
      | .accept => some []
      | .error => none

/-- The driver accepts some tokens after the reductions by some rules. -/
def Drives (t : Tables) (states : List StateId) (tokens : List SymbolId) (rules : List RuleId) : Prop :=
  ∃ limit, t.drive limit states tokens = some rules

section
variable {t : Tables} {states : List StateId} {tokens : List SymbolId} {rules : List RuleId}

theorem Drives.accept (hAccept : t.action (states.headD 0) (tokens.headD endSymbol) = .accept) :
    t.Drives states tokens [] := ⟨1, by simp only [drive, hAccept]⟩

theorem Drives.shift {token : SymbolId} {next : StateId}
    (hShift : t.action (states.headD 0) token = .shift next)
    (hRest : t.Drives (next :: states) tokens rules) : t.Drives states (token :: tokens) rules := by
  obtain ⟨limit, hDrive⟩ := hRest
  exact ⟨limit + 1, by simp [drive, List.headD_cons, hShift, hDrive, -List.headD_eq_head?_getD]⟩

theorem Drives.reduce {rule : RuleId} {after : List StateId}
    (hReduce : t.action (states.headD 0) (tokens.headD endSymbol) = .reduce rule)
    (hStep : t.reduction? (tokens.headD endSymbol) states = some after)
    (hRest : t.Drives after tokens rules) : t.Drives states tokens (rule :: rules) := by
  obtain ⟨limit, hDrive⟩ := hRest
  exact ⟨limit + 1, by simp only [drive, hReduce, hStep, hDrive, Option.bind_some, Option.map_some]⟩

end

namespace Faithful
open Generated
variable {g : Grammar} {m : Automaton} {t : Tables}

/-- A reduction takes the right-hand side of its rule off the path and puts a step by the left-hand
side in its place. -/
theorem exists_reduction (h : Faithful g m t) (hProper : g.Proper)
    {steps : List (SymbolId × StateId)} (hPath : m.Path steps) {terminal : SymbolId} {rule : RuleId}
    (hReduce : t.action (Automaton.endOf steps) terminal = .reduce rule) :
    ∃ info next above below, g.rules[rule]? = some info ∧ steps = above ++ below
      ∧ (above.map (·.1)).reverse = info.symbols ∧ m.Path ((info.lhs, next) :: below)
      ∧ t.reduction? terminal (steps.map (·.2)) = some (next :: below.map (·.2)) := by
  obtain ⟨info, next, hRule, -, hSymbols, hMove, hGoto⟩ := h.reduction hProper hPath hReduce
  have hInfo := hRule
  rw [h.rules, Array.getElem?_map] at hInfo
  obtain ⟨source, hSource, rfl⟩ := Option.map_eq_some_iff.mp hInfo
  have hSplit := List.take_append_drop source.rhs.length steps
  have hBelow : m.Path (steps.drop source.rhs.length) := by
    rw [← hSplit] at hPath
    exact hPath.of_append
  refine ⟨source, next, _, _, hSource, hSplit.symm, hSymbols, hBelow.cons hMove, ?_⟩
  rw [List.map_drop]
  exact reduction?_of_reduce (by rw [headD_states, hReduce]) hRule
    (by rw [← List.map_drop, headD_states, hGoto])

/-- What the driver has read and reduced, with what is left of the tokens, is a form of a rightmost
derivation. -/
theorem rightmost (h : Faithful g m t) (hProper : g.Proper) (limit : Nat)
    {steps : List (SymbolId × StateId)} (hPath : m.Path steps) {tokens : List SymbolId}
    (hTokens : endSymbol ∉ tokens) {rules : List RuleId}
    (hDrive : t.drive limit (steps.map (·.2)) tokens = some rules) :
    (∀ token ∈ tokens, g.isTerminal token = true)
      ∧ g.Rightmost [g.start] rules.reverse ((steps.map (·.1)).reverse ++ tokens) := by
  induction limit generalizing steps tokens rules with
  | zero => simp [drive] at hDrive
  | succ limit ih =>
      rw [drive, headD_states] at hDrive
      cases hAction : t.action (Automaton.endOf steps) (tokens.headD endSymbol) with
      | error =>
          rw [hAction] at hDrive
          simp at hDrive
      | shift next =>
          rw [hAction] at hDrive
          cases tokens with
          | nil => simp at hDrive
          | cons token rest =>
              rw [List.headD_cons] at hAction
              obtain ⟨hRest, hForm⟩ := ih (hPath.cons (h.shift hAction))
                (fun hMem => hTokens (List.mem_cons_of_mem _ hMem)) hDrive
              have hToken : g.isTerminal token = true := by
                rw [← h.isTerminal_iff]
                by_contra hNot
                rw [action, if_neg hNot] at hAction
                simp at hAction
              refine ⟨List.forall_mem_cons.mpr ⟨hToken, hRest⟩, ?_⟩
              simpa using hForm
      | reduce rule =>
          rw [hAction] at hDrive
          obtain ⟨after, hStep, hMap⟩ := Option.bind_eq_some_iff.mp hDrive
          obtain ⟨rules, hRest, rfl⟩ := Option.map_eq_some_iff.mp hMap
          obtain ⟨info, next, above, below, hRule, rfl, hSymbols, hAfter, hSame⟩ :=
            h.exists_reduction hProper hPath hAction
          obtain rfl := Option.some.inj (hStep.symm.trans hSame)
          obtain ⟨hTerminals, hForm⟩ := ih hAfter hTokens hRest
          refine ⟨hTerminals, ?_⟩
          rw [List.reverse_cons, List.map_append, List.reverse_append, hSymbols]
          exact .step (by simpa using hForm) hRule hTerminals
      | accept =>
          rw [hAction] at hDrive
          obtain rfl := Option.some.inj hDrive
          obtain ⟨next, rfl⟩ := h.steps_of_accept hPath hAction
          cases tokens with
          | nil =>
              rw [h.start]
              exact ⟨by simp, .refl⟩
          | cons token rest =>
              have hEnd : token = endSymbol := (h.accept hAction).1
              exact absurd (hEnd ▸ List.mem_cons_self) hTokens

end Faithful

namespace Generated
variable {g : Grammar} {m : Automaton} {t : Tables}

/-- The shift of a symbol that an item waits for is considered. -/
theorem shift_mem_candidates (h : Generated g m t) {state next : StateId} {symbol : Nat}
    (hMove : (symbol, next) ∈ m.transitions.getD state []) (hTerminal : g.isTerminal symbol = true) :
    .shift next ∈ m.candidates g state symbol := by
  obtain ⟨other, hShift⟩ := Automaton.shifts_of_move hMove hTerminal
  have hSame : other = next := by
    rcases Automaton.shift_of_shifts hShift with hNone | ⟨found, hFound, hOther⟩
    · simp at hNone
    · obtain rfl := Action.shift.inj hFound
      exact h.explored.move_unique hOther hMove
  refine List.mem_append_left _ (List.mem_filter.mpr ⟨?_, by simp⟩)
  rw [Array.getD_eq_getD_getElem?, hShift, hSame]
  exact List.mem_singleton_self _

/-- What a complete item asks for is considered at everything that is expected behind it. -/
theorem complete_mem_candidates (h : Generated g m t) (hProper : g.Proper)
    {steps : List (SymbolId × StateId)} {item : Item} {behind : SymbolId}
    (hViable : m.Viable g steps item behind) (hComplete : (Augmented.ofGrammar g).next? item = none)
    {action : Action} (hAsks : ∀ set : IdSet, set.contains behind = true →
      g.candidate? behind (item, set) = some action) :
    action ∈ m.candidates g (Automaton.endOf steps) behind := by
  obtain ⟨set, hMem, hContains⟩ := hViable.expects.found h.explored hProper
  refine List.mem_append_right _ (List.mem_filterMap.mpr ⟨(item, set), ?_, hAsks set hContains⟩)
  refine List.mem_filter.mpr ⟨by simpa using hMem, ?_⟩
  simp [Augmented.isComplete, hComplete]

/-- What is behind the mark of an item. -/
theorem next?_of_drop {item : Item} {symbol : SymbolId} {form : List SymbolId}
    (hForm : ((Augmented.ofGrammar g).symbolsOf item.rule).toList.drop item.dot = symbol :: form) :
    (Augmented.ofGrammar g).next? item = some symbol ∧ (Augmented.ofGrammar g).rest item = form
      ∧ ((Augmented.ofGrammar g).symbolsOf item.rule).toList.drop (item.dot + 1) = form := by
  have hTail : ((Augmented.ofGrammar g).symbolsOf item.rule).toList.drop (item.dot + 1) = form := by
    rw [← List.drop_drop, hForm, List.drop_one, List.tail_cons]
  refine ⟨?_, ?_, hTail⟩
  · rw [Augmented.next?, ← Array.getElem?_toList, ← List.head?_drop, hForm, List.head?_cons]
  · rw [Augmented.rest, Array.toList_extract, ← hTail]
    simp

theorem next?_of_drop_nil {item : Item}
    (hForm : ((Augmented.ofGrammar g).symbolsOf item.rule).toList.drop item.dot = []) :
    (Augmented.ofGrammar g).next? item = none := by
  rw [Augmented.next?, ← Array.getElem?_toList, ← List.head?_drop, hForm, List.head?_nil]

end Generated

namespace Faithful
open Generated
variable {g : Grammar} {m : Automaton} {t : Tables}

/-- The driver follows the trees of a form, wherever an item waits for the form. -/
theorem drives_form (h : Faithful g m t) (hProper : g.Proper) (hFree : g.ConflictFree)
    {form tokens : List SymbolId} {rules : List RuleId} (hYields : g.Yields form tokens rules)
    {steps : List (SymbolId × StateId)} {item : Item} {rest : List SymbolId}
    (hViable : m.Viable g steps item (rest.headD endSymbol))
    (hForm : ((Augmented.ofGrammar g).symbolsOf item.rule).toList.drop item.dot = form) :
    ∃ pushed, pushed.length = form.length
      ∧ m.Viable g (pushed ++ steps) ⟨item.rule, item.dot + form.length⟩ (rest.headD endSymbol)
      ∧ ∀ after, t.Drives ((pushed ++ steps).map (·.2)) rest after →
          t.Drives (steps.map (·.2)) (tokens ++ rest) (rules ++ after) := by
  induction hYields generalizing steps item rest with
  | nil => exact ⟨[], rfl, hViable, fun after hDrives => hDrives⟩
  | @terminal symbol form tokens rules hTerminal _ ih =>
      obtain ⟨hNext, -, hTail⟩ := next?_of_drop hForm
      obtain ⟨next, hMove, hAdvance⟩ := hViable.advance h.states hProper hNext
      have hLess : symbol < g.terminalCount := by simpa [Grammar.isTerminal] using hTerminal
      have hShift := h.action_of_candidate hFree (hViable.path.endOf_lt h.explored) hLess
        (h.shift_mem_candidates hMove hTerminal)
      obtain ⟨pushed, hLength, hLast, hDrives⟩ := ih hAdvance hTail
      refine ⟨pushed ++ [(symbol, next)], by simp [hLength], ?_, fun after hAfter => ?_⟩
      · rw [List.append_assoc, List.length_cons, Nat.add_comm form.length, ← Nat.add_assoc]
        exact hLast
      · rw [List.append_assoc] at hAfter
        exact .shift (by rw [headD_states, hShift]) (hDrives after hAfter)
  | @rule rule info form inner tokens before rules hRule _ hRest ihInner ihRest =>
      obtain ⟨hNext, hBehind, hTail⟩ := next?_of_drop hForm
      have hSymbols : (Augmented.ofGrammar g).symbolsOf rule = info.symbols.toArray :=
        Augmented.symbolsOf_rule hRule
      have hExpand := hViable.expand hProper hRule hNext (hBehind ▸ hRest)
      have hSame : (tokens ++ rest).headD endSymbol = tokens.headD (rest.headD endSymbol) := by
        cases tokens <;> rfl
      rw [← hSame] at hExpand
      obtain ⟨pushed, hLength, hComplete, hInnerDrives⟩ := ihInner hExpand (by simp [hSymbols])
      rw [Nat.zero_add] at hComplete
      have hNone : (Augmented.ofGrammar g).next? ⟨rule, info.symbols.length⟩ = none :=
        next?_of_drop_nil (by simp [hSymbols])
      have hLess : rule < g.rules.size := (Array.getElem?_eq_some_iff.mp hRule).1
      have hReduce := h.action_of_candidate hFree (hComplete.path.endOf_lt h.explored)
        (hComplete.expects.lt hProper)
        (h.complete_mem_candidates hProper hComplete hNone fun set hContains => by
          simp only [Grammar.candidate?, hContains, if_true]
          rw [if_neg (Nat.ne_of_lt hLess), h.cellRule_eq hLess])
      obtain ⟨source, next, above, below, hSource, hSplit, hAbove, hPath, hStep⟩ :=
        h.exists_reduction hProper hComplete.path hReduce
      obtain rfl := Option.some.inj (hRule.symm.trans hSource)
      obtain ⟨rfl, rfl⟩ := List.append_inj hSplit (by rw [hLength, ← hAbove]; simp)
      obtain ⟨other, hMove, hAdvance⟩ := hViable.advance h.states hProper hNext
      cases hPath with
      | cons _ hHere =>
      obtain rfl := h.explored.move_unique hMove hHere
      obtain ⟨more, hMore, hLast, hRestDrives⟩ := ihRest hAdvance hTail
      refine ⟨more ++ [(info.lhs, other)], by simp [hMore], ?_, fun after hAfter => ?_⟩
      · rw [List.append_assoc, List.length_cons, Nat.add_comm form.length, ← Nat.add_assoc]
        exact hLast
      · rw [List.append_assoc] at hAfter
        rw [List.append_assoc, List.append_assoc, List.cons_append]
        exact hInnerDrives _ (.reduce (by rw [headD_states, hReduce]) hStep (hRestDrives after hAfter))

/-- The driver accepts what the start symbol stands for. -/
theorem drives_of_yields (h : Faithful g m t) (hProper : g.Proper) (hFree : g.ConflictFree)
    {tokens : List SymbolId} {rules : List RuleId} (hYields : g.Yields [g.start] tokens rules) :
    t.Drives [] tokens rules := by
  have hStart := h.explored.viable_start hProper
  have hForm : ((Augmented.ofGrammar g).symbolsOf g.rules.size).toList.drop 0 = [g.start] := by
    rw [Augmented.symbolsOf_startRule]
    rfl
  obtain ⟨pushed, -, hLast, hDrives⟩ := @drives_form g m t h hProper hFree _ _ _ hYields [] _ [] hStart hForm
  have hNone : (Augmented.ofGrammar g).next? ⟨g.rules.size, 0 + [g.start].length⟩ = none :=
    next?_of_drop_nil (by rw [Augmented.symbolsOf_startRule]; rfl)
  have hCandidate : .accept ∈ m.candidates g (Automaton.endOf (pushed ++ [])) endSymbol := by
    refine h.complete_mem_candidates hProper hLast hNone fun set hContains => ?_
    rw [Grammar.candidate?, if_pos hContains, if_pos rfl, if_pos List.headD_nil]
  have hAccept := h.action_of_candidate hFree (hLast.path.endOf_lt h.explored)
    (hLast.expects.lt hProper) hCandidate
  simpa using hDrives [] (.accept (by rw [headD_states]; exact hAccept))

end Faithful
end Tables

end IncrementalParsing
