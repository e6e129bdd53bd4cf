import IncrementalParsing.Proofs.Grammar.Writing

/-! Descriptions as rows of calls, each with an answer. A call that is refused changes nothing that any
later call could show. The first one for a nonterminal is the exception: it closes the set of terminals,
whether or not it is refused. -/
namespace IncrementalParsing
namespace GrammarDraft

/-- What can be asked of a description. -/
inductive Call where
  | terminal (name : String) (named : Bool)
  | errorTerminal (name : String)
  | nonterminal (name : String)
  | field (name : String)
  | symbol (name : String)
  | setPrecedence (token : SymbolId) (precedence : Precedence)
  | setStart (start : SymbolId)
  | rule (lhs : SymbolId) (rhs : List Slot) (precedence : Option Precedence)
deriving DecidableEq, Repr

/-- The call is for a nonterminal. -/
def Call.isNonterminal : Call → Bool
  | .nonterminal _ => true
  | _ => false

/-- What a step comes to as a call. -/
def told {α : Type} (say : α → Option Nat) (m : Describe α) (b : GrammarDraft) :
    Except GrammarFault (Option Nat) × GrammarDraft :=
  ((m.run.run b).1.map say, (m.run.run b).2)

/-- A call, with its answer and the description behind it. The answer is the number of a symbol or a
field, if the call is for one. -/
def call (b : GrammarDraft) : Call → Except GrammarFault (Option Nat) × GrammarDraft
  | .terminal name named => told some (GrammarDraft.terminal name named) b
  | .errorTerminal name => told some (GrammarDraft.errorTerminal name) b
  | .nonterminal name => told some (GrammarDraft.nonterminal name) b
  | .field name => told some (GrammarDraft.field name) b
  | .symbol name => (.ok (b.symbol? name), b)
  | .setPrecedence token precedence => told (fun _ => none) (GrammarDraft.setPrecedence token precedence) b
  | .setStart start => told (fun _ => none) (GrammarDraft.setStart start) b
  | .rule lhs rhs precedence => told (fun _ => none) (GrammarDraft.rule lhs rhs precedence) b

/-- The answer to a call, or why it is refused. -/
def answer (b : GrammarDraft) (c : Call) : Except GrammarFault (Option Nat) := (b.call c).1

/-- The description after a call. -/
def after (b : GrammarDraft) (c : Call) : GrammarDraft := (b.call c).2

/-- The description after some calls, whatever they are answered. -/
def afterAll (b : GrammarDraft) (calls : List Call) : GrammarDraft :=
  calls.foldl after b

/-- The answers to some calls. -/
def answers : GrammarDraft → List Call → List (Except GrammarFault (Option Nat))
  | _, [] => []
  | b, c :: calls => b.answer c :: answers (b.after c) calls

/-- No calls tell one description from the other, by their answers or by what is built in the end. -/
def Alike (b c : GrammarDraft) : Prop :=
  ∀ calls, b.answers calls = c.answers calls ∧ (b.afterAll calls).build = (c.afterAll calls).build

/-- No terminal can be declared any more. -/
def closed (b : GrammarDraft) : GrammarDraft :=
  { b with terminalCount := some (b.terminalCount.getD b.symbols.size) }

section
variable {b : GrammarDraft} {c : Call} {cause : GrammarFault}

/-- A call is a step, or it only looks something up. -/
theorem step_after (b : GrammarDraft) (c : Call) : b.after c = b ∨ Step b (b.after c) := by
  cases c with
  | symbol name => exact .inl rfl
  | terminal name named => exact .inr (.terminal b name named)
  | errorTerminal name => exact .inr (.errorTerminal b name)
  | nonterminal name => exact .inr (.nonterminal b name)
  | field name => exact .inr (.field b name)
  | setPrecedence token precedence => exact .inr (.setPrecedence b token precedence)
  | setStart start => exact .inr (.setStart b start)
  | rule lhs rhs precedence => exact .inr (.rule b lhs rhs precedence)

theorem Described.afterAll (h : b.Described) (calls : List Call) : (b.afterAll calls).Described := by
  induction calls generalizing b with
  | nil => exact h
  | cons c calls ih =>
      refine ih ?_
      rcases step_after b c with hSame | hStep
      · exact hSame.symm ▸ h
      · exact h.step hStep

/-- A symbol that cannot be declared is not, and the set of terminals is not why. -/
theorem declare_refused {name : String} {traits : SymbolTraits}
    (hRefused : ((declare name traits).run.run b).1 = .error cause) :
    ((declare name traits).run.run b).2 = b ∧ ∀ other, cause ≠ .terminalAfterNonterminal other := by
  rw [declare_run] at hRefused ⊢
  by_cases hTaken : b.ids.contains name
  · rw [if_pos hTaken] at hRefused ⊢
    obtain rfl := Except.error.inj hRefused
    exact ⟨rfl, fun _ => GrammarFault.noConfusion⟩
  · rw [if_neg hTaken] at hRefused ⊢
    by_cases hFull : maxSymbols ≤ b.symbols.size
    · rw [if_pos hFull] at hRefused ⊢
      obtain rfl := Except.error.inj hRefused
      exact ⟨rfl, fun _ => GrammarFault.noConfusion⟩
    · rw [if_neg hFull] at hRefused
      cases hRefused

/-- A terminal that is refused leaves the draft as it was. -/
theorem declareTerminal_refused {name : String} {traits : SymbolTraits}
    (hRefused : ((declareTerminal name traits).run.run b).1 = .error cause) :
    ((declareTerminal name traits).run.run b).2 = b := by
  rw [declareTerminal_run] at hRefused ⊢
  split
  · rfl
  · rename_i hOpen
    rw [if_neg hOpen] at hRefused
    exact (declare_refused hRefused).1

theorem map_eq_error {α β : Type} {f : α → β} {found : Except GrammarFault α}
    (h : found.map f = .error cause) : found = .error cause := by
  cases found with
  | error other => exact congrArg _ (Except.error.inj h)
  | ok a => cases h

/-- A call that is refused leaves the description as it is, or closes the set of terminals. -/
theorem after_of_refused (hRefused : b.answer c = .error cause) :
    b.after c = if c.isNonterminal then b.closed else b := by
  cases c with
  | terminal name named => exact declareTerminal_refused (map_eq_error hRefused)
  | errorTerminal name => exact declareTerminal_refused (map_eq_error hRefused)
  | nonterminal name =>
      have hDeclare := map_eq_error hRefused
      rw [nonterminal_run] at hDeclare
      rw [after, call, told, nonterminal_run]
      exact (declare_refused hDeclare).1
  | field name =>
      have hField := map_eq_error hRefused
      rw [field_run] at hField
      split at hField <;> cases hField
  | symbol name | setPrecedence token precedence | setStart start => cases hRefused
  | rule lhs rhs precedence =>
      have hRule := map_eq_error hRefused
      rw [after, call, told]
      rw [rule_run] at hRule ⊢
      cases hError : b.ruleError? lhs rhs with
      | some other => rfl
      | none =>
          rw [hError] at hRule
          cases hRule

theorem declare_terminalCount (name : String) (traits : SymbolTraits) :
    ((declare name traits).run.run b).2.terminalCount = b.terminalCount := by
  rw [declare_run]
  split
  · rfl
  · split <;> rfl

theorem declareTerminal_terminalCount (name : String) (traits : SymbolTraits) :
    ((declareTerminal name traits).run.run b).2.terminalCount = b.terminalCount := by
  rw [declareTerminal_run]
  split
  · rfl
  · exact declare_terminalCount name traits

/-- Calls for nonterminals close the set of terminals, and no others do. -/
theorem terminalCount_after (b : GrammarDraft) (c : Call) :
    (b.after c).terminalCount = if c.isNonterminal then b.closed.terminalCount else b.terminalCount := by
  cases c with
  | terminal name named => exact declareTerminal_terminalCount name _
  | errorTerminal name => exact declareTerminal_terminalCount name _
  | nonterminal name =>
      rw [after, call, told, nonterminal_run]
      exact declare_terminalCount name _
  | field name =>
      rw [after, call, told, field_run]
      split <;> rfl
  | symbol name | setPrecedence token precedence | setStart start => rfl
  | rule lhs rhs precedence =>
      rw [after, call, told, rule_run]
      split <;> rfl

theorem afterAll_cons (b : GrammarDraft) (c : Call) (calls : List Call) :
    b.afterAll (c :: calls) = (b.after c).afterAll calls := rfl

theorem afterAll_append (b : GrammarDraft) (calls more : List Call) :
    b.afterAll (calls ++ more) = (b.afterAll calls).afterAll more := List.foldl_append

/-- The set of terminals is open as long as no call is for a nonterminal. -/
theorem terminalCount_afterAll (b : GrammarDraft) (calls : List Call) :
    (b.afterAll calls).terminalCount = none
      ↔ b.terminalCount = none ∧ calls.any Call.isNonterminal = false := by
  induction calls generalizing b with
  | nil => simp [GrammarDraft.afterAll]
  | cons c calls ih =>
      rw [afterAll_cons, ih, terminalCount_after, List.any_cons]
      cases c.isNonterminal <;> simp [closed]

/-- Terminals that are closed stay so. -/
theorem closed_eq_self (hClosed : b.terminalCount ≠ none) : b.closed = b := by
  obtain ⟨count, hCount⟩ := Option.ne_none_iff_exists'.mp hClosed
  rw [closed, hCount, Option.getD_some, ← hCount]

theorem Alike.refl (b : GrammarDraft) : b.Alike b :=
  fun _ => ⟨rfl, rfl⟩

/-- The next terminal shows that the set of terminals has been closed. -/
theorem not_alike_closed (hOpen : b.terminalCount = none) : ¬ b.closed.Alike b := by
  intro hAlike
  have hRefused : b.closed.answer (.terminal "" false) = .error (.terminalAfterNonterminal "") := by
    rw [answer, call, told, GrammarDraft.terminal, declareTerminal_run]
    rfl
  have hSame : b.closed.answer (.terminal "" false) = b.answer (.terminal "" false) :=
    (List.cons.inj (hAlike [.terminal "" false]).1).1
  have hDeclare := map_eq_error (hSame.symm.trans hRefused)
  rw [GrammarDraft.terminal, declareTerminal_run, hOpen] at hDeclare
  exact (declare_refused hDeclare).2 "" rfl

end

/-- What is refused changes nothing, unless it is the first call for a nonterminal. That one closes the
set of terminals, which a later call can show. -/
theorem refused_changes_nothing_iff {name : String} {calls : List Call} {c : Call} {cause : GrammarFault}
    (hRefused : ((empty name).afterAll calls).answer c = .error cause) :
    (((empty name).afterAll (calls ++ [c])).Alike ((empty name).afterAll calls)
        ↔ ¬ (c.isNonterminal = true ∧ calls.any Call.isNonterminal = false))
      ∧ (empty name).afterAll (calls ++ [c])
        = if c.isNonterminal then ((empty name).afterAll calls).closed
          else (empty name).afterAll calls := by
  have hAfter := after_of_refused hRefused
  have hOpen : ((empty name).afterAll calls).terminalCount = none
      ↔ calls.any Call.isNonterminal = false :=
    (terminalCount_afterAll _ _).trans (and_iff_right rfl)
  rw [afterAll_append, afterAll_cons, hAfter, GrammarDraft.afterAll, List.foldl_nil]
  refine ⟨⟨fun hAlike hFirst => ?_, fun hOther => ?_⟩, rfl⟩
  · rw [if_pos hFirst.1] at hAlike
    exact not_alike_closed (hOpen.mpr hFirst.2) hAlike
  · split
    · rename_i hNonterminal
      rw [closed_eq_self fun hNone => hOther ⟨hNonterminal, hOpen.mp hNone⟩]
      exact .refl _
    · exact .refl _

/-- A nonterminal that is declared twice is refused. The set of terminals has been closed before. -/
theorem refused_again_changes_nothing :
    ((empty "g").afterAll [.terminal "a" true, .nonterminal "s"]).answer (.nonterminal "s")
        = .error (.duplicateSymbol "s")
      ∧ ((empty "g").afterAll ([.terminal "a" true, .nonterminal "s"] ++ [.nonterminal "s"])).Alike
        ((empty "g").afterAll [.terminal "a" true, .nonterminal "s"]) := by
  have hRefused : ((empty "g").afterAll [.terminal "a" true, .nonterminal "s"]).answer (.nonterminal "s")
      = .error (.duplicateSymbol "s") := by
    simp [GrammarDraft.afterAll, after, answer, call, told, GrammarDraft.terminal,
      declareTerminal_run, nonterminal_run, declare_run, empty, maxSymbols, Except.map]
  exact ⟨hRefused, (refused_changes_nothing_iff hRefused).1.mpr fun hFirst => by
    simp [Call.isNonterminal] at hFirst⟩

/-- A nonterminal with the name of a reserved symbol is refused. A terminal can be declared in its place,
and cannot be declared behind it. -/
theorem not_alike_of_refused_nonterminal :
    (empty "g").answer (.nonterminal "end") = .error (.duplicateSymbol "end")
      ∧ (empty "g").answer (.terminal "a" false) = .ok (some 2)
      ∧ ((empty "g").after (.nonterminal "end")).answer (.terminal "a" false)
        = .error (.terminalAfterNonterminal "a")
      ∧ ¬ ((empty "g").after (.nonterminal "end")).Alike (empty "g") := by
  have hRefused : (empty "g").answer (.nonterminal "end") = .error (.duplicateSymbol "end") := by
    simp [answer, call, told, nonterminal_run, declare_run, empty, Except.map]
  refine ⟨hRefused, ?_, ?_, ?_⟩
  · simp [answer, call, told, GrammarDraft.terminal, declareTerminal_run, declare_run, empty,
      maxSymbols, Except.map]
  · rw [after_of_refused hRefused, answer, call, told, GrammarDraft.terminal, declareTerminal_run]
    rfl
  · rw [after_of_refused hRefused]
    exact not_alike_closed rfl

end GrammarDraft
end IncrementalParsing
