import IncrementalParsing.Grammar.Draft
import Mathlib.Logic.Relation

/-! What every description of a grammar has in common, in whatever order its steps come and
whichever of them fail. A grammar that passes the last check inherits it. -/
namespace IncrementalParsing

/-! ### Calls that fail keep what they have written -/

section
variable {ε σ : Type}

/-- A call behind another one is made on the draft that the first one leaves, unless that was refused. -/
theorem run_bind {α β : Type} (m : ExceptT ε (StateM σ) α) (f : α → ExceptT ε (StateM σ) β) (s : σ) :
    (m >>= f).run.run s = match m.run.run s with
      | (.ok a, t) => (f a).run.run t
      | (.error cause, t) => (.error cause, t) := by
  have hBind : (m >>= f).run.run s = (fun found : Except ε α × σ =>
      (ExceptT.bindCont f found.1).run found.2) (m.run.run s) := rfl
  rw [hBind]
  rcases m.run.run s with ⟨_ | a, t⟩ <;> rfl

theorem run_get (s : σ) : (get : ExceptT ε (StateM σ) σ).run.run s = (.ok s, s) := rfl

theorem run_modify (f : σ → σ) (s : σ) :
    (modify f : ExceptT ε (StateM σ) Unit).run.run s = (.ok (), f s) := rfl

end

namespace GrammarDraft

/-- A symbol is refused if its name is taken or there is no room, and entered at the end otherwise. -/
theorem declare_run (name : String) (traits : SymbolTraits) (b : GrammarDraft) :
    (declare name traits).run.run b =
      if b.ids.contains name then (.error (.duplicateSymbol name), b)
      else if maxSymbols ≤ b.symbols.size then (.error (.tooManySymbols maxSymbols), b)
      else (.ok b.symbols.size,
          { b with
            symbols := b.symbols.push ⟨name, traits⟩
            ids := b.ids.insert name b.symbols.size }) := by
  rw [declare, run_bind, run_get]
  dsimp only
  split
  · rfl
  · split <;> rfl

/-- A terminal is refused once the terminals are closed. -/
theorem declareTerminal_run (name : String) (traits : SymbolTraits) (b : GrammarDraft) :
    (declareTerminal name traits).run.run b =
      if b.terminalCount.isSome then (.error (.terminalAfterNonterminal name), b)
      else (declare name traits).run.run b := by
  rw [declareTerminal, run_bind, run_get]
  dsimp only
  split <;> rfl

/-- A nonterminal closes the terminals first, also if it is refused then. -/
theorem nonterminal_run (name : String) (b : GrammarDraft) :
    (nonterminal name).run.run b =
      (declare name ⟨false, !name.startsWith "_", name.startsWith "_", false⟩).run.run
        { b with terminalCount := some (b.terminalCount.getD b.symbols.size) } := by
  rw [nonterminal, run_bind, run_modify]

/-- A field that is there already is found, and a new one is entered at the end if there is room. -/
theorem field_run (name : String) (b : GrammarDraft) :
    (field name).run.run b = match b.fields.findIdx? (· == name) with
      | some index => (.ok (index + 1), b)
      | none => (.ok (b.fields.size + 1), { b with fields := b.fields.push name }) := by
  rw [field, run_bind, run_get]
  dsimp only
  cases b.fields.findIdx? (· == name) <;> rfl

/-- A rule is entered at the end if nothing is wrong with it. -/
theorem rule_run (lhs : SymbolId) (rhs : List Slot) (precedence : Option Precedence)
    (b : GrammarDraft) :
    (rule lhs rhs precedence).run.run b = match b.ruleError? lhs rhs with
      | some cause => (.error cause, b)
      | none => (.ok (), { b with rules := b.rules.push ⟨⟨lhs, rhs⟩, precedence⟩ }) := by
  rw [rule, run_bind, run_get]
  dsimp only
  cases b.ruleError? lhs rhs <;> rfl

/-- What is wrong with a rule depends on the symbols and the fields that are declared. -/
theorem ruleError?_congr {b c : GrammarDraft} (hSymbols : b.symbols = c.symbols)
    (hFields : b.fields = c.fields) (lhs : SymbolId) (rhs : List Slot) :
    b.ruleError? lhs rhs = c.ruleError? lhs rhs := by
  have hSlot : b.slotError? = c.slotError? := by
    funext slot
    rw [slotError?, slotError?, hSymbols, hFields]
  rw [ruleError?, ruleError?, hSymbols, hSlot]

/-- One step of a description. A step that fails may still leave a trace. -/
inductive Step : GrammarDraft → GrammarDraft → Prop
  | terminal (b : GrammarDraft) (name : String) (named : Bool) :
      Step b ((terminal name named).run.run b).2
  | errorTerminal (b : GrammarDraft) (name : String) :
      Step b ((errorTerminal name).run.run b).2
  | nonterminal (b : GrammarDraft) (name : String) : Step b ((nonterminal name).run.run b).2
  | field (b : GrammarDraft) (name : String) : Step b ((field name).run.run b).2
  | setPrecedence (b : GrammarDraft) (symbol : SymbolId) (precedence : Precedence) :
      Step b ((setPrecedence symbol precedence).run.run b).2
  | setStart (b : GrammarDraft) (symbol : SymbolId) : Step b ((setStart symbol).run.run b).2
  | rule (b : GrammarDraft) (lhs : SymbolId) (rhs : List Slot) (precedence : Option Precedence) :
      Step b ((rule lhs rhs precedence).run.run b).2

/-- What some steps make of the empty description. -/
def Described (b : GrammarDraft) : Prop :=
  ∃ name, Relation.ReflTransGen Step (empty name) b

/-- The place of a rule's parts among the symbols and fields that have been declared. -/
structure Placed (b : GrammarDraft) (r : Rule) : Prop where
  lhs : ∃ info, b.symbols[r.lhs]? = some info ∧ info.traits.terminal = false
  symbol : ∀ slot ∈ r.rhs,
    slot.symbol < b.symbols.size ∧ slot.symbol ≠ endSymbol ∧ slot.symbol ≠ errorSymbol
  field : ∀ slot ∈ r.rhs, ∀ field, slot.field = some field → 0 < field ∧ field ≤ b.fields.size

/-- Terminals stand in front of nonterminals and are never hidden, and rules are made of symbols
that have been declared. -/
structure WellFormed (b : GrammarDraft) : Prop where
  reserved : 2 ≤ b.terminalCount.getD b.symbols.size
  bounded : b.terminalCount.getD b.symbols.size ≤ b.symbols.size
  terminal : ∀ i info, b.symbols[i]? = some info →
    info.traits.terminal = decide (i < b.terminalCount.getD b.symbols.size)
  shown : ∀ info ∈ b.symbols, info.traits.terminal = true → info.traits.hidden = false
  rules : ∀ r ∈ b.rules, b.Placed r

theorem wellFormed_empty (name : String) : (empty name).WellFormed where
  reserved := by simp [empty]
  bounded := by simp [empty]
  terminal := by
    intro i info hInfo
    match i with
    | 0 =>
        obtain rfl : _ = info := by simpa [empty] using hInfo
        rfl
    | 1 =>
        obtain rfl : _ = info := by simpa [empty] using hInfo
        rfl
    | i + 2 => simp [empty] at hInfo
  shown := by simp [empty, SymbolTraits.none]
  rules := by simp [empty]

variable {b : GrammarDraft}

/-- A rule keeps its place while symbols and fields are added. -/
theorem Placed.mono {c : GrammarDraft} {r : Rule} (h : b.Placed r)
    (hSymbols : ∀ (i : Nat) info, b.symbols[i]? = some info → c.symbols[i]? = some info)
    (hSize : b.symbols.size ≤ c.symbols.size) (hFields : b.fields.size ≤ c.fields.size) :
    c.Placed r where
  lhs := by
    obtain ⟨info, hInfo, hTerminal⟩ := h.lhs
    exact ⟨info, hSymbols _ _ hInfo, hTerminal⟩
  symbol := fun slot hMem =>
    ⟨Nat.lt_of_lt_of_le (h.symbol slot hMem).1 hSize, (h.symbol slot hMem).2⟩
  field := fun slot hMem field hField =>
    ⟨(h.field slot hMem field hField).1, Nat.le_trans (h.field slot hMem field hField).2 hFields⟩

theorem getElem?_push_of_some {α : Type} {xs : Array α} {i : Nat} {x y : α}
    (hSome : xs[i]? = some x) : (xs.push y)[i]? = some x := by
  have hLess : i < xs.size := (Array.getElem?_eq_some_iff.mp hSome).1
  rw [Array.getElem?_push, if_neg (by omega), hSome]

/-- A new symbol stands behind all others. -/
theorem WellFormed.declare (h : b.WellFormed) (name : String) (traits : SymbolTraits)
    (hKind : traits.terminal = b.terminalCount.isNone)
    (hShown : traits.terminal = true → traits.hidden = false) :
    ((GrammarDraft.declare name traits).run.run b).2.WellFormed := by
  rw [declare_run]
  split
  · exact h
  · split
    · exact h
    · have hReserved := h.reserved
      have hBounded := h.bounded
      refine ⟨?_, ?_, ?_, ?_, ?_⟩
      · cases hCount : b.terminalCount <;> simp_all
        omega
      · cases hCount : b.terminalCount <;> simp_all
        omega
      · intro i info hInfo
        rw [Array.getElem?_push] at hInfo
        split at hInfo
        · rename_i hLast
          obtain rfl := Option.some.inj hInfo
          cases hCount : b.terminalCount <;> simp_all
        · rename_i hLast
          have hLess : i < b.symbols.size := (Array.getElem?_eq_some_iff.mp hInfo).1
          rw [h.terminal i info hInfo]
          cases hCount : b.terminalCount <;> simp
          omega
      · intro info hMem
        rcases Array.mem_push.mp hMem with hMem | rfl
        · exact h.shown info hMem
        · exact hShown
      · intro r hMem
        refine (h.rules r hMem).mono ?_ (by simp) (Nat.le_refl _)
        exact fun i info hSome => getElem?_push_of_some hSome

/-- A slot that is accepted names a symbol that rules may use, and a field if any. -/
theorem wellFormed_of_slotError? {slot : Slot} (hNone : b.slotError? slot = none) :
    (slot.symbol < b.symbols.size ∧ slot.symbol ≠ endSymbol ∧ slot.symbol ≠ errorSymbol)
      ∧ ∀ field, slot.field = some field → 0 < field ∧ field ≤ b.fields.size := by
  unfold slotError? at hNone
  split at hNone
  · simp at hNone
  · rename_i info hInfo
    have hLess : slot.symbol < b.symbols.size := (Array.getElem?_eq_some_iff.mp hInfo).1
    split at hNone
    · simp at hNone
    · rename_i hReserved
      rw [not_or] at hReserved
      refine ⟨⟨hLess, hReserved⟩, ?_⟩
      intro field hField
      rw [hField] at hNone
      dsimp only at hNone
      split at hNone
      · simp at hNone
      · rename_i hKnown
        rw [not_or] at hKnown
        exact ⟨Nat.pos_of_ne_zero hKnown.1, Nat.not_lt.mp hKnown.2⟩

/-- A call keeps a draft well-formed. -/
theorem WellFormed.step {c : GrammarDraft} (h : b.WellFormed) (hStep : Step b c) :
    c.WellFormed := by
  cases hStep with
  | terminal name named =>
      rw [GrammarDraft.terminal, declareTerminal_run]
      split
      · exact h
      · rename_i hOpen
        exact h.declare name _ (by simpa using hOpen) (by simp)
  | errorTerminal name =>
      rw [errorTerminal, declareTerminal_run]
      split
      · exact h
      · rename_i hOpen
        exact h.declare name _ (by simpa using hOpen) (by simp)
  | nonterminal name =>
      rw [nonterminal_run]
      have hClosed : ({ b with
          terminalCount := some (b.terminalCount.getD b.symbols.size) } : GrammarDraft).WellFormed :=
        ⟨h.reserved, h.bounded, h.terminal, h.shown, fun r hMem =>
          ⟨(h.rules r hMem).lhs, (h.rules r hMem).symbol, (h.rules r hMem).field⟩⟩
      exact hClosed.declare name _ rfl (by simp)
  | field name =>
      rw [field_run]
      split
      · exact h
      · exact ⟨h.reserved, h.bounded, h.terminal, h.shown, fun r hMem =>
          (h.rules r hMem).mono (fun _ _ hSome => hSome) (Nat.le_refl _) (by simp)⟩
  | setPrecedence symbol precedence =>
      exact ⟨h.reserved, h.bounded, h.terminal, h.shown, fun r hMem =>
        ⟨(h.rules r hMem).lhs, (h.rules r hMem).symbol, (h.rules r hMem).field⟩⟩
  | setStart symbol =>
      exact ⟨h.reserved, h.bounded, h.terminal, h.shown, fun r hMem =>
        ⟨(h.rules r hMem).lhs, (h.rules r hMem).symbol, (h.rules r hMem).field⟩⟩
  | rule lhs rhs precedence =>
      rw [rule_run]
      split
      · exact h
      · rename_i hNone
        refine ⟨h.reserved, h.bounded, h.terminal, h.shown, ?_⟩
        intro r hMem
        rcases Array.mem_push.mp hMem with hMem | rfl
        · exact ⟨(h.rules r hMem).lhs, (h.rules r hMem).symbol, (h.rules r hMem).field⟩
        · unfold ruleError? at hNone
          split at hNone
          · simp at hNone
          · rename_i info hInfo
            split at hNone
            · simp at hNone
            · rename_i hTerminal
              have hSlots := List.findSome?_eq_none_iff.mp hNone
              exact ⟨⟨info, hInfo, by simpa using hTerminal⟩,
                fun slot hSlot => (wellFormed_of_slotError? (hSlots slot hSlot)).1,
                fun slot hSlot => (wellFormed_of_slotError? (hSlots slot hSlot)).2⟩

/-- So every described draft is well-formed. -/
theorem Described.wellFormed (h : b.Described) : b.WellFormed := by
  obtain ⟨name, hSteps⟩ := h
  induction hSteps with
  | refl => exact wellFormed_empty name
  | tail _ hStep ih => exact ih.step hStep

variable {c : GrammarDraft}

/-- What is declared. Only terminals are error tokens, and only nonterminals with an underscore in front of
their names are hidden. -/
structure Declarable (entry : SymbolEntry) : Prop where
  errorToken : entry.traits.errorToken = true → entry.traits.terminal = true
  hidden : entry.traits.hidden = (!entry.traits.terminal && entry.name.startsWith "_")

/-- A step leaves the symbols and their names as they are, or adds a new one while there is room. -/
theorem Step.symbols (hStep : Step b c) :
    c.symbols = b.symbols ∧ c.ids = b.ids
      ∨ b.symbols.size < maxSymbols ∧ ∃ entry : SymbolEntry, Declarable entry
        ∧ b.ids.contains entry.name = false ∧ c.symbols = b.symbols.push entry
        ∧ c.ids = b.ids.insert entry.name b.symbols.size := by
  have hDeclare : ∀ (d : GrammarDraft) name (traits : SymbolTraits), d.symbols = b.symbols →
      d.ids = b.ids → Declarable ⟨name, traits⟩ →
      ((declare name traits).run.run d).2.symbols = b.symbols
          ∧ ((declare name traits).run.run d).2.ids = b.ids
        ∨ b.symbols.size < maxSymbols ∧ ∃ entry : SymbolEntry, Declarable entry
          ∧ b.ids.contains entry.name = false
          ∧ ((declare name traits).run.run d).2.symbols = b.symbols.push entry
          ∧ ((declare name traits).run.run d).2.ids = b.ids.insert entry.name b.symbols.size := by
    intro d name traits hSymbols hIds hDeclarable
    rw [declare_run, hSymbols, hIds]
    split
    · exact .inl ⟨hSymbols, hIds⟩
    · rename_i hNew
      split
      · exact .inl ⟨hSymbols, hIds⟩
      · rename_i hRoom
        exact .inr ⟨Nat.not_le.mp hRoom, ⟨name, traits⟩, hDeclarable, Bool.eq_false_iff.mpr hNew, rfl, rfl⟩
  cases hStep with
  | terminal name named =>
      rw [GrammarDraft.terminal, declareTerminal_run]
      split
      · exact .inl ⟨rfl, rfl⟩
      · exact hDeclare b _ _ rfl rfl ⟨by simp, by simp⟩
  | errorTerminal name =>
      rw [GrammarDraft.errorTerminal, declareTerminal_run]
      split
      · exact .inl ⟨rfl, rfl⟩
      · exact hDeclare b _ _ rfl rfl ⟨by simp, by simp⟩
  | nonterminal name =>
      rw [nonterminal_run]
      exact hDeclare _ _ _ rfl rfl ⟨by simp, by simp⟩
  | field name =>
      rw [field_run]
      split <;> exact .inl ⟨rfl, rfl⟩
  | setPrecedence symbol precedence => exact .inl ⟨rfl, rfl⟩
  | setStart symbol => exact .inl ⟨rfl, rfl⟩
  | rule lhs rhs precedence =>
      rw [rule_run]
      split <;> exact .inl ⟨rfl, rfl⟩

/-- The reserved symbols come first and keep their names, error tokens are terminals behind them, and
there are numbers for all symbols. -/
structure Counted (b : GrammarDraft) : Prop where
  reserved : b.symbols[endSymbol]?.map (·.name) = some "end"
    ∧ b.symbols[errorSymbol]?.map (·.name) = some "ERROR"
  errorTokens : ∀ (i : Nat) info, b.symbols[i]? = some info → info.traits.errorToken = true →
    errorSymbol < i ∧ info.traits.terminal = true
  room : b.symbols.size ≤ maxSymbols

theorem counted_empty (name : String) : (empty name).Counted where
  reserved := ⟨rfl, rfl⟩
  errorTokens := by
    intro i info hInfo hToken
    match i with
    | 0 =>
        obtain rfl : _ = info := by simpa [empty] using hInfo
        exact absurd hToken Bool.false_ne_true
    | 1 =>
        obtain rfl : _ = info := by simpa [empty] using hInfo
        exact absurd hToken Bool.false_ne_true
    | i + 2 => simp [empty] at hInfo
  room := by simp [empty, maxSymbols]

/-- A call keeps the counts of a draft in bounds. -/
theorem Counted.step (h : b.Counted) (hStep : Step b c) : c.Counted := by
  rcases hStep.symbols with ⟨hSame, -⟩ | ⟨hRoom, entry, hDeclarable, -, hPush, -⟩
  · exact ⟨hSame ▸ h.reserved, hSame ▸ h.errorTokens, hSame ▸ h.room⟩
  · obtain ⟨⟨hEnd, hError⟩, hTokens, -⟩ := h
    rw [Option.map_eq_some_iff] at hEnd hError
    obtain ⟨⟨info, hInfo, hName⟩, ⟨other, hOther, hLabel⟩⟩ := And.intro hEnd hError
    refine ⟨⟨?_, ?_⟩, ?_, ?_⟩
    · rw [hPush, getElem?_push_of_some hInfo, Option.map_some, hName]
    · rw [hPush, getElem?_push_of_some hOther, Option.map_some, hLabel]
    · intro i found hFound hToken
      rw [hPush, Array.getElem?_push] at hFound
      split at hFound
      · rename_i hLast
        obtain rfl := Option.some.inj hFound
        have hBehind : errorSymbol < b.symbols.size := (Array.getElem?_eq_some_iff.mp hOther).1
        exact ⟨hLast ▸ hBehind, hDeclarable.errorToken hToken⟩
      · exact hTokens i found hFound hToken
    · rw [hPush, Array.size_push]
      exact hRoom

/-- So the counts of every described draft are in bounds. -/
theorem Described.counted (h : b.Described) : b.Counted := by
  obtain ⟨name, hSteps⟩ := h
  induction hSteps with
  | refl => exact counted_empty name
  | tail _ hStep ih => exact ih.step hStep

end GrammarDraft

/-- What the construction of tables relies on. -/
structure Grammar.Proper (g : Grammar) : Prop where
  reserved : 2 ≤ g.terminalCount
  bounded : g.terminalCount ≤ g.symbols.size
  start : g.terminalCount ≤ g.start ∧ g.start < g.symbols.size
  shown : ∀ i info, g.symbols[i]? = some info → i < g.terminalCount → info.traits.hidden = false
  lhs : ∀ r ∈ g.rules, g.terminalCount ≤ r.lhs ∧ r.lhs < g.symbols.size
  symbol : ∀ r ∈ g.rules, ∀ k ∈ r.symbols,
    k < g.symbols.size ∧ k ≠ endSymbol ∧ k ≠ errorSymbol
  field : ∀ r ∈ g.rules, ∀ slot ∈ r.rhs, ∀ field, slot.field = some field →
    0 < field ∧ field ≤ g.fields.size
  productive : ∀ k, g.terminalCount ≤ k → k < g.symbols.size → ∃ r ∈ g.rules, r.lhs = k

/-- The last check looks at the start symbol and at what is left without a rule. -/
theorem GrammarDraft.build_eq_ok {b : GrammarDraft} {g : Grammar} (hBuild : b.build = .ok g) :
    ∃ start, b.terminalCount.getD b.symbols.size ≤ start ∧ start < b.symbols.size
      ∧ b.unproductive? (b.terminalCount.getD b.symbols.size) = none
      ∧ g = {
        name := b.name
        symbols := b.symbols
        fields := b.fields
        terminalCount := b.terminalCount.getD b.symbols.size
        start
        rules := b.rules
        tokenPrecedence :=
          (Array.range (b.terminalCount.getD b.symbols.size)).map (b.tokenPrecedence[·]?) } := by
  unfold build at hBuild
  split at hBuild
  · rename_i start hStart
    dsimp only at hBuild
    split at hBuild
    · rename_i info hInfo
      have hLess : start < b.symbols.size := (Array.getElem?_eq_some_iff.mp hInfo).1
      split at hBuild
      · simp [bind, Except.bind, throw, throwThe, MonadExceptOf.throw] at hBuild
      · rename_i hTerminal
        split at hBuild
        · simp [bind, Except.bind, throw, throwThe, MonadExceptOf.throw] at hBuild
        · rename_i hProductive
          refine ⟨start, Nat.not_lt.mp hTerminal, hLess, ?_, (Except.ok.inj hBuild).symm⟩
          exact Option.eq_none_iff_forall_ne_some.mpr hProductive
    · simp [throw, throwThe, MonadExceptOf.throw] at hBuild
  · simp [throw, throwThe, MonadExceptOf.throw] at hBuild

/-- If the check of nonterminals finds nothing, each of them has a rule. -/
theorem GrammarDraft.productive_of_unproductive? {b : GrammarDraft} {terminalCount : Nat}
    (hNone : b.unproductive? terminalCount = none) {k : Nat} (hFirst : terminalCount ≤ k)
    (hLess : k < b.symbols.size) : ∃ r ∈ b.rules, r.lhs = k := by
  have hRange : k < terminalCount + (b.symbols.size - terminalCount) := by omega
  have hSymbol := List.findSome?_eq_none_iff.mp hNone k (List.mem_range'_1.mpr ⟨hFirst, hRange⟩)
  split at hSymbol
  · rename_i hAny
    obtain ⟨i, hIndex, hLhs⟩ := Array.any_eq_true.mp hAny
    exact ⟨b.rules[i], Array.getElem_mem hIndex, by simpa using hLhs⟩
  · simp [Array.getElem?_eq_getElem hLess] at hSymbol

/-- A description that passes the last check is a proper grammar. -/
theorem GrammarDraft.Described.proper {b : GrammarDraft} (h : b.Described) {g : Grammar}
    (hBuild : b.build = .ok g) : g.Proper := by
  have hFormed := h.wellFormed
  obtain ⟨start, hFirst, hLess, hProductive, rfl⟩ := build_eq_ok hBuild
  refine ⟨hFormed.reserved, hFormed.bounded, ⟨hFirst, hLess⟩, ?_, ?_, ?_, ?_, ?_⟩
  · intro i info hInfo hTerminal
    refine hFormed.shown info (Array.mem_of_getElem? hInfo) ?_
    rw [hFormed.terminal i info hInfo]
    exact decide_eq_true hTerminal
  · intro r hMem
    obtain ⟨info, hInfo, hTerminal⟩ := (hFormed.rules r hMem).lhs
    rw [hFormed.terminal r.lhs info hInfo] at hTerminal
    exact ⟨Nat.not_lt.mp (of_decide_eq_false hTerminal), (Array.getElem?_eq_some_iff.mp hInfo).1⟩
  · intro r hMem k hSymbol
    obtain ⟨slot, hSlot, rfl⟩ := List.mem_map.mp hSymbol
    exact (hFormed.rules r hMem).symbol slot hSlot
  · exact fun r hMem => (hFormed.rules r hMem).field
  · exact fun k => productive_of_unproductive? hProductive

end IncrementalParsing
