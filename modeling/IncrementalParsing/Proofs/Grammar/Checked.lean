import IncrementalParsing.Proofs.Grammar.Calls

/-! What a description has been checked for when it is built, whatever was called before and however it
was answered. The generator of tables takes the numbers of symbols, rules and fields for granted. -/
namespace IncrementalParsing

/-- The number of a symbol that rules derive something from. -/
def Grammar.IsNonterminal (g : Grammar) (id : SymbolId) : Prop :=
  g.terminalCount ≤ id ∧ id < g.symbols.size

/-- A grammar whose symbols, fields, rules and precedences fit together. -/
structure Grammar.Checked (g : Grammar) : Prop where
  names : (g.symbols.toList.map (·.name)).Nodup
  reserved : g.symbols[endSymbol]?.map (·.name) = some "end"
    ∧ g.symbols[errorSymbol]?.map (·.name) = some "ERROR"
  room : g.symbols.size ≤ GrammarDraft.maxSymbols
  terminal : ∀ (id : SymbolId) info, g.symbols[id]? = some info →
    (info.traits.terminal = true ↔ id < g.terminalCount)
  hidden : ∀ (id : SymbolId) info, g.symbols[id]? = some info →
    (info.traits.hidden = true ↔ g.IsNonterminal id ∧ info.name.startsWith "_" = true)
  start : g.IsNonterminal g.start
  lhs : ∀ r ∈ g.rules, g.IsNonterminal r.lhs
  symbol : ∀ r ∈ g.rules, ∀ slot ∈ r.rhs,
    slot.symbol < g.symbols.size ∧ slot.symbol ≠ endSymbol ∧ slot.symbol ≠ errorSymbol
  field : ∀ r ∈ g.rules, ∀ slot ∈ r.rhs, ∀ field ∈ slot.field, 1 ≤ field ∧ field ≤ g.fields.size
  productive : ∀ id, g.IsNonterminal id → ∃ r ∈ g.rules, r.lhs = id
  precedences : g.tokenPrecedence.size = g.terminalCount

namespace GrammarDraft

/-- Every name is declared once, and decides what is hidden. -/
structure Named (b : GrammarDraft) : Prop where
  indexed : b.Indexed
  distinct : (b.symbols.toList.map (·.name)).Nodup
  hidden : ∀ info ∈ b.symbols, info.traits.hidden = (!info.traits.terminal && info.name.startsWith "_")

theorem named_empty (name : String) : (empty name).Named where
  indexed := indexed_empty name
  distinct := by simp [empty]
  hidden := by simp [empty, SymbolTraits.none]

variable {b c : GrammarDraft}

/-- A call keeps the names, whatever its answer is. -/
theorem Named.step (h : b.Named) (hStep : Step b c) : c.Named := by
  rcases hStep.symbols with ⟨hSymbols, hIds⟩ | ⟨-, entry, hDeclarable, hNew, hSymbols, hIds⟩
  · refine ⟨fun name => ?_, hSymbols ▸ h.distinct, hSymbols ▸ h.hidden⟩
    rw [hSymbols, hIds]
    exact h.indexed name
  · refine ⟨fun name => ?_, ?_, fun info hMem => ?_⟩
    · rw [hSymbols, hIds, Std.HashMap.contains_insert, h.indexed, Array.any_push, Bool.or_comm]
    · rw [h.indexed, ← Array.any_toList, List.any_eq_false] at hNew
      rw [hSymbols, Array.toList_push, List.map_append, List.nodup_append]
      refine ⟨h.distinct, by simp, fun name hName other hOther => ?_⟩
      obtain ⟨info, hMem, rfl⟩ := List.mem_map.mp hName
      obtain rfl := List.mem_singleton.mp hOther
      exact fun hSame => hNew info hMem (beq_iff_eq.mpr hSame)
    · rw [hSymbols] at hMem
      rcases Array.mem_push.mp hMem with hMem | rfl
      · exact h.hidden info hMem
      · exact hDeclarable.hidden

/-- So the names of every described draft are in order. -/
theorem Described.named (h : b.Described) : b.Named := by
  obtain ⟨name, hSteps⟩ := h
  induction hSteps with
  | refl => exact named_empty name
  | tail _ hStep ih => exact ih.step hStep

end GrammarDraft

open GrammarDraft

/-- What can be built is checked, whatever was called before, and whatever was refused. -/
theorem built_checked {name : String} {calls : List Call} {g : Grammar}
    (hBuild : ((empty name).afterAll calls).build = .ok g) : g.Checked := by
  have hDescribed := Described.afterAll ⟨name, .refl⟩ calls
  have hFormed := hDescribed.wellFormed
  have hCounted := hDescribed.counted
  have hNamed := hDescribed.named
  have hProper := hDescribed.proper hBuild
  obtain ⟨start, -, -, -, rfl⟩ := build_eq_ok hBuild
  have hTerminal : ∀ (id : SymbolId) info, ((empty name).afterAll calls).symbols[id]? = some info →
      (info.traits.terminal = true ↔ id < _) := fun id info hInfo => by
    rw [hFormed.terminal id info hInfo, decide_eq_true_iff]
  exact {
    names := hNamed.distinct
    reserved := hCounted.reserved
    room := hCounted.room
    terminal := hTerminal
    hidden := fun id info hInfo => by
      have hLess := (Array.getElem?_eq_some_iff.mp hInfo).1
      rw [hNamed.hidden info (Array.mem_of_getElem? hInfo), Bool.and_eq_true, Bool.not_eq_true',
        ← Bool.not_eq_true, hTerminal id info hInfo, Nat.not_lt, Grammar.IsNonterminal, and_iff_left hLess]
    start := hProper.start
    lhs := hProper.lhs
    symbol := fun r hMem slot hSlot => hProper.symbol r hMem _ (List.mem_map_of_mem hSlot)
    field := hProper.field
    productive := fun id h => hProper.productive id h.1 h.2
    precedences := by simp }

/-- A short description, three calls of which are refused. The second one closes the set of terminals all
the same, and the first precedence is for a symbol that is never declared. -/
def strayCalls : List Call := [
  .terminal "a" true, .nonterminal "ERROR", .terminal "b" true, .nonterminal "_s",
  .setPrecedence 70 ⟨1, .left⟩, .setPrecedence 2 ⟨1, .left⟩, .rule 3 [.plain errorSymbol] none,
  .field "f", .rule 3 [⟨2, some 1⟩] none, .setStart 3]

/-- What it builds. -/
def strayGrammar : Grammar where
  name := "g"
  symbols := (empty "g").symbols
    ++ #[⟨"a", ⟨true, true, false, false⟩⟩, ⟨"_s", ⟨false, false, true, false⟩⟩]
  fields := #["f"]
  terminalCount := 3
  start := 3
  rules := #[⟨⟨3, [⟨2, some 1⟩]⟩, none⟩]
  tokenPrecedence := #[none, none, some ⟨1, .left⟩]

theorem built_checked_of_stray :
    ((empty "g").afterAll strayCalls).build = .ok strayGrammar ∧ strayGrammar.Checked := by
  have hHidden : "_s".startsWith "_" = true := by decide +kernel
  have hRange : Array.range 3 = #[0, 1, 2] := rfl
  have hBuild : ((empty "g").afterAll strayCalls).build = .ok strayGrammar := by
    simp [strayCalls, strayGrammar, GrammarDraft.afterAll, after, call, told, GrammarDraft.terminal,
      declareTerminal_run, nonterminal_run, declare_run, rule_run, field_run, setPrecedence, setStart,
      run_modify, empty, maxSymbols, ruleError?, slotError?, errorSymbol, endSymbol, Slot.plain, build,
      unproductive?, SymbolTraits.none, pure, Except.pure, Std.HashMap.getElem?_insert, hHidden, hRange]
  exact ⟨hBuild, built_checked hBuild⟩

end IncrementalParsing
