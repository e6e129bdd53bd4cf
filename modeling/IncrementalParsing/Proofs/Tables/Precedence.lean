import IncrementalParsing.Proofs.Tables.Contests

/-! How conflicts are settled. Where every operator associates to one side, no contest for a cell ends
with an error: one of the actions that are considered stands in it, and where a shift and a reduction
meet it is known from their precedences which one. -/
namespace IncrementalParsing
namespace Grammar
variable {g : Grammar}

/-- Every precedence of a rule says which side wins. -/
def Associates (g : Grammar) : Prop :=
  ∀ info ∈ g.rules, ∀ precedence, info.precedence = some precedence → precedence.assoc ≠ .nonAssoc

theorem candidate?_eq_some {terminal : Nat} {entry : LookaheadItem} {action : Action}
    (h : g.candidate? terminal entry = some action) :
    action = .accept ∨ ∃ rule, action = .reduce rule := by
  unfold candidate? at h
  split at h
  · split at h
    · split at h
      · exact .inl (Option.some.inj h).symm
      · simp at h
    · exact .inr ⟨_, (Option.some.inj h).symm⟩
  · simp at h

/-- A shift against a reduction leaves one of the two. -/
theorem arbitrate_shift (hAssociates : g.Associates) (terminal : SymbolId) (next : StateId)
    (rule : RuleId) : g.arbitrate terminal (.shift next) rule = .shift next
      ∨ g.arbitrate terminal (.shift next) rule = .reduce rule := by
  unfold arbitrate
  dsimp only
  split
  · rename_i ours theirs hOurs _
    obtain ⟨info, hRule, hPrecedence⟩ := Option.bind_eq_some_iff.mp hOurs
    have hSide := hAssociates info (Array.mem_of_getElem? hRule) ours hPrecedence
    split
    · exact .inr rfl
    · split
      · exact .inl rfl
      · split
        · exact .inr rfl
        · exact .inl rfl
        · rename_i hNeither
          exact absurd hNeither hSide
  · exact .inl rfl

/-- A reduction that a shift has won against does not bind tighter. -/
theorem levels_of_shift {terminal : SymbolId} {next : StateId} {rule : RuleId} {info : Rule}
    {ours theirs : Precedence} (hRule : g.rules[rule]? = some info) (hOurs : info.precedence = some ours)
    (hTheirs : g.tokenPrecedence[terminal]?.join = some theirs)
    (hBeats : g.arbitrate terminal (.shift next) rule = .shift next) :
    ours.level ≤ theirs.level ∧ (ours.assoc = .left → ours.level < theirs.level) := by
  rw [arbitrate, hRule, Option.bind_some, hOurs, hTheirs] at hBeats
  dsimp only at hBeats
  split at hBeats
  · simp at hBeats
  · split at hBeats
    · exact ⟨by omega, fun _ => by omega⟩
    · exact ⟨by omega, fun hLeft => by simp [hLeft] at hBeats⟩

/-- A reduction that has won against a shift does not bind less. -/
theorem levels_of_reduce {terminal : SymbolId} {next : StateId} {rule : RuleId} {info : Rule}
    {ours theirs : Precedence} (hRule : g.rules[rule]? = some info) (hOurs : info.precedence = some ours)
    (hTheirs : g.tokenPrecedence[terminal]?.join = some theirs)
    (hBeats : g.arbitrate terminal (.shift next) rule = .reduce rule) :
    theirs.level ≤ ours.level ∧ (ours.assoc = .right → theirs.level < ours.level) := by
  rw [arbitrate, hRule, Option.bind_some, hOurs, hTheirs] at hBeats
  dsimp only at hBeats
  split at hBeats
  · exact ⟨by omega, fun _ => by omega⟩
  · split at hBeats
    · simp at hBeats
    · exact ⟨by omega, fun hRight => by simp [hRight] at hBeats⟩

/-- What is known of the winner of the contests for a cell, from the action it began with and the
actions that were asked for. -/
structure Settles (g : Grammar) (terminal : SymbolId) (first : Action) (asked : List Action)
    (winner : Action) : Prop where
  known : winner = first ∨ winner ∈ asked
  error : winner = .error → first = .error ∧ asked = []
  shift : ∀ next, winner = .shift next → ∀ rule, .reduce rule ∈ asked →
    g.arbitrate terminal (.shift next) rule = .shift next
  reduce : ∀ next rule, first = .shift next → winner = .reduce rule →
    ∃ other, .reduce other ∈ asked ∧ g.arbitrate terminal (.shift next) other = .reduce other

theorem Settles.accept {terminal : SymbolId} {first : Action} (asked : List Action) :
    g.Settles terminal first (asked ++ [.accept]) .accept where
  known := .inr (by simp)
  error := by simp
  shift := by simp
  reduce := by simp

theorem Settles.contest (hAssociates : g.Associates) {terminal : SymbolId} {first winner : Action}
    {asked : List Action} (h : g.Settles terminal first asked winner)
    (hAsked : ∀ action ∈ asked, action = .accept ∨ ∃ rule, action = .reduce rule) (rule : RuleId) :
    g.arbitrate terminal winner rule ≠ .error
      ∧ g.Settles terminal first (asked ++ [.reduce rule]) (g.arbitrate terminal winner rule) := by
  cases hWinner : winner with
  | error =>
      obtain ⟨rfl, -⟩ := h.error hWinner
      refine ⟨by simp [arbitrate], ?_, ?_, ?_, ?_⟩ <;> simp [arbitrate]
  | accept =>
      refine ⟨by simp [arbitrate], ?_, ?_, ?_, ?_⟩
      · rw [arbitrate, ← hWinner]
        exact h.known.imp_right (List.mem_append_left _)
      all_goals simp [arbitrate]
  | reduce other =>
      have hLess : min other rule = other ∨ min other rule = rule :=
        (Nat.le_total other rule).imp Nat.min_eq_left Nat.min_eq_right
      refine ⟨by simp [arbitrate], ?_, by simp [arbitrate], by simp [arbitrate], ?_⟩
      · rcases hLess with hSame | hSame
        · rw [arbitrate, hSame, ← hWinner]
          exact h.known.imp_right (List.mem_append_left _)
        · rw [arbitrate, hSame]
          exact .inr (by simp)
      · intro next _ hFirst _
        obtain ⟨best, hBest, hBeats⟩ := h.reduce next other hFirst hWinner
        exact ⟨best, List.mem_append_left _ hBest, hBeats⟩
  | shift next =>
      have hFirst : first = .shift next := by
        rcases h.known with hSame | hMem
        · exact hSame.symm.trans hWinner
        · rcases hAsked _ hMem with hAccept | ⟨other, hReduce⟩
          · simp [hWinner] at hAccept
          · simp [hWinner] at hReduce
      rcases arbitrate_shift hAssociates terminal next rule with hKept | hBeaten
      · rw [hKept]
        refine ⟨by simp, .inl hFirst.symm, by simp, ?_, by simp⟩
        rintro _ ⟨⟩ other hMem
        rcases List.mem_append.mp hMem with hMem | hMem
        · exact h.shift next hWinner other hMem
        · obtain rfl := Action.reduce.inj (List.mem_singleton.mp hMem)
          exact hKept
      · rw [hBeaten]
        refine ⟨by simp, .inr (by simp), by simp, by simp, ?_⟩
        intro target _ hTarget _
        obtain rfl := Action.shift.inj (hFirst.symm.trans hTarget)
        exact ⟨rule, by simp, hBeaten⟩

/-- The contests for a cell that is not barred settle it. -/
theorem settles_foldl (hAssociates : g.Associates) (terminal : SymbolId) (first : Action)
    (entries : List LookaheadItem) :
    let last := entries.foldl (g.contest terminal) (first, false)
    last.2 = false ∧ g.Settles terminal first (entries.filterMap (g.candidate? terminal)) last.1 := by
  induction entries using List.reverseRecOn with
  | nil =>
      refine ⟨rfl, .inl rfl, fun hError => ⟨hError, rfl⟩, by simp, ?_⟩
      intro next rule hFirst hWinner
      simp [hFirst] at hWinner
  | append_singleton entries entry ih =>
      dsimp only at ih ⊢
      obtain ⟨hOpen, hSettles⟩ := ih
      rw [List.foldl_append, List.foldl_cons, List.foldl_nil, List.filterMap_append, contest]
      cases hEntry : g.candidate? terminal entry with
      | none =>
          rw [List.filterMap_cons_none hEntry, List.filterMap_nil, List.append_nil]
          exact ⟨hOpen, hSettles⟩
      | some action =>
          rw [List.filterMap_cons_some hEntry, List.filterMap_nil]
          rcases candidate?_eq_some hEntry with rfl | ⟨rule, rfl⟩
          · exact ⟨hOpen, .accept _⟩
          · dsimp only
            rw [if_neg (by simp [hOpen])]
            obtain ⟨hSome, hNext⟩ := hSettles.contest hAssociates (fun action hMem => by
              obtain ⟨other, -, hOther⟩ := List.mem_filterMap.mp hMem
              exact candidate?_eq_some hOther) rule
            exact ⟨decide_eq_false hSome, hNext⟩

end Grammar

namespace Tables.Generated
variable {g : Grammar} {m : Automaton} {t : Tables} {state : StateId} {terminal : Nat}

theorem settles (h : Generated g m t) (hAssociates : g.Associates) (hState : state < m.kernels.size)
    (hTerminal : terminal < g.terminalCount) :
    g.Settles terminal ((m.shifts g state).getD terminal .error)
      ((m.completions (.ofGrammar g) m.offsets (m.lookaheads (.ofGrammar g)) state).filterMap
        (g.candidate? terminal)) (t.action state terminal) := by
  rw [h.action_eq, if_pos ⟨hTerminal, hState⟩, Automaton.getD_actions _ _ hTerminal]
  exact (Grammar.settles_foldl hAssociates terminal _ _).2

theorem mem_candidates {action : Action} : action ∈ m.candidates g state terminal ↔
    (action = (m.shifts g state).getD terminal .error ∧ action ≠ .error)
      ∨ action ∈ (m.completions (.ofGrammar g) m.offsets (m.lookaheads (.ofGrammar g))
          state).filterMap (g.candidate? terminal) := by
  rw [Automaton.candidates, List.mem_append, List.mem_filter, List.mem_singleton, decide_eq_true_iff]

/-- A shift that is considered is the one that the cell began with. -/
theorem eq_of_shift_mem_candidates {next : StateId}
    (hShift : .shift next ∈ m.candidates g state terminal) :
    (m.shifts g state).getD terminal .error = .shift next := by
  rcases mem_candidates.mp hShift with ⟨hSame, -⟩ | hMem
  · exact hSame.symm
  · obtain ⟨entry, -, hEntry⟩ := List.mem_filterMap.mp hMem
    rcases Grammar.candidate?_eq_some hEntry with hAccept | ⟨rule, hReduce⟩
    · simp at hAccept
    · simp at hReduce

/-- A reduction that is considered is asked for by a complete item. -/
theorem asked_of_reduce_mem_candidates {rule : RuleId}
    (hReduce : .reduce rule ∈ m.candidates g state terminal) :
    .reduce rule ∈ (m.completions (.ofGrammar g) m.offsets (m.lookaheads (.ofGrammar g))
      state).filterMap (g.candidate? terminal) := by
  rcases mem_candidates.mp hReduce with ⟨hSame, hSome⟩ | hMem
  · rw [Array.getD_eq_getD_getElem?] at hSame
    cases hShift : (m.shifts g state)[terminal]? with
    | none =>
        rw [hShift] at hSame
        exact absurd hSame hSome
    | some action =>
        rw [hShift] at hSame
        obtain rfl : .reduce rule = action := hSame
        rcases Automaton.shift_of_shifts hShift with hError | ⟨next, hNext, -⟩
        · simp at hError
        · simp at hNext
  · exact hMem

/-- If anything is considered for a cell, the cell has one of the actions that are. -/
theorem action_mem_candidates (h : Generated g m t) (hAssociates : g.Associates)
    (hState : state < m.kernels.size) (hTerminal : terminal < g.terminalCount)
    (hSome : m.candidates g state terminal ≠ []) :
    t.action state terminal ∈ m.candidates g state terminal := by
  have hSettles := h.settles hAssociates hState hTerminal
  by_cases hError : t.action state terminal = .error
  · obtain ⟨hFirst, hAsked⟩ := hSettles.error hError
    exact absurd (by rw [Automaton.candidates, hFirst, hAsked]; rfl) hSome
  · exact mem_candidates.mpr (hSettles.known.imp_left fun hSame => ⟨hSame, hError⟩)

/-- A shift that stands in its cell has won against every reduction. -/
theorem shift_wins (h : Generated g m t) (hAssociates : g.Associates)
    (hState : state < m.kernels.size) (hTerminal : terminal < g.terminalCount) {next : StateId}
    {rule : RuleId} (hShift : t.action state terminal = .shift next)
    (hReduce : .reduce rule ∈ m.candidates g state terminal) :
    g.arbitrate terminal (.shift next) rule = .shift next :=
  (h.settles hAssociates hState hTerminal).shift next hShift rule
    (asked_of_reduce_mem_candidates hReduce)

/-- Where a reduction stands in the cell of a shift, one has won against the shift. -/
theorem reduce_wins (h : Generated g m t) (hAssociates : g.Associates)
    (hState : state < m.kernels.size) (hTerminal : terminal < g.terminalCount) {next : StateId}
    {rule : RuleId} (hReduce : t.action state terminal = .reduce rule)
    (hShift : .shift next ∈ m.candidates g state terminal) :
    ∃ other, .reduce other ∈ m.candidates g state terminal
      ∧ g.arbitrate terminal (.shift next) other = .reduce other := by
  obtain ⟨other, hOther, hBeats⟩ := (h.settles hAssociates hState hTerminal).reduce next rule
    (eq_of_shift_mem_candidates hShift) hReduce
  exact ⟨other, mem_candidates.mpr (.inr hOther), hBeats⟩

end Tables.Generated
end IncrementalParsing
