import IncrementalParsing.Proofs.SysY.Followers

/-! The automaton of SysY. It has few enough states, and its tables were left a choice only where
precedence settles it. -/
namespace IncrementalParsing

/-- A grammar has tables if the search for its states ends within the limit. -/
theorem Tables.exists_ofGrammar {g : Grammar} (hRules : ∀ info ∈ g.rules, info.lhs < g.symbols.size)
    (hFound : (Automaton.Found.ofGrammar g).isOk = true) : ∃ t, Tables.ofGrammar g = .ok t := by
  cases hStates : Automaton.Found.ofGrammar g with
  | ok found => exact ⟨_, Tables.ofGrammar_eq_ok hRules hStates⟩
  | error cause => simp [hStates, Except.isOk, Except.toBool] at hFound

namespace SysY

theorem peaceful : (match Automaton.Found.ofGrammar theGrammar with
    | .ok f => f.allPeaceful theGrammar follow disputed
    | .error _ => false) = true := by
  decide +kernel

/-- Nothing else is left to be settled. -/
theorem disputes {m : Automaton} (hStates : Automaton.ofGrammar (.ofGrammar theGrammar) = .ok m) :
    m.Disputes theGrammar follow disputed := by
  have hPeaceful := peaceful
  cases hFound : Automaton.Found.ofGrammar theGrammar with
  | error cause => simp [hFound] at hPeaceful
  | ok f =>
      rw [hFound] at hPeaceful
      obtain ⟨other, hOther, hAgrees⟩ := Automaton.exists_ofGrammar
        (fun info hMem => (proper_theGrammar.lhs info hMem).2) hFound
      obtain rfl := Except.ok.inj (hStates.symm.trans hOther)
      exact Automaton.disputes_of_check hStates hAgrees hPeaceful

example : (rules.filter (disputed · Terminal.elseKeyword.kind)).length = 1 := by decide +kernel

/-- The grammar has few enough states, since all of them are found and left nothing to settle. -/
theorem exists_tables : ∃ t, Tables.ofGrammar theGrammar = .ok t := by
  refine Tables.exists_ofGrammar (fun info hMem => (proper_theGrammar.lhs info hMem).2) ?_
  have hPeaceful := peaceful
  cases hFound : Automaton.Found.ofGrammar theGrammar with
  | ok found => rfl
  | error cause => simp [hFound] at hPeaceful

end SysY
end IncrementalParsing
