import IncrementalParsing.Proofs.Grammar.Grounded
import IncrementalParsing.Proofs.Tables.Chains
import IncrementalParsing.Proofs.Tables.Driver

/-! Grounded grammars have tables whose reductions end. What is stacked up by reductions alone derives
nothing, and there is room for only so much of it, because every rule that is begun again behind it is
hidden. Below that room, a symbol gives way only to symbols that become it. -/
namespace IncrementalParsing
open Automaton

/-- What a stack of symbols weighs, one over the other, where there is room for some. A symbol weighs
more than all that may stand above it. -/
def stackWeight (rank : SymbolId → Nat) (base room : Nat) : List (SymbolId × StateId) → Nat
  | [] => 0
  | step :: steps =>
      stackWeight rank base room steps + rank step.1 * base ^ (room - (steps.length + 1))

/-- The weight of a stack, with that of the room that is left. -/
def roomWeight (rank : SymbolId → Nat) (base room : Nat) (steps : List (SymbolId × StateId)) : Nat :=
  stackWeight rank base room steps + base ^ (room - steps.length)

section
variable {rank : SymbolId → Nat} {base room : Nat} {step other : SymbolId × StateId}
  {steps : List (SymbolId × StateId)}

theorem stackWeight_le_append (above steps : List (SymbolId × StateId)) :
    stackWeight rank base room steps ≤ stackWeight rank base room (above ++ steps) := by
  induction above with
  | nil => exact Nat.le_refl _
  | cons step above ih => exact ih.trans (Nat.le_add_right _ _)

theorem roomWeight_cons : roomWeight rank base room (step :: steps)
    = stackWeight rank base room steps + (rank step.1 + 1) * base ^ (room - (steps.length + 1)) := by
  rw [roomWeight, stackWeight, List.length_cons, Nat.succ_mul, Nat.add_assoc]

/-- A symbol weighs less than the room that it takes up. -/
theorem roomWeight_push (hRank : rank step.1 + 1 < base) (hRoom : steps.length < room) :
    roomWeight rank base room (step :: steps) < roomWeight rank base room steps := by
  have hLeft : room - steps.length = room - (steps.length + 1) + 1 := by omega
  rw [roomWeight_cons, roomWeight, hLeft, Nat.pow_succ, Nat.mul_comm (base ^ _) base]
  exact Nat.add_lt_add_left (Nat.mul_lt_mul_of_pos_right hRank (Nat.pow_pos (by omega))) _

/-- A lower symbol weighs less than a higher one, whatever stands above that. -/
theorem roomWeight_replace (hRank : rank step.1 < rank other.1) (hBase : 0 < base)
    (above : List (SymbolId × StateId)) :
    roomWeight rank base room (step :: steps)
      < roomWeight rank base room (above ++ other :: steps) := by
  calc roomWeight rank base room (step :: steps)
      ≤ stackWeight rank base room (other :: steps) := by
        rw [roomWeight_cons, stackWeight]
        exact Nat.add_le_add_left (Nat.mul_le_mul_right _ hRank) _
    _ ≤ stackWeight rank base room (above ++ other :: steps) := stackWeight_le_append _ _
    _ < roomWeight rank base room (above ++ other :: steps) :=
        Nat.lt_add_of_pos_right (Nat.pow_pos hBase)

end

/-- Only the first state is made from an item that has not come anywhere. -/
theorem Automaton.Explored.eq_nil_of_dot {a : Augmented} {m : Automaton} (h : m.Explored a)
    {steps : List (SymbolId × StateId)} (hPath : m.Path steps) {item : Item}
    (hMem : item ∈ m.kernels.getD (endOf steps) []) (hDot : item.dot = 0) : steps = [] := by
  cases hPath with
  | nil => rfl
  | cons hPath hMove =>
      obtain ⟨kernel, target, -, hTarget, hSuccessor⟩ := h.transition hMove
      rw [endOf, Automaton.getD_kernels hTarget] at hMem
      obtain ⟨source, -, -, rfl⟩ := Augmented.advance_of_mem_successors hSuccessor hMem
      simp [Item.advance] at hDot

/-- The stacks of states that the tables lead to by shifts and reductions, whatever terminals are
read. -/
inductive Tables.Reached (t : Tables) : List StateId → Prop
  | nil : Reached t []
  | shift {states : List StateId} {terminal : SymbolId} {next : StateId} (h : Reached t states)
      (hShift : t.action (states.headD 0) terminal = .shift next) : Reached t (next :: states)
  | reduce {states after : List StateId} {terminal : SymbolId} (h : Reached t states)
      (hStep : t.reduction? terminal states = some after) : Reached t after

namespace Tables.Generated
variable {g : Grammar} {m : Automaton} {t : Tables} {above below : List (SymbolId × StateId)}

/-- The rules that are begun within an empty end of a path are hidden one behind the other, so the end
is short if few symbols hide what is waited for behind it. -/
theorem length_le_of_waiting (h : Generated g m t) (hProper : g.Proper) (hGrounded : g.Grounded)
    {most : Nat} (hMost : ∀ info ∈ g.rules, info.symbols.length ≤ most)
    (hPath : m.Path (above ++ below)) (hEmpty : ∀ step ∈ above, g.Derives [step.1] [])
    {item : Item} (hItem : m.Holds (.ofGrammar g) (endOf (above ++ below)) item) {symbol : SymbolId}
    (hNext : (Augmented.ofGrammar g).next? item = some symbol) :
    above.length ≤ most * g.hidingRank symbol + most := by
  induction hLength : above.length using Nat.strongRecOn generalizing above item symbol with
  | ind length ihLength =>
      subst hLength
      unfold Holds at hItem
      induction hItem generalizing symbol with
      | @kernel item hMem =>
          by_cases hDot : item.dot = 0
          · obtain ⟨rfl, -⟩ := List.append_eq_nil_iff.mp (h.explored.eq_nil_of_dot hPath hMem hDot)
            exact Nat.zero_le _
          · rcases Augmented.next?_eq_some hNext with ⟨info, hRule, hSymbol⟩ | ⟨-, hZero, -⟩
            · have hRules := Array.mem_of_getElem? hRule
              obtain ⟨seen, rest, hSplit, hCount, hSeen, hBound, hBegun⟩ :=
                h.explored.seen hPath (.kernel hMem)
              rw [Augmented.symbolsOf_rule hRule] at hSeen hBound
              replace hBound : item.dot ≤ most :=
                (by simpa using hBound : item.dot ≤ info.symbols.length).trans (hMost info hRules)
              rcases List.append_eq_append_iff.mp hSplit with ⟨kept, rfl, -⟩ | ⟨kept, rfl, rfl⟩
              · rw [List.length_append] at hCount
                omega
              · have hHides : g.Hides info.lhs symbol := by
                  refine Grammar.hides_of_getElem? hRules hSymbol (Nat.pos_of_ne_zero hDot) fun other hMem => ?_
                  rw [← hSeen] at hMem
                  obtain ⟨step, hStep, rfl⟩ := List.mem_map.mp (List.mem_reverse.mp hMem)
                  exact hEmpty step (List.mem_append_left _ hStep)
                obtain ⟨waiting, hWaiting, hLhs⟩ := h.exists_waiting hBegun hRule
                have hBefore : kept.length ≤ most * g.hidingRank info.lhs + most := by
                  refine ihLength kept.length (by rw [List.length_append]; omega) ?_
                    (fun step hMem => hEmpty step (List.mem_append_right _ hMem)) hWaiting hLhs rfl
                  rw [List.append_assoc] at hPath
                  exact hPath.of_append
                have hRank : g.hidingRank info.lhs + 1 ≤ g.hidingRank symbol :=
                  hGrounded.hidingRank_lt (hProper.lhs info hRules).2 hHides
                calc (seen ++ kept).length = item.dot + kept.length := by
                      rw [List.length_append, hCount]
                  _ ≤ most + (most * g.hidingRank info.lhs + most) := Nat.add_le_add hBound hBefore
                  _ = most * (g.hidingRank info.lhs + 1) + most := by rw [Nat.mul_succ]; omega
                  _ ≤ most * g.hidingRank symbol + most :=
                      Nat.add_le_add_right (Nat.mul_le_mul_left _ hRank) _
            · exact absurd hZero hDot
      | @expand waiting expansion above' hWaiting hAbove hSymbol hExpansion ih =>
          obtain ⟨hDot, -, info, hRule, rfl⟩ := Augmented.mem_expansions.mp hExpansion
          rcases Augmented.next?_eq_some hNext with ⟨info', hRule', hFirst⟩ | ⟨hStart, -, -⟩
          · obtain rfl := Option.some.inj (hRule.symm.trans hRule')
            rw [hDot] at hFirst
            obtain ⟨back, hSymbols⟩ : ∃ back, info.symbols = symbol :: back := by
              cases hForm : info.symbols with
              | nil => simp [hForm] at hFirst
              | cons first back =>
                  rw [hForm] at hFirst
                  exact ⟨back, by rw [Option.some.inj hFirst]⟩
            have hStarts := Grammar.starts_of_rule (Array.mem_of_getElem? hRule) hSymbols
            exact (ih hAbove).trans (Nat.add_le_add_right
              (Nat.mul_le_mul_left _ (Grammar.hidingRank_le hStarts)) _)
          · rw [hStart] at hRule
            simp at hRule

/-- There is room for only so many empty symbols at the end of a path. -/
theorem length_le_of_empty (h : Generated g m t) (hProper : g.Proper) (hGrounded : g.Grounded)
    {most : Nat} (hMost : ∀ info ∈ g.rules, info.symbols.length ≤ most)
    (hPath : m.Path (above ++ below)) (hEmpty : ∀ step ∈ above, g.Derives [step.1] []) :
    above.length ≤ most * (g.symbols.size + 1) + 1 := by
  cases above with
  | nil => exact Nat.zero_le _
  | cons step above =>
      cases hPath with
      | @cons _ symbol next hBelow hMove =>
          obtain ⟨item, hItem, hNext⟩ := h.explored.exists_waiting hMove
          have hRest := h.length_le_of_waiting hProper hGrounded hMost hBelow
            (fun step hMem => hEmpty step (List.mem_cons_of_mem _ hMem)) hItem hNext
          have hRank : g.hidingRank symbol ≤ g.symbols.size := countBefore_le
          rw [Nat.mul_succ]
          exact Nat.succ_le_succ (hRest.trans
            (Nat.add_le_add_right (Nat.mul_le_mul_left _ hRank) _))

/-- How much there is to reduce on a path with an empty end, where there is room for some: the path
below the end, then the symbol that the end stands on, then the end. -/
noncomputable def toReduce (g : Grammar) (room : Nat) (above below : List (SymbolId × StateId)) :
    Nat × Nat × Nat :=
  (below.length, (below.head?.map fun step => g.becomingRank step.1).getD 0,
    roomWeight g.becomingRank (g.symbols.size + 2) room above)

/-- What comes first counts for more. -/
def LessToReduce : Nat × Nat × Nat → Nat × Nat × Nat → Prop :=
  Prod.Lex (· < ·) (Prod.Lex (· < ·) (· < ·))

/-- A symbol becomes the first one of its rule, when the others derive nothing. -/
theorem becomingRank_lt_of_top (hProper : g.Proper) (hGrounded : g.Grounded) {info : Rule}
    (hRules : info ∈ g.rules) {rest : List (SymbolId × StateId)} {first : SymbolId × StateId}
    (hSymbols : ((rest ++ [first]).map (·.1)).reverse = info.symbols)
    (hEmpty : ∀ step ∈ rest, g.Derives [step.1] []) :
    g.becomingRank info.lhs < g.becomingRank first.1 := by
  have hBegins : info.symbols = first.1 :: (rest.map (·.1)).reverse := by
    rw [← hSymbols]
    simp
  refine hGrounded.becomingRank_lt (hProper.lhs info hRules).2
    (Grammar.becomes_of_rule hRules hBegins (Grammar.derives_nil_of_forall fun other hMem => ?_))
  obtain ⟨step, hIn, rfl⟩ := List.mem_map.mp (List.mem_reverse.mp hMem)
  exact hEmpty step hIn

/-- A reduction within an empty end leaves an empty end, with less to reduce. -/
theorem lessToReduce_within (h : Generated g m t) (hProper : g.Proper) (hGrounded : g.Grounded)
    {most : Nat} (hMost : ∀ info ∈ g.rules, info.symbols.length ≤ most) {info : Rule}
    (hRules : info ∈ g.rules) {next : StateId} {top rest : List (SymbolId × StateId)}
    (hSymbols : (top.map (·.1)).reverse = info.symbols)
    (hPath : m.Path ((info.lhs, next) :: rest ++ below))
    (hEmpty : ∀ step ∈ top ++ rest, g.Derives [step.1] []) :
    (∀ step ∈ (info.lhs, next) :: rest, g.Derives [step.1] [])
      ∧ LessToReduce (toReduce g (most * (g.symbols.size + 1) + 1) ((info.lhs, next) :: rest) below)
        (toReduce g (most * (g.symbols.size + 1) + 1) (top ++ rest) below) := by
  have hAfter : ∀ step ∈ (info.lhs, next) :: rest, g.Derives [step.1] [] := by
    intro step hMem
    rcases List.mem_cons.mp hMem with rfl | hMem
    · refine .head (Grammar.produces_of_mem hRules) (Grammar.derives_nil_of_forall fun other hIn => ?_)
      rw [← hSymbols] at hIn
      obtain ⟨step, hStep, rfl⟩ := List.mem_map.mp (List.mem_reverse.mp hIn)
      exact hEmpty step (List.mem_append_left _ hStep)
    · exact hEmpty step (List.mem_append_right _ hMem)
  refine ⟨hAfter, Prod.Lex.right _ (Prod.Lex.right _ ?_)⟩
  rcases List.eq_nil_or_concat top with rfl | ⟨more, first, hTop⟩
  · refine roomWeight_push ?_ (h.length_le_of_empty hProper hGrounded hMost hPath hAfter)
    exact Nat.lt_of_le_of_lt (Nat.succ_le_succ countBefore_le) (Nat.lt_succ_self _)
  · rw [List.concat_eq_append] at hTop
    subst hTop
    rw [List.append_assoc]
    refine roomWeight_replace ?_ (Nat.succ_pos _) more
    exact becomingRank_lt_of_top hProper hGrounded hRules hSymbols
      fun step hMem => hEmpty step (by simp [hMem])

/-- A reduction that goes below an empty end leaves less to reduce. -/
theorem lessToReduce_below (hProper : g.Proper) (hGrounded : g.Grounded) (room : Nat) {info : Rule}
    (hRules : info ∈ g.rules) {next : StateId} {used rest : List (SymbolId × StateId)}
    (hSome : used ≠ []) (hSymbols : ((above ++ used).map (·.1)).reverse = info.symbols)
    (hEmpty : ∀ step ∈ above, g.Derives [step.1] []) :
    LessToReduce (toReduce g room [] ((info.lhs, next) :: rest))
      (toReduce g room above (used ++ rest)) := by
  rcases used with _ | ⟨first, _ | ⟨second, used⟩⟩
  · exact absurd rfl hSome
  · refine Prod.Lex.right _ (Prod.Lex.left _ _ ?_)
    exact becomingRank_lt_of_top hProper hGrounded hRules hSymbols hEmpty
  · refine Prod.Lex.left _ _ ?_
    simp only [List.length_cons, List.length_append]
    omega

/-- The stacks that the tables lead to, whatever is read, are paths. -/
theorem exists_path (h : Generated g m t) (hProper : g.Proper) {states : List StateId}
    (hReached : t.Reached states) : ∃ steps, m.Path steps ∧ states = steps.map (·.2) := by
  induction hReached with
  | nil => exact ⟨[], .nil, rfl⟩
  | shift _ hShift ih =>
      obtain ⟨steps, hPath, rfl⟩ := ih
      rw [headD_states] at hShift
      exact ⟨_, hPath.cons (h.shift hShift), rfl⟩
  | reduce _ hStep ih =>
      obtain ⟨steps, hPath, rfl⟩ := ih
      exact h.path_of_reduction hProper hPath hStep

end Tables.Generated

namespace Tables.Faithful
open Generated
variable {g : Grammar} {m : Automaton} {t : Tables} {above below : List (SymbolId × StateId)}

/-- A reduction on a path with an empty end leaves such a path, with less to reduce. -/
theorem exists_lessToReduce (h : Faithful g m t) (hProper : g.Proper) (hGrounded : g.Grounded)
    {most : Nat} (hMost : ∀ info ∈ g.rules, info.symbols.length ≤ most)
    (hPath : m.Path (above ++ below)) (hEmpty : ∀ step ∈ above, g.Derives [step.1] [])
    {terminal : SymbolId} {after : List StateId}
    (hStep : t.reduction? terminal ((above ++ below).map (·.2)) = some after) :
    ∃ above' below', after = (above' ++ below').map (·.2) ∧ m.Path (above' ++ below')
      ∧ (∀ step ∈ above', g.Derives [step.1] [])
      ∧ LessToReduce (toReduce g (most * (g.symbols.size + 1) + 1) above' below')
        (toReduce g (most * (g.symbols.size + 1) + 1) above below) := by
  obtain ⟨rule, -, -, hReduce, -⟩ := reduction?_eq_some hStep
  rw [headD_states] at hReduce
  obtain ⟨info, next, top, rest, hRule, hSplit, hSymbols, hAfter, hSame⟩ :=
    h.exists_reduction hProper hPath hReduce
  obtain rfl := Option.some.inj (hStep.symm.trans hSame)
  have hRules := Array.mem_of_getElem? hRule
  obtain ⟨kept, hAbove, hRest⟩ | ⟨used, hSome, hTop, hBelow⟩ :
      (∃ kept, above = top ++ kept ∧ rest = kept ++ below)
        ∨ ∃ used, used ≠ [] ∧ top = above ++ used ∧ below = used ++ rest := by
    rcases List.append_eq_append_iff.mp hSplit with ⟨used, hTop, hBelow⟩ | ⟨kept, hAbove, hRest⟩
    · by_cases hNone : used = []
      · exact .inl ⟨[], by simpa [hNone] using hTop.symm, by simpa [hNone] using hBelow.symm⟩
      · exact .inr ⟨used, hNone, hTop, hBelow⟩
    · exact .inl ⟨kept, hAbove, hRest⟩
  · subst hAbove hRest
    obtain ⟨hEmpty', hLess⟩ :=
      h.lessToReduce_within hProper hGrounded hMost hRules hSymbols hAfter hEmpty
    exact ⟨(info.lhs, next) :: kept, below, rfl, hAfter, hEmpty', hLess⟩
  · subst hTop hBelow
    exact ⟨[], (info.lhs, next) :: rest, rfl, hAfter, by simp,
      lessToReduce_below hProper hGrounded _ hRules hSome hSymbols hEmpty⟩

/-- Reductions of a grounded grammar end on a path with an empty end. -/
theorem acc_of_grounded (h : Faithful g m t) (hProper : g.Proper) (hGrounded : g.Grounded)
    (terminal : SymbolId) {most : Nat} (hMost : ∀ info ∈ g.rules, info.symbols.length ≤ most)
    (above below : List (SymbolId × StateId)) (hPath : m.Path (above ++ below))
    (hEmpty : ∀ step ∈ above, g.Derives [step.1] []) :
    Acc (t.After terminal) ((above ++ below).map (·.2)) := by
  refine ⟨_, fun after hStep => ?_⟩
  obtain ⟨above', below', rfl, hPath', hEmpty', hLess⟩ :=
    h.exists_lessToReduce hProper hGrounded hMost hPath hEmpty hStep
  exact acc_of_grounded h hProper hGrounded terminal hMost above' below' hPath' hEmpty'
termination_by toReduce g (most * (g.symbols.size + 1) + 1) above below
decreasing_by exact hLess

/-- Reductions of a grounded grammar end on every path. -/
theorem ends_of_grounded (h : Faithful g m t) (hProper : g.Proper) (hGrounded : g.Grounded)
    (terminal : SymbolId) {steps : List (SymbolId × StateId)} (hPath : m.Path steps) :
    t.Ends terminal (steps.map (·.2)) := by
  obtain ⟨most, hMost⟩ : ∃ most, ∀ info ∈ g.rules, info.symbols.length ≤ most := by
    refine ⟨(g.rules.toList.map fun info => info.symbols.length).sum, fun info hMem => ?_⟩
    exact List.le_sum_of_mem (List.mem_map.mpr ⟨info, by simpa using hMem, rfl⟩)
  exact ends_iff_acc.mpr (h.acc_of_grounded hProper hGrounded terminal hMost [] steps hPath (by simp))

end Tables.Faithful
end IncrementalParsing
