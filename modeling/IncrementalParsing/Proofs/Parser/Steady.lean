import IncrementalParsing.Proofs.Tree.Reports

/-! Stacks without damage. Shifts and reductions make them out of each other, and on them a reduction
takes exactly the entries of its rule. -/
namespace IncrementalParsing
open Subtree

namespace ParseStack
variable {t : Tables} {s : ParseStack}

/-- Nothing on a stack is damaged, or lies aside. -/
structure Clean (s : ParseStack) : Prop where
  opened : s.openError = #[]
  entries : ∀ e ∈ s.entries, e.extra = false ∧ All (·.hasError = false) e.subtree

theorem Clean.closeError (h : s.Clean) : s.closeError = s := by
  rw [ParseStack.closeError, if_pos (by simp [h.opened])]

/-- A clean stack stays clean under a piece without damage. -/
theorem Clean.push (h : s.Clean) (next : StateId) {u : Subtree} (hWhole : All (·.hasError = false) u) :
    (s.push next u).Clean := by
  rw [ParseStack.push, h.closeError]
  refine ⟨h.opened, fun e hMem => ?_⟩
  rcases List.mem_cons.mp hMem with rfl | hMem
  · exact ⟨rfl, hWhole⟩
  · exact h.entries e hMem

theorem Clean.takeWhile_extra (h : s.Clean) : s.entries.takeWhile (·.extra) = [] := by
  cases hEntries : s.entries with
  | nil => rfl
  | cons e es =>
      have hExtra := (h.entries e (by simp [hEntries])).1
      rw [List.takeWhile_cons_of_neg (by simp [hExtra])]

theorem all_whole_withField {u : Subtree} (h : All (·.hasError = false) u) (field : Option FieldId) :
    All (·.hasError = false) (u.withField field) :=
  h.withField (fun field u hWhole => (hasError_withField field u).trans hWhole) field

/-- A node over children without damage has none, unless it is an `ERROR` node. -/
theorem all_whole_branch {serial : Nat} {kind : SymbolId} {state : Option StateId}
    {children : List Subtree} {lookaheadEnd : Nat} {fragile : Bool} (hKind : kind ≠ errorSymbol)
    (hChildren : ∀ c ∈ children, All (·.hasError = false) c) :
    All (·.hasError = false) (branch serial kind state children lookaheadEnd fragile) := by
  refine all_iff.mpr ⟨Bool.eq_false_iff.mpr fun hDamaged => ?_, hChildren⟩
  rcases (hasError_branch_iff ..).mp hDamaged with hIs | ⟨c, hChild, hError⟩
  · exact hKind hIs
  · exact absurd ((hChildren c hChild).self.symm.trans hError) (by simp)

/-- A reduction of what is not damaged makes a node that is not. -/
theorem Clean.reduce (h : s.Clean) {info : Production} (hLhs : info.lhs ≠ errorSymbol)
    {lookaheadStop : Nat} (hReduced : (s.reduce t info lookaheadStop).1 = true) :
    (s.reduce t info lookaheadStop).2.Clean := by
  have hChildren : ∀ u ∈ (takeChildren info.rhs.reverse (s.entries.dropWhile (·.extra)) []).1,
      All (·.hasError = false) u := by
    intro u hMem
    obtain ⟨e, hEntry, field, rfl⟩ := exists_of_mem_takeChildren hMem
    exact all_whole_withField (h.entries e ((List.dropWhile_suffix _).subset hEntry)).2 field
  have hNode : All (·.hasError = false) (s.reduced t info lookaheadStop) := by
    refine all_whole_branch hLhs ?_
    split
    · exact hChildren
    · exact forall_all_unwrapped (fun field u hWhole => (hasError_withField field u).trans hWhole) _
        hChildren
  have hBase : (s.uncovered info).Clean := by
    obtain ⟨top, hSplit, -⟩ := s.entries_split info.rhs.reverse
    refine ⟨h.opened, fun e hMem => h.entries e ?_⟩
    rw [hSplit]
    exact List.mem_append_right _ hMem
  rw [reduce_eq, h.closeError] at hReduced ⊢
  dsimp only at hReduced ⊢
  rw [h.takeWhile_extra, List.foldr_nil]
  split
  · exact hBase.push _ hNode
  · rename_i hGoto
    rw [hGoto] at hReduced
    simp at hReduced

/-- The root over a stack without damage has none, if the text was accepted. -/
theorem Clean.toRoot (h : s.Clean) (hStart : t.start ≠ errorSymbol) (length : Nat) :
    (s.toRoot t length true).1.hasError = false := by
  refine Bool.eq_false_iff.mpr fun hDamaged => ?_
  obtain ⟨c, hChild, hError⟩ : ∃ c ∈ (s.toRoot t length true).1.children, c.hasError = true := by
    simpa using (hasError_toRoot hStart length true).mp hDamaged
  have hPieces : ∀ u ∈ s.closeError.rootPieces t, All (·.hasError = false) u := by
    intro u hMem
    rw [h.closeError] at hMem
    obtain ⟨e, hEntry, hPiece⟩ := List.mem_flatMap.mp hMem
    have hWhole := (h.entries e (List.mem_reverse.mp hEntry)).2
    split at hPiece
    · exact hWhole.child hPiece
    · obtain rfl := List.mem_singleton.mp hPiece
      exact all_whole_withField hWhole none
  rw [children_toRoot] at hChild
  have hWhole := forall_all_unwrapped
    (fun field u hWhole => (hasError_withField field u).trans hWhole) _ hPieces c hChild
  exact absurd (hWhole.self.symm.trans hError) (by simp)

/-- Without extras the level of a stack is the number of its steps. -/
theorem topLevel_eq {es : List StackEntry} (hStacked : Stacked es) (hExtra : ∀ e ∈ es, e.extra = false) :
    topLevel es = (steps es).length := by
  induction es with
  | nil => rfl
  | cons e es ih =>
      rw [steps_cons_of_not_extra (hExtra e (by simp)), List.length_cons, topLevel_cons, hStacked.1.2,
        ih hStacked.2 fun f hMem => hExtra f (by simp [hMem])]

/-- So the height of a clean stack is that number. -/
theorem Clean.height_eq (h : s.Clean) {kinds : Kinds} (hSound : s.Sound kinds) :
    s.height = (steps s.entries).length := by
  rw [height, if_pos (by simp [h.opened]), Nat.add_zero]
  exact topLevel_eq hSound.stacked fun e hMem => (h.entries e hMem).1

/-- The stacks that shifts and reductions lead to without damage, each with the kind of the token that
is in front of it. -/
inductive Steady (t : Tables) : ParseStack → SymbolId → Prop
  | start (nextSerial : Nat) (token : SymbolId) : Steady t (empty nextSerial) token
  | read {s : ParseStack} {token : SymbolId} (h : Steady t s token) (nextSerial : Nat) :
      Steady t { s with nextSerial } token
  | shift {s : ParseStack} {u : Subtree} {next : StateId} (h : Steady t s u.kind)
      (hShift : t.action s.state u.kind = .shift next) (hLeaf : u.isLeaf = true)
      (hWhole : u.hasError = false) (token : SymbolId) : Steady t (s.push next u) token
  | reduce {s : ParseStack} {token : SymbolId} {rule : RuleId} {info : Production}
      (h : Steady t s token) (hReduce : t.action s.state token = .reduce rule)
      (hRule : t.rules[rule]? = some info) (lookaheadStop : Nat) :
      Steady t (s.reduce t info lookaheadStop).2 token

section Steady
variable {g : Grammar} {m : Automaton} {token : SymbolId} {rule : RuleId}

/-- Without extra entries, a reduction takes an entry for each slot. -/
theorem takeChildren_append {top : List StackEntry} (hExtra : ∀ e ∈ top, e.extra = false)
    (slots : List Slot) (hLength : top.length = slots.length) (rest : List StackEntry)
    (taken : List Subtree) :
    takeChildren slots (top ++ rest) taken
      = ((slots.zipWith (fun slot e => e.subtree.withField slot.field) top).reverse ++ taken, rest) := by
  induction slots generalizing top taken with
  | nil =>
      obtain rfl := List.length_eq_zero_iff.mp hLength
      cases rest <;> rfl
  | cons slot slots ih =>
      cases top with
      | nil => simp at hLength
      | cons e top =>
          rw [List.cons_append, takeChildren, if_neg (by simp [hExtra e (by simp)]),
            ih (fun f hMem => hExtra f (by simp [hMem])) (by simpa using hLength)]
          simp

theorem Clean.steps_eq (h : s.Clean) :
    steps s.entries = s.entries.map fun e => (e.subtree.kind, e.state) := by
  have hExtra : ∀ e ∈ s.entries, e.extra = false := fun e hMem => (h.entries e hMem).1
  rw [steps, List.filter_eq_self.mpr (by simpa using hExtra)]

/-- What a reduction does to a stack without damage: the entries of its rule give way to one for the
node over them. -/
theorem Clean.exists_reduced {P : Subtree → Prop} (hFaithful : t.Faithful g m) (hProper : g.Proper)
    (hLasting : Lasting t P) (hLegal : s.Legal t P m) (h : s.Clean)
    (hReduce : t.action s.state token = .reduce rule) {info : Production}
    (hRule : t.rules[rule]? = some info) (lookaheadStop : Nat) :
    ∃ top rest next node, s.entries = top ++ rest
      ∧ (top.map (·.subtree.kind)).reverse = info.symbols
      ∧ (s.reduce t info lookaheadStop).1 = true
      ∧ (s.reduce t info lookaheadStop).2.entries = stacked rest next node false
      ∧ node.kind = info.lhs
      ∧ node.children =
        let taken := info.rhs.zipWith (fun slot e => e.subtree.withField slot.field) top.reverse
        if t.isHidden info.lhs then taken else unwrapped (t.isHidden ·.kind) taken := by
  have hExtra : ∀ e ∈ s.entries, e.extra = false := fun e hMem => (h.entries e hMem).1
  have hSteps := h.steps_eq
  have hFound := hReduce
  rw [state, ← hLegal.aligned.endOf_steps] at hFound
  obtain ⟨other, next, hOther, hBound, hSymbols, -, -⟩ :=
    hFaithful.reduction hProper hLegal.aligned.path hFound
  obtain rfl := Option.some.inj (hRule.symm.trans hOther)
  obtain ⟨other, next, hOther, -, hGoto⟩ := hLegal.leads_on hFaithful hProper hLasting hReduce
  obtain rfl := Option.some.inj (hRule.symm.trans hOther)
  have hLength : (s.entries.take info.rhs.length).length = info.rhs.reverse.length := by
    rw [List.length_reverse, List.length_take, Nat.min_eq_left]
    rwa [hSteps, List.length_map] at hBound
  have hTake := takeChildren_append (fun e hMem => hExtra e (List.mem_of_mem_take hMem))
    info.rhs.reverse hLength (s.entries.drop info.rhs.length) []
  have hDrop : s.entries.dropWhile (·.extra) = s.entries := by
    cases hEntries : s.entries with
    | nil => rfl
    | cons e es => exact List.dropWhile_cons_of_neg (by simp [hExtra e (by simp [hEntries])])
  have hTaken : takeChildren info.rhs.reverse (s.entries.dropWhile (·.extra)) []
      = (info.rhs.zipWith (fun slot e => e.subtree.withField slot.field)
          (s.entries.take info.rhs.length).reverse, s.entries.drop info.rhs.length) := by
    rw [hDrop]
    rw [List.take_append_drop] at hTake
    rw [hTake, List.append_nil, List.reverse_zipWith hLength.symm, List.reverse_reverse]
  have hBase : (s.uncovered info).closeError = s.uncovered info :=
    (Clean.mk h.opened fun e hMem => h.entries e (by
      rw [uncovered, withEntries, hTaken] at hMem
      exact List.mem_of_mem_drop hMem) : (s.uncovered info).Clean).closeError
  have hAfter : s.reduce t info lookaheadStop
      = (true, (s.uncovered info).push next (s.reduced t info lookaheadStop)) := by
    rw [reduce_eq, h.closeError]
    simp only [hGoto, h.takeWhile_extra, List.foldr_nil]
  rw [hAfter]
  refine ⟨s.entries.take info.rhs.length, s.entries.drop info.rhs.length, next,
    s.reduced t info lookaheadStop, (List.take_append_drop _ _).symm, ?_, rfl, ?_, rfl, ?_⟩
  · rw [hSteps, ← List.map_take, List.map_map] at hSymbols
    exact hSymbols
  · rw [ParseStack.push, hBase, uncovered, withEntries, hTaken]
  · rw [reduced, children_branch, hTaken]

theorem lasting_true : Lasting t fun _ => True := ⟨fun _ _ _ => trivial, fun _ _ _ _ _ => trivial⟩

/-- What is made by shifts and reductions alone is without damage, and a path. -/
theorem Steady.clean_legal (hFaithful : t.Faithful g m) (hProper : g.Proper) (h : Steady t s token) :
    s.Clean ∧ s.Legal t (fun _ => True) m := by
  induction h with
  | start nextSerial => exact ⟨⟨rfl, by simp [empty]⟩, legal_empty nextSerial⟩
  | read _ nextSerial ih => exact ⟨⟨ih.1.opened, ih.1.entries⟩, ih.2.withSerial nextSerial⟩
  | @shift s u next _ hShift hLeaf hWhole _ ih =>
      have hMove := hFaithful.shift hShift
      exact ⟨ih.1.push next (all_of_isLeaf hLeaf hWhole), ih.2.push lasting_true hMove
        (hFaithful.symbol_of_transition hProper hMove).2.2 (all_of_isLeaf hLeaf trivial)⟩
  | @reduce s token rule info _ hReduce hRule lookaheadStop ih =>
      have hLhs := lhs_ne_error hFaithful.toGenerated hProper hRule
      obtain ⟨_, _, _, _, -, -, hDone, -⟩ := ih.1.exists_reduced hFaithful hProper lasting_true ih.2
        hReduce hRule lookaheadStop
      exact ⟨ih.1.reduce hLhs hDone, ih.2.reduce hFaithful.toGenerated hProper lasting_true hReduce hRule
        lookaheadStop fun _ => trivial⟩

end Steady
end ParseStack
end IncrementalParsing
