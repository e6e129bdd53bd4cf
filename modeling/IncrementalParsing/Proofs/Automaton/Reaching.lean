import IncrementalParsing.Proofs.Automaton.Following

/-! The states of the automaton from outside: a path leads to each of them, and each is known by the
items that hold in it. -/
namespace IncrementalParsing
namespace Automaton
variable {a : Augmented} {g : Grammar} {m : Automaton}

/-- Every state but the first one is found from an earlier one. -/
def Entered (a : Augmented) (m : Automaton) : Prop :=
  ∀ (state : Nat) kernel, m.kernels[state]? = some kernel → state ≠ 0 →
    ∃ (earlier : Nat) (source : Kernel) (symbol : SymbolId), earlier < state
      ∧ m.kernels[earlier]? = some source ∧ (symbol, kernel) ∈ a.successors source

theorem entered_initial (a : Augmented) : (initial a).Entered a := by
  intro state kernel hSome hState
  cases state with
  | zero => exact absurd rfl hState
  | succ state => simp [initial] at hSome

theorem Entered.expand (h : m.Entered a) (hExplored : m.Explored a) {kernel : Kernel}
    (hKernel : m.kernels[m.transitions.size]? = some kernel) : (m.expand a kernel).Entered a := by
  obtain ⟨hExtends, -, -, hOld⟩ := number_all hExplored.numbered (a.successors kernel) []
  have hNext : m.transitions.size < m.kernels.size := (Array.getElem?_eq_some_iff.mp hKernel).1
  intro state other hSome hState
  rcases Nat.lt_or_ge state m.kernels.size with hLess | hMore
  · obtain ⟨before, hBefore⟩ : ∃ before, m.kernels[state]? = some before :=
      ⟨_, Array.getElem?_eq_getElem hLess⟩
    obtain rfl := Option.some.inj ((hExtends.kernels state before hBefore).symm.trans hSome)
    obtain ⟨earlier, source, symbol, hEarlier, hSource, hSuccessor⟩ := h state before hBefore hState
    exact ⟨earlier, source, symbol, hEarlier, hExtends.kernels _ _ hSource, hSuccessor⟩
  · rcases hOld state other hSome with hBefore | ⟨symbol, hMem⟩
    · exact absurd (Array.getElem?_eq_some_iff.mp hBefore).1 (Nat.not_lt.mpr hMore)
    · exact ⟨m.transitions.size, kernel, symbol, Nat.lt_of_lt_of_le hNext hMore,
        hExtends.kernels _ _ hKernel, hMem⟩

theorem entered_ofGrammar (hStates : ofGrammar a = .ok m) : m.Entered a :=
  (explore_induction (P := fun m => m.Explored a ∧ m.Entered a)
    (fun h hKernel _ => ⟨h.1.expand hKernel, h.2.expand h.1 hKernel⟩) _
    ⟨explored_initial a, entered_initial a⟩ hStates).2

/-- What the construction finds behind the kernel of a state is entered from there. -/
theorem Explored.exists_move_of_successor (h : m.Explored a) {state next : StateId}
    {source target : Kernel} {symbol : SymbolId} {row : List (SymbolId × StateId)}
    (hRow : m.transitions[state]? = some row) (hSource : m.kernels[state]? = some source)
    (hTarget : m.kernels[next]? = some target) (hSuccessor : (symbol, target) ∈ a.successors source) :
    (symbol, next) ∈ m.transitions.getD state [] := by
  obtain ⟨kernel, hKernel, hMoves⟩ := h.row state row hRow
  obtain rfl := Option.some.inj (hSource.symm.trans hKernel)
  obtain ⟨place, hLess, hAt⟩ := List.mem_iff_getElem.mp hSuccessor
  have hLength := hMoves.length_eq
  obtain ⟨hSymbol, hNumber⟩ := List.Forall₂.get hMoves hLess (hLength ▸ hLess)
  simp only [List.get_eq_getElem, hAt] at hSymbol hNumber
  have hNext : row[place].2 = next := by
    have hFirst := (h.numbered target _).mpr hNumber
    exact Option.some.inj (hFirst.symm.trans ((h.numbered target next).mpr hTarget))
  refine mem_moves.mpr ⟨row, hRow, ?_⟩
  rw [hSymbol, ← hNext]
  exact List.getElem_mem _

/-- A path leads to every state. -/
theorem exists_path_to (hStates : ofGrammar a = .ok m) {state : StateId}
    (hState : state < m.kernels.size) : ∃ steps, m.Path steps ∧ endOf steps = state := by
  have h := explored_ofGrammar hStates
  induction state using Nat.strongRecOn with
  | ind state ih =>
      by_cases hFirst : state = 0
      · exact ⟨[], .nil, hFirst.symm⟩
      · have hKernel := Array.getElem?_eq_getElem hState
        obtain ⟨earlier, source, symbol, hEarlier, hSource, hSuccessor⟩ :=
          entered_ofGrammar hStates state _ hKernel hFirst
        have hLess := Nat.lt_trans hEarlier hState
        obtain ⟨steps, hPath, rfl⟩ := ih earlier hEarlier hLess
        have hRow := Array.getElem?_eq_getElem (finished_ofGrammar hStates ▸ hLess)
        exact ⟨(symbol, state) :: steps,
          hPath.cons (h.exists_move_of_successor hRow hSource hKernel hSuccessor), rfl⟩

/-- The kernel of a state that is entered has the items that have come somewhere, and there are some. -/
theorem Explored.kernel_of_ne_zero (h : m.Explored a) {state : StateId} {kernel : Kernel}
    (hKernel : m.kernels[state]? = some kernel) (hState : state ≠ 0) :
    (∀ item, item ∈ kernel ↔ m.Holds a state item ∧ item.dot ≠ 0) ∧ kernel ≠ [] := by
  obtain ⟨source, symbol, hSuccessor⟩ := h.reached state kernel hKernel hState
  have hHere := getD_kernels hKernel
  refine ⟨fun item => ⟨fun hMem => ?_, fun ⟨hHolds, hDot⟩ => ?_⟩, ?_⟩
  · obtain ⟨before, -, -, rfl⟩ := Augmented.advance_of_mem_successors hSuccessor hMem
    exact ⟨.kernel (hHere ▸ hMem), Nat.succ_ne_zero _⟩
  · exact hHere ▸ hHolds.mem_kernel hDot
  · obtain ⟨before, -, -, hMem⟩ := Augmented.exists_next_of_mem_successors hSuccessor
    exact List.ne_nil_of_mem hMem

/-- In the first state nothing has come anywhere. -/
theorem Explored.dot_eq_zero (h : m.Explored a) {item : Item} (hHolds : m.Holds a 0 item) :
    item.dot = 0 := by
  by_contra hDot
  have hMem := hHolds.mem_kernel hDot
  rw [getD_kernels h.initial] at hMem
  obtain rfl := List.mem_singleton.mp hMem
  exact hDot rfl

/-- States in which the same items hold are the same. -/
theorem Explored.eq_of_holds (h : m.Explored a) {state other : StateId} (hState : state < m.kernels.size)
    (hOther : other < m.kernels.size) (hSame : ∀ item, m.Holds a state item ↔ m.Holds a other item) :
    state = other := by
  have hKernel := Array.getElem?_eq_getElem hState
  have hAnother := Array.getElem?_eq_getElem hOther
  -- Only the first state has nothing that has come anywhere.
  have hZero : ∀ {state other : StateId}, state < m.kernels.size →
      (∀ item, m.Holds a state item ↔ m.Holds a other item) → other = 0 → state = 0 := by
    rintro state _ hState hSame rfl
    by_contra hFirst
    obtain ⟨hItems, hSome⟩ := h.kernel_of_ne_zero (Array.getElem?_eq_getElem hState) hFirst
    obtain ⟨item, hMem⟩ := List.exists_mem_of_ne_nil _ hSome
    obtain ⟨hHolds, hDot⟩ := (hItems item).mp hMem
    exact hDot (h.dot_eq_zero ((hSame item).mp hHolds))
  by_cases hFirst : other = 0
  · rw [hZero hState hSame hFirst, hFirst]
  · have hNonzero : state ≠ 0 := fun hHere => hFirst (hZero hOther (fun item => (hSame item).symm) hHere)
    obtain ⟨hItems, -⟩ := h.kernel_of_ne_zero hKernel hNonzero
    obtain ⟨hOthers, -⟩ := h.kernel_of_ne_zero hAnother hFirst
    have hPerm : m.kernels[state].Perm m.kernels[other] := by
      refine (List.perm_ext_iff_of_nodup (h.nodup_kernel hKernel) (h.nodup_kernel hAnother)).mpr ?_
      intro item
      rw [hItems, hOthers, hSame]
    have hEqual : m.kernels[state] = m.kernels[other] := by
      refine hPerm.eq_of_pairwise (fun x y _ _ hLess hMore => ?_) (h.kernel_sorted hKernel)
        (h.kernel_sorted hAnother)
      unfold Augmented.ItemLt at hLess hMore
      omega
    rw [← hEqual] at hAnother
    exact Option.some.inj
      (((h.numbered _ _).mpr hKernel).symm.trans ((h.numbered _ _).mpr hAnother))

end Automaton
end IncrementalParsing
