import IncrementalParsing.Proofs.Automaton.Spreading

/-! The lookahead sets are complete. What may follow an item of a state may follow the item that it
becomes behind the next symbol: it arises in the closure of one kernel item or is passed on from
there, and passing on has come to an end. -/
namespace IncrementalParsing

/-- What one step of a fold brings about, and no step takes back, holds at the end. -/
theorem List.foldl_brings {α β : Type} {I Q : α → Prop} {f : α → β → α} {steps : List β} {step : β}
    (hMem : step ∈ steps) (hKeepI : ∀ a, ∀ b ∈ steps, I a → I (f a b))
    (hKeepQ : ∀ a, ∀ b ∈ steps, Q a → Q (f a b)) (hMake : ∀ a, I a → Q (f a step)) {a : α} (hStart : I a) :
    Q (steps.foldl f a) := by
  obtain ⟨front, back, rfl⟩ := List.append_of_mem hMem
  rw [List.foldl_append, List.foldl_cons]
  have hFront : I (front.foldl f a) :=
    List.foldlRecOn front f hStart fun a hHolds b hB => hKeepI a b (by simp [hB]) hHolds
  exact List.foldlRecOn back f (hMake _ hFront) fun a hHolds b hB => hKeepQ a b (by simp [hB]) hHolds

namespace Augmented
variable {g : Grammar}

/-- The two numbers that an item is compared by. -/
def ordinals (x : Item) : Nat × Nat := (x.rule, x.dot)

/-- Items in increasing order. -/
def ItemLt (x y : Item) : Prop :=
  (ordinals x).1 < (ordinals y).1
    ∨ (ordinals x).1 = (ordinals y).1 ∧ (ordinals x).2 < (ordinals y).2

/-- The items of one symbol are collected in their order, each one once. -/
theorem group_sorted {moves : List (SymbolId × Item)} (hOrdered : moves.Pairwise MoveLe) :
    ∀ found ∈ group moves, found.2.Pairwise ItemLt := by
  induction moves with
  | nil => simp [group]
  | cons move moves ih =>
      obtain ⟨symbol, item⟩ := move
      obtain ⟨hFirst, hRest⟩ := List.pairwise_cons.mp hOrdered
      have hGroups := ih hRest
      rw [group]
      split
      · rename_i other kernel more hGroup
        rw [hGroup] at hGroups
        obtain ⟨hHere, hMore⟩ := List.forall_mem_cons.mp hGroups
        split
        · exact List.forall_mem_cons.mpr ⟨List.pairwise_singleton _ _, hGroups⟩
        · rename_i hSame
          obtain rfl : symbol = other := Classical.not_not.mp hSame
          split
          · exact hGroups
          · rename_i hNew
            refine List.forall_mem_cons.mpr ⟨?_, hMore⟩
            -- The item is not above the first one of the kernel, and differs from it.
            have hBelow : ∀ found ∈ kernel, item.rule < found.rule
                ∨ item.rule = found.rule ∧ item.dot ≤ found.dot := by
              intro found hMem
              have hMoves : (symbol, found) ∈ moves :=
                mem_group.mp ⟨kernel, by rw [hGroup]; simp, hMem⟩
              rcases moveLe_iff.mp (hFirst _ hMoves) with hLess | ⟨-, hLe⟩
              · exact absurd hLess (Nat.lt_irrefl _)
              · exact hLe
            cases kernel with
            | nil => exact List.pairwise_singleton _ _
            | cons head kernel =>
                have hHead : ItemLt item head := by
                  rcases hBelow head (by simp) with hLess | ⟨hRule, hDot⟩
                  · exact .inl hLess
                  · refine .inr ⟨hRule, Nat.lt_of_le_of_ne hDot fun hSame => hNew ?_⟩
                    obtain ⟨rule, dot⟩ := item
                    obtain ⟨headRule, headDot⟩ := head
                    obtain rfl : rule = headRule := hRule
                    obtain rfl : dot = headDot := hSame
                    rfl
                refine List.pairwise_cons.mpr ⟨fun found hMem => ?_, hHere⟩
                rcases List.mem_cons.mp hMem with rfl | hMem
                · exact hHead
                · have hNext := (List.pairwise_cons.mp hHere).1 found hMem
                  unfold ItemLt at hHead hNext ⊢
                  omega
      · simp

theorem successors_sorted {a : Augmented} {source target : Kernel} {symbol : SymbolId}
    (hTarget : (symbol, target) ∈ a.successors source) : target.Pairwise ItemLt := by
  have hOrdered : ((((a.closure source).filterMap fun item =>
      (a.next? item).map fun symbol => (symbol, item.advance))).mergeSort moveLe).Pairwise MoveLe := by
    refine (List.pairwise_mergeSort ?_ ?_ _).imp fun h => h
    · intro x y z hFirst hSecond
      exact trans_of MoveLe hFirst hSecond
    · intro x y
      rcases total_of MoveLe x y with h | h
      · simp [show moveLe x y = true from h]
      · simp [show moveLe y x = true from h]
  exact group_sorted hOrdered _ hTarget

theorem Closure.from_one {a : Augmented} {kernel : Kernel} {item : Item} (h : a.Closure kernel item) :
    ∃ (slot : Nat) (k : Item), kernel[slot]? = some k ∧ a.Closure [k] item := by
  induction h with
  | kernel hMem =>
      obtain ⟨slot, hSlot⟩ := List.mem_iff_getElem?.mp hMem
      exact ⟨slot, _, hSlot, .kernel (by simp)⟩
  | expand _ hNext hSymbol hExpansion ih =>
      obtain ⟨slot, k, hSlot, hClosure⟩ := ih
      exact ⟨slot, k, hSlot, .expand hClosure hNext hSymbol hExpansion⟩

end Augmented

namespace Automaton
variable {g : Grammar} {a : Augmented} {m : Automaton}

/-- A kernel has its items in increasing order. -/
theorem Explored.kernel_sorted (h : m.Explored a) {state : StateId} {kernel : Kernel}
    (hKernel : m.kernels[state]? = some kernel) : kernel.Pairwise Augmented.ItemLt := by
  by_cases hState : state = 0
  · rw [hState, h.initial] at hKernel
    obtain rfl := Option.some.inj hKernel
    exact List.pairwise_singleton _ _
  · obtain ⟨source, symbol, hSuccessor⟩ := h.reached state kernel hKernel hState
    exact Augmented.successors_sorted hSuccessor

/-- No item stands twice in a kernel. -/
theorem Explored.nodup_kernel (h : m.Explored a) {state : StateId} {kernel : Kernel}
    (hKernel : m.kernels[state]? = some kernel) : kernel.Nodup := by
  refine (h.kernel_sorted hKernel).imp fun {x y} hLess hSame => ?_
  subst hSame
  unfold Augmented.ItemLt at hLess
  omega

section Places

/-- Counts the items of some kernels on top of others. -/
def countItems (n : Nat) (kernels : List Kernel) : Nat :=
  kernels.foldl (fun n kernel => n + kernel.length) n

/-- How many kernel items there are. -/
def itemCount (m : Automaton) : Nat := countItems 0 m.kernels.toList

theorem le_countItems (n : Nat) (kernels : List Kernel) : n ≤ countItems n kernels := by
  induction kernels generalizing n with
  | nil => exact Nat.le_refl n
  | cons kernel kernels ih => exact Nat.le_trans (Nat.le_add_right _ _) (ih (n + kernel.length))

theorem getD_foldl_offsets (kernels : List Kernel) (found : Array Nat) (next i : Nat)
    (hLess : i < found.size + kernels.length) :
    (kernels.foldl (fun acc kernel => (acc.1.push acc.2, acc.2 + kernel.length))
        (found, next)).1.getD i 0
      = if i < found.size then found.getD i 0
        else countItems next (kernels.take (i - found.size)) := by
  induction kernels generalizing found next with
  | nil => simp at hLess; simp [hLess]
  | cons kernel kernels ih =>
      rw [List.length_cons] at hLess
      rw [List.foldl_cons, ih _ _ (by dsimp only; rw [Array.size_push]; omega), Array.size_push]
      dsimp only
      rcases Nat.lt_trichotomy i found.size with hFront | hHere | hBack
      · rw [if_pos (by omega), if_pos hFront]
        simp [Array.getD_eq_getD_getElem?, Array.getElem?_push, Nat.ne_of_lt hFront]
      · subst hHere
        simp [Array.getD_eq_getD_getElem?, countItems]
      · rw [if_neg (by omega), if_neg (by omega)]
        obtain ⟨k, hk⟩ : ∃ k, i - found.size = k + 1 := ⟨i - found.size - 1, by omega⟩
        rw [hk, show i - (found.size + 1) = k by omega, List.take_succ_cons]
        rfl

/-- The items of a state are numbered behind those of all states in front. -/
theorem getD_offsets {state : Nat} (hState : state < m.kernels.size) :
    m.offsets.getD state 0 = countItems 0 (m.kernels.toList.take state) := by
  have hPlaces := getD_foldl_offsets m.kernels.toList #[] 0 state (by simpa using hState)
  rw [if_neg (by simp)] at hPlaces
  rw [offsets, ← Array.foldl_toList]
  exact hPlaces

theorem countItems_take_le (n : Nat) (kernels : List Kernel) (i : Nat) :
    countItems n (kernels.take i) ≤ countItems n kernels := by
  calc countItems n (kernels.take i)
      ≤ countItems (countItems n (kernels.take i)) (kernels.drop i) := le_countItems _ _
    _ = countItems n kernels := by
        rw [countItems, countItems, countItems, ← List.foldl_append, List.take_append_drop]

/-- The items of a state come behind those of the states before it. -/
theorem offset_add {state : Nat} {kernel : Kernel} (hKernel : m.kernels[state]? = some kernel) :
    m.offsets.getD state 0 + kernel.length = countItems 0 (m.kernels.toList.take (state + 1)) := by
  have hNext : m.kernels.toList.take (state + 1) = m.kernels.toList.take state ++ [kernel] := by
    rw [List.take_add_one, Array.getElem?_toList, hKernel]
    rfl
  rw [getD_offsets (Array.getElem?_eq_some_iff.mp hKernel).1, hNext, countItems, countItems,
    List.foldl_append]
  rfl

/-- Every item has a number. -/
theorem place_lt {state : Nat} {kernel : Kernel} (hKernel : m.kernels[state]? = some kernel)
    {slot : Nat} (hSlot : slot < kernel.length) : m.offsets.getD state 0 + slot < m.itemCount := by
  calc m.offsets.getD state 0 + slot
      < m.offsets.getD state 0 + kernel.length := Nat.add_lt_add_left hSlot _
    _ = countItems 0 (m.kernels.toList.take (state + 1)) := offset_add hKernel
    _ ≤ m.itemCount := countItems_take_le _ _ _

/-- So items of different states have different numbers. -/
theorem place_lt_of_lt {state other : Nat} {kernel : Kernel} (hKernel : m.kernels[state]? = some kernel)
    {slot : Nat} (hSlot : slot < kernel.length) (hState : state < other)
    (hOther : other < m.kernels.size) : m.offsets.getD state 0 + slot < m.offsets.getD other 0 := by
  calc m.offsets.getD state 0 + slot
      < m.offsets.getD state 0 + kernel.length := Nat.add_lt_add_left hSlot _
    _ = countItems 0 ((m.kernels.toList.take other).take (state + 1)) := by
        rw [offset_add hKernel, List.take_take, Nat.min_eq_left hState]
    _ ≤ m.offsets.getD other 0 := by
        rw [getD_offsets hOther]
        exact countItems_take_le _ _ _

/-- A number belongs to one item of one state. -/
theorem place_inj {state other slot place : Nat} {kernel another : Kernel}
    (hKernel : m.kernels[state]? = some kernel) (hSlot : slot < kernel.length)
    (hAnother : m.kernels[other]? = some another) (hPlace : place < another.length)
    (hSame : m.offsets.getD state 0 + slot = m.offsets.getD other 0 + place) :
    state = other ∧ slot = place := by
  have hState := (Array.getElem?_eq_some_iff.mp hKernel).1
  have hOther := (Array.getElem?_eq_some_iff.mp hAnother).1
  rcases Nat.lt_trichotomy state other with hLess | rfl | hMore
  · have hFront := place_lt_of_lt hKernel hSlot hLess hOther
    omega
  · exact ⟨rfl, Nat.add_left_cancel hSame⟩
  · have hFront := place_lt_of_lt hAnother hPlace hMore hState
    omega

/-- The number of an item is found. -/
theorem exists_place {state : Nat} {kernel : Kernel} (hKernel : m.kernels[state]? = some kernel)
    {item : Item} (hMem : item ∈ kernel) :
    ∃ slot, kernel[slot]? = some item
      ∧ m.place? m.offsets state item = some (m.offsets.getD state 0 + slot) := by
  have hGet := getD_kernels hKernel
  have hSome : (kernel.findIdx? (· == item)).isSome = true := by
    rw [List.findIdx?_isSome, List.any_eq_true]
    exact ⟨item, hMem, beq_self_eq_true item⟩
  obtain ⟨slot, hSlot⟩ := Option.isSome_iff_exists.mp hSome
  refine ⟨slot, ?_, ?_⟩
  · obtain ⟨hLess, hSame, -⟩ := List.findIdx?_eq_some_iff_getElem.mp hSlot
    rw [List.getElem?_eq_getElem hLess, beq_iff_eq.mp hSame]
  · rw [place?, hGet, hSlot]
    rfl

end Places

section Passing

/-- Where the item of a closure goes behind its next symbol. -/
def place (a : Augmented) (m : Automaton) (state : StateId) (item : Item) : Option Nat := do
  let symbol ← a.next? item
  let target ← m.target? state symbol
  m.place? m.offsets target item.advance

theorem Flow.add_none {state : StateId} {source : Nat} {flow : Flow} {entry : LookaheadItem}
    (h : m.place a state entry.1 = none) : flow.add a m m.offsets state source entry = flow := by
  obtain ⟨item, set⟩ := entry
  unfold place at h
  unfold Flow.add
  dsimp only at h ⊢
  rw [h]

/-- A lookahead that moves on is added to its target, and linked where it comes from the source. -/
theorem Flow.add_some {state : StateId} {source target : Nat} {flow : Flow} {entry : LookaheadItem}
    (h : m.place a state entry.1 = some target) :
    flow.add a m m.offsets state source entry =
      ⟨flow.sets.modify target (·.union (entry.2.inter (.below a.terminalCount))),
        if entry.2.contains a.mark then flow.links.push (source, target) else flow.links⟩ := by
  obtain ⟨item, set⟩ := entry
  unfold place at h
  unfold Flow.add
  dsimp only at h ⊢
  rw [h]

/-- What holds of the sets while they are found. -/
structure Flow.Fits (a : Augmented) (m : Automaton) (sets : Lookaheads) : Prop where
  size : sets.size = m.itemCount
  within : ∀ i, (sets.getD i .empty).Within a.terminalCount

theorem Flow.Fits.modify {sets : Lookaheads} (h : Flow.Fits a m sets) (place : Nat) {more : IdSet}
    (hMore : more.Within a.terminalCount) : Flow.Fits a m (sets.modify place (·.union more)) where
  size := (Array.size_modify ..).trans h.size
  within i := by
    rw [IdSet.getD_modify_union]
    by_cases hHere : place = i ∧ i < sets.size
    · rw [if_pos hHere]
      exact (h.within i).union hMore
    · rw [if_neg hHere]
      exact h.within i

theorem Flow.Fits.add {flow : Flow} (h : Flow.Fits a m flow.sets) (state : StateId) (source : Nat)
    (entry : LookaheadItem) : Flow.Fits a m (flow.add a m m.offsets state source entry).sets := by
  cases hPlace : m.place a state entry.1 with
  | none =>
      rw [Flow.add_none hPlace]
      exact h
  | some target =>
    rw [Flow.add_some hPlace]
    refine h.modify _ fun i hMem => ?_
    rw [IdSet.contains_inter, Bool.and_eq_true, IdSet.contains_below, decide_eq_true_iff] at hMem
    exact hMem.2

/-- No set loses a lookahead. -/
theorem Flow.subset_add (flow : Flow) (state : StateId) (source : Nat) (entry : LookaheadItem)
    (i : Nat) : (flow.sets.getD i .empty).Subset
      ((flow.add a m m.offsets state source entry).sets.getD i .empty) := by
  cases hPlace : m.place a state entry.1 with
  | none =>
      rw [Flow.add_none hPlace]
      exact .refl _
  | some target =>
      rw [Flow.add_some hPlace]
      exact IdSet.subset_modify_union _ _ _ _

theorem Flow.mem_links_add {flow : Flow} {link : Nat × Nat} (h : link ∈ flow.links) (state : StateId)
    (source : Nat) (entry : LookaheadItem) :
    link ∈ (flow.add a m m.offsets state source entry).links := by
  cases hPlace : m.place a state entry.1 with
  | none =>
      rw [Flow.add_none hPlace]
      exact h
  | some target =>
      rw [Flow.add_some hPlace]
      dsimp only
      split
      · exact Array.mem_push_of_mem _ h
      · exact h

/-- The flow before anything is added. -/
def flowStart (m : Automaton) : Flow :=
  ⟨(Array.replicate m.itemCount .empty).setIfInBounds 0 (.singleton endSymbol), #[]⟩

/-- What the closures of the kernel items of one state add. -/
def stateFlow (a : Augmented) (m : Automaton) (flow : Flow) (placed : Kernel × Nat) : Flow :=
  placed.1.zipIdx.foldl (fun flow item =>
    (a.closureWithLookahead [(item.1, .singleton a.mark)]).toList.foldl
      (Flow.add a m m.offsets placed.2 (m.offsets.getD placed.2 0 + item.2)) flow) flow

theorem flow_eq : m.flow a = m.kernels.zipIdx.toList.foldl (stateFlow a m) m.flowStart := by
  unfold flow stateFlow flowStart itemCount countItems
  simp only [Array.foldl_toList]

section Keeps
variable {P : Flow → Prop}
  (hKeep : ∀ flow state source entry, P flow → P (flow.add a m m.offsets state source entry))
include hKeep

theorem closure_keeps {flow : Flow} (hStart : P flow) (state : StateId) (source : Nat)
    (entries : List LookaheadItem) :
    P (entries.foldl (Flow.add a m m.offsets state source) flow) :=
  List.foldlRecOn entries _ hStart fun flow hHolds entry _ => hKeep flow state source entry hHolds

theorem stateFlow_keeps {flow : Flow} (hStart : P flow) (placed : Kernel × Nat) :
    P (m.stateFlow a flow placed) :=
  List.foldlRecOn _ _ hStart fun _ hHolds _ _ => closure_keeps hKeep hHolds _ _ _

theorem flow_keeps (hStart : P m.flowStart) : P (m.flow a) := by
  rw [flow_eq]
  exact List.foldlRecOn _ _ hStart fun _ hHolds _ _ => stateFlow_keeps hKeep hHolds _

end Keeps

/-- What one addition brings about, and no addition takes back, holds of the whole flow. -/
theorem flow_brings {I Q : Flow → Prop}
    (hKeepI : ∀ flow state source entry, I flow → I (flow.add a m m.offsets state source entry))
    (hKeepQ : ∀ flow state source entry, Q flow → Q (flow.add a m m.offsets state source entry))
    (hStart : I m.flowStart) {state : Nat} {kernel : Kernel}
    (hKernel : m.kernels[state]? = some kernel) {slot : Nat} {item : Item}
    (hItem : kernel[slot]? = some item) {entry : LookaheadItem}
    (hEntry : entry ∈ a.closureWithLookahead [(item, .singleton a.mark)])
    (hMake : ∀ flow, I flow →
      Q (flow.add a m m.offsets state (m.offsets.getD state 0 + slot) entry)) :
    Q (m.flow a) := by
  have hState : (kernel, state) ∈ m.kernels.zipIdx.toList := by
    rw [Array.toList_zipIdx, List.mk_mem_zipIdx_iff_getElem?, Array.getElem?_toList, hKernel]
  have hSlot : (item, slot) ∈ kernel.zipIdx := by
    rw [List.mk_mem_zipIdx_iff_getElem?, hItem]
  rw [flow_eq]
  refine List.foldl_brings (I := I) (Q := Q) hState
    (fun flow placed _ hHolds => stateFlow_keeps hKeepI hHolds placed)
    (fun flow placed _ hHolds => stateFlow_keeps hKeepQ hHolds placed) (fun flow hFlow => ?_) hStart
  refine List.foldl_brings (I := I) (Q := Q) hSlot (fun flow _ _ hHolds => closure_keeps hKeepI hHolds _ _ _)
    (fun flow _ _ hHolds => closure_keeps hKeepQ hHolds _ _ _) (fun flow hFlow => ?_) hFlow
  exact List.foldl_brings (I := I) (Q := Q) (by simpa using hEntry) (fun flow entry _ => hKeepI flow _ _ entry)
    (fun flow entry _ => hKeepQ flow _ _ entry) hMake hFlow

/-- The start of the flow. Only the end of the input follows the added rule. -/
theorem fits_start (m : Automaton) (hReserved : 2 ≤ a.terminalCount) :
    Flow.Fits a m m.flowStart.sets where
  size := by simp [flowStart]
  within i := by
    have hEnd : (IdSet.singleton endSymbol).Within a.terminalCount :=
      IdSet.within_singleton (Nat.lt_of_lt_of_le Nat.two_pos hReserved)
    rw [flowStart, Array.getD_eq_getD_getElem?, Array.getElem?_setIfInBounds,
      Array.getElem?_replicate]
    split
    · split
      · exact hEnd
      · exact IdSet.within_empty _
    · split
      · exact IdSet.within_empty _
      · exact IdSet.within_empty _

/-- Passing a set on along one link. -/
def passStep (sets : Lookaheads) (link : Nat × Nat) : Lookaheads :=
  sets.modify link.2 (·.union (sets.getD link.1 .empty))

/-- A pass goes along the links in order. -/
theorem propagatePass_eq (links : Array (Nat × Nat)) (sets : Lookaheads) :
    propagatePass links sets = links.toList.foldl passStep sets := by
  rw [propagatePass, ← Array.foldl_toList]
  rfl

theorem climbs_passStep (link : Nat × Nat) :
    Climbs (Flow.Fits a m) (IdSet.weight a.terminalCount) (passStep · link) where
  keeps _ hFits := hFits.modify link.2 (hFits.within link.1)
  rises _ hFits := IdSet.modify_union_rises link.2 hFits.within (hFits.within link.1)

/-- In the end no set has anything left to pass on, and every set has kept what it had. -/
theorem saturate_links {links : Array (Nat × Nat)} {sets : Lookaheads} (hFits : Flow.Fits a m sets) :
    let last := saturate (propagatePass links) (sets.size * a.terminalCount + 1) sets
    Flow.Fits a m last ∧ (∀ i, (sets.getD i .empty).Subset (last.getD i .empty))
      ∧ ∀ source target, (source, target) ∈ links → target < m.itemCount →
          (last.getD source .empty).Subset (last.getD target .empty) := by
  intro last
  have hClimbs : Climbs (Flow.Fits a m) (IdSet.weight a.terminalCount) (propagatePass links) := by
    rw [show propagatePass links = _ from funext (propagatePass_eq _)]
    exact Climbs.foldl climbs_passStep _
  have hBound : ∀ other, Flow.Fits a m other →
      IdSet.weight a.terminalCount other ≤ sets.size * a.terminalCount := by
    intro other hOther
    rw [hFits.size, ← hOther.size]
    exact IdSet.weight_le _ _
  obtain ⟨hLast, hFixed⟩ := hClimbs.saturate_fixed hBound hFits
    (Nat.lt_of_lt_of_le (Nat.lt_succ_self _) (Nat.le_add_right _ _))
  refine ⟨hLast, ?_, ?_⟩
  · have hPass : ∀ other : Lookaheads, (∀ i, (sets.getD i .empty).Subset (other.getD i .empty)) →
        ∀ i, (sets.getD i .empty).Subset ((propagatePass links other).getD i .empty) := by
      intro other hOther
      rw [propagatePass_eq]
      refine List.foldlRecOn (motive := fun other : Lookaheads =>
        ∀ i, (sets.getD i .empty).Subset (other.getD i .empty)) _ _ hOther ?_
      exact fun other hOther link _ i => (hOther i).trans (IdSet.subset_modify_union _ _ _ _)
    exact saturate_induction hPass _ _ fun i => .refl _
  · intro source target hLink hTarget
    rw [propagatePass_eq] at hFixed
    have hStep := Climbs.step_eq climbs_passStep hLast hFixed (source, target) (by simpa using hLink)
    have hSet := congrArg (fun sets : Lookaheads => sets.getD target .empty) hStep
    dsimp only [passStep] at hSet
    rw [IdSet.getD_modify_union, if_pos ⟨rfl, hLast.size ▸ hTarget⟩] at hSet
    have hMore := IdSet.subset_union_right (last.getD target .empty) (last.getD source .empty)
    exact hSet ▸ hMore

/-- The final sets of a grammar. What the closure of a kernel item has behind the next symbol is in
the set of the item that it becomes there. -/
theorem lookaheads_spec (hReserved : 2 ≤ a.terminalCount) :
    Flow.Fits a m (m.lookaheads a)
      ∧ (0 < m.itemCount → ((m.lookaheads a).getD 0 .empty).contains endSymbol = true)
      ∧ ∀ (state slot target : Nat) kernel item entry, m.kernels[state]? = some kernel →
          kernel[slot]? = some item →
          entry ∈ a.closureWithLookahead [(item, .singleton a.mark)] →
          m.place a state entry.1 = some target → target < m.itemCount →
          (∀ i, i < a.terminalCount → entry.2.contains i = true →
              ((m.lookaheads a).getD target .empty).contains i = true)
            ∧ (entry.2.contains a.mark = true →
              ((m.lookaheads a).getD (m.offsets.getD state 0 + slot) .empty).Subset
                ((m.lookaheads a).getD target .empty)) := by
  have hAdd : ∀ (flow : Flow) state source entry, Flow.Fits a m flow.sets →
      Flow.Fits a m (flow.add a m m.offsets state source entry).sets :=
    fun flow state source entry hFits => hFits.add state source entry
  have hKept : ∀ (i place : Nat) (flow : Flow) state source entry,
      (flow.sets.getD place .empty).contains i = true →
      ((flow.add a m m.offsets state source entry).sets.getD place .empty).contains i = true :=
    fun i place flow state source entry hMem => flow.subset_add state source entry place i hMem
  have hFits := flow_keeps hAdd (m.fits_start hReserved)
  obtain ⟨hLast, hMore, hLinks⟩ := @saturate_links _ _ (m.flow a).links _ hFits
  refine ⟨hLast, fun hSome => ?_, fun state slot target kernel item entry hKernel hItem hEntry hPlace
    hTarget => ⟨fun i hTerminal hMem => ?_, fun hMark => ?_⟩⟩
  · refine hMore 0 endSymbol (flow_keeps (hKept endSymbol 0) ?_)
    simp [flowStart, Array.getD_eq_getD_getElem?, hSome]
  · refine hMore target i (flow_brings hAdd (hKept i target) (m.fits_start hReserved) hKernel hItem
      hEntry fun flow hFlow => ?_)
    rw [Flow.add_some hPlace, IdSet.getD_modify_union, if_pos ⟨rfl, hFlow.size ▸ hTarget⟩]
    simp [hMem, hTerminal]
  · have hMakes : (m.offsets.getD state 0 + slot, target) ∈ (m.flow a).links := by
      refine flow_brings (Q := fun flow => (m.offsets.getD state 0 + slot, target) ∈ flow.links) hAdd
        (fun flow state source entry hLink => Flow.mem_links_add hLink state source entry)
        (m.fits_start hReserved) hKernel hItem hEntry fun flow _ => ?_
      rw [Flow.add_some hPlace]
      dsimp only
      rw [if_pos hMark]
      exact Array.mem_push_self
    exact hLinks _ target hMakes hTarget

end Passing

/-- A terminal may follow an item of a state, as far as the lookahead sets of the state know. -/
def Expects (g : Grammar) (m : Automaton) (state : StateId) (item : Item) (terminal : Nat) : Prop :=
  Augmented.Follower g (m.stateItems m.offsets (m.lookaheads (.ofGrammar g)) state) item terminal

theorem map_fst_stateItems (offsets : Array Nat) (sets : Lookaheads) (state : StateId) :
    (m.stateItems offsets sets state).map (·.1) = m.kernels.getD state [] := by
  simp only [stateItems, List.map_map]
  exact List.zipIdx_map_fst 0 _

/-- The items of a state are listed with the sets that were found for them. -/
theorem mem_stateItems {offsets : Array Nat} {sets : Lookaheads} {state : Nat}
    {entry : LookaheadItem} : entry ∈ m.stateItems offsets sets state ↔
      ∃ slot : Nat, (m.kernels.getD state [])[slot]? = some entry.1
        ∧ entry.2 = sets.getD (offsets.getD state 0 + slot) .empty := by
  obtain ⟨item, set⟩ := entry
  simp only [stateItems, List.mem_map, Prod.exists, List.mk_mem_zipIdx_iff_getElem?, Prod.mk.injEq]
  constructor
  · rintro ⟨_, slot, hSlot, rfl, rfl⟩
    exact ⟨slot, hSlot, rfl⟩
  · rintro ⟨slot, hSlot, rfl⟩
    exact ⟨item, slot, hSlot, rfl, rfl⟩

theorem getElem?_of_getD {state slot : Nat} {item : Item}
    (hItem : (m.kernels.getD state [])[slot]? = some item) :
    m.kernels[state]? = some (m.kernels.getD state []) := by
  rw [Array.getD_eq_getD_getElem?] at hItem ⊢
  cases hKernel : m.kernels[state]? with
  | some kernel => rfl
  | none =>
      rw [hKernel] at hItem
      simp at hItem

/-- What follows an item of a state comes from one item of its kernel: it arises in the closure of
that item, or follows that item itself. -/
theorem Expects.from_one {state : StateId} {item : Item} {terminal : Nat}
    (h : m.Expects g state item terminal) :
    ∃ (slot : Nat) (k : Item), (m.kernels.getD state [])[slot]? = some k
      ∧ ((terminal < g.terminalCount
          ∧ Augmented.Follower g [(k, .singleton g.terminalCount)] item terminal)
        ∨ (Augmented.Follower g [(k, .singleton g.terminalCount)] item g.terminalCount
          ∧ ((m.lookaheads (.ofGrammar g)).getD (m.offsets.getD state 0 + slot)
              .empty).contains terminal = true)) := by
  have hGrowing := g.firstSets_fixed.1
  unfold Expects at h
  induction h with
  | @seed entry terminal hMem hSet =>
      obtain ⟨slot, hSlot, hHere⟩ := mem_stateItems.mp hMem
      refine ⟨slot, entry.1, hSlot, .inr ⟨?_, hHere ▸ hSet⟩⟩
      have hSeed := @Augmented.Follower.seed g [(entry.1, .singleton g.terminalCount)]
        (entry.1, .singleton g.terminalCount) g.terminalCount (by simp) (by simp)
      exact hSeed
  | begins hItem hNext hSymbol hExpansion hFirst =>
      rw [map_fst_stateItems] at hItem
      obtain ⟨slot, k, hSlot, hClosure⟩ := hItem.from_one
      have hWithin := FirstSets.within_ofSequence (Nat.le_of_eq hGrowing.terminalCount) hGrowing.within
        (IdSet.within_empty _) _ _ hFirst
      exact ⟨slot, k, hSlot, .inl ⟨hWithin, .begins hClosure hNext hSymbol hExpansion hFirst⟩⟩
  | passes _ hNext hSymbol hExpansion hEmpty ih =>
      obtain ⟨slot, k, hSlot, hFrom⟩ := ih
      refine ⟨slot, k, hSlot, hFrom.imp (And.imp_right fun hItem => ?_) (And.imp_left fun hItem => ?_)⟩
      · exact .passes hItem hNext hSymbol hExpansion hEmpty
      · exact .passes hItem hNext hSymbol hExpansion hEmpty

/-- Only terminals are expected. -/
theorem Expects.lt (hProper : g.Proper) {state : StateId} {item : Item} {terminal : Nat}
    (h : m.Expects g state item terminal) : terminal < g.terminalCount := by
  obtain ⟨slot, k, -, ⟨hTerminal, -⟩ | ⟨-, hOwn⟩⟩ := h.from_one
  · exact hTerminal
  · exact (@lookaheads_spec (.ofGrammar g) m hProper.reserved).1.within _ terminal hOwn

/-- The end of the input follows the added rule. -/
theorem Explored.expects_start (h : m.Explored (.ofGrammar g)) (hProper : g.Proper) :
    m.Expects g 0 ⟨g.rules.size, 0⟩ endSymbol := by
  have hKernel : m.kernels.getD 0 [] = [⟨g.rules.size, 0⟩] := by
    rw [getD_kernels h.initial, Augmented.startRule_ofGrammar]
  have hState : 0 < m.kernels.size := (Array.getElem?_eq_some_iff.mp h.initial).1
  have hOffset : m.offsets.getD 0 0 = 0 := by
    rw [getD_offsets hState]
    rfl
  have hCount : 0 < m.itemCount := by
    have hPlace := @place_lt m 0 _ h.initial 0 (by simp)
    exact Nat.lt_of_le_of_lt (Nat.zero_le _) hPlace
  have hEnd := (@lookaheads_spec (.ofGrammar g) m hProper.reserved).2.1 hCount
  refine @Augmented.Follower.seed g _ (⟨g.rules.size, 0⟩, _) endSymbol
    (mem_stateItems.mpr ⟨0, by rw [hKernel]; rfl, rfl⟩) ?_
  rw [hOffset]
  exact hEnd

/-- The beginning of a rule is followed by what begins the rest behind its symbol, or by what follows
the item there if the rest may be empty. -/
theorem Expects.expansion {state : StateId} {item expansion : Item} {symbol : SymbolId}
    {terminal next : Nat} (h : m.Expects g state item terminal) (hHolds : m.Holds (.ofGrammar g) state item)
    (hNext : (Augmented.ofGrammar g).next? item = some symbol)
    (hSymbol : (Augmented.ofGrammar g).isTerminal symbol = false)
    (hExpansion : expansion ∈ (Augmented.ofGrammar g).expansions symbol)
    (hFollow : (g.firstSets.ofSequence ((Augmented.ofGrammar g).rest item)
      (.singleton terminal)).contains next = true) : m.Expects g state expansion next := by
  rcases FirstSets.contains_ofSequence.mp hFollow with hFirst | ⟨hEmpty, hSame⟩
  · refine .begins ?_ hNext hSymbol hExpansion hFirst
    rw [map_fst_stateItems]
    exact hHolds
  · obtain rfl : terminal = next := by simpa using hSame
    exact .passes h hNext hSymbol hExpansion hEmpty

/-- What follows an item follows the item that it becomes behind its next symbol. -/
theorem Expects.advance {state next : StateId} {item : Item} {symbol : SymbolId} {terminal : Nat}
    (hItem : m.Expects g state item terminal) (h : m.Explored (.ofGrammar g)) (hProper : g.Proper)
    (hHolds : m.Holds (.ofGrammar g) state item)
    (hNext : (Augmented.ofGrammar g).next? item = some symbol)
    (hMove : (symbol, next) ∈ m.transitions.getD state []) :
    m.Expects g next item.advance terminal := by
  obtain ⟨slot, k, hSlot, hFrom⟩ := hItem.from_one
  obtain ⟨-, target, -, hTarget, -⟩ := h.transition hMove
  have hHere := getD_kernels hTarget
  have hMem : item.advance ∈ target := by
    rw [← hHere]
    exact (h.mem_target hMove).mpr ⟨item, hHolds, hNext, rfl⟩
  obtain ⟨place, hPlace, hNumber⟩ := exists_place hTarget hMem
  have hGoes : m.place (.ofGrammar g) state item = some (m.offsets.getD next 0 + place) := by
    simp [Automaton.place, hNext, h.target?_eq_some hMove, hNumber]
  have hLess : m.offsets.getD next 0 + place < m.itemCount :=
    place_lt hTarget (List.getElem?_eq_some_iff.mp hPlace).1
  have hOne : ([(k, IdSet.singleton g.terminalCount)].map (·.1)).Nodup := List.nodup_singleton k
  have hWithin : ∀ entry ∈ [(k, IdSet.singleton g.terminalCount)],
      entry.2.Within (g.terminalCount + 1) := by
    intro entry hEntry
    obtain rfl := List.mem_singleton.mp hEntry
    exact IdSet.within_singleton (Nat.lt_succ_self _)
  have hSets := (@lookaheads_spec (.ofGrammar g) m hProper.reserved).2.2
  refine @Augmented.Follower.seed g _ (item.advance, _) terminal
    (mem_stateItems.mpr ⟨place, by rw [hHere]; exact hPlace, rfl⟩) ?_
  rcases hFrom with ⟨hTerminal, hFound⟩ | ⟨hFound, hOwn⟩
  · obtain ⟨set, hEntry, hContains⟩ := hFound.found hOne hWithin
    exact (hSets state slot _ _ k (item, set) (getElem?_of_getD hSlot) hSlot hEntry hGoes hLess).1
      terminal hTerminal hContains
  · obtain ⟨set, hEntry, hContains⟩ := hFound.found hOne hWithin
    exact (hSets state slot _ _ k (item, set) (getElem?_of_getD hSlot) hSlot hEntry hGoes hLess).2
      hContains terminal hOwn

/-- A state has every item of its kernel once. -/
theorem Explored.nodup_stateItems (h : m.Explored a) (offsets : Array Nat) (sets : Lookaheads)
    (state : StateId) : ((m.stateItems offsets sets state).map (·.1)).Nodup := by
  rw [map_fst_stateItems, Array.getD_eq_getD_getElem?]
  cases hKernel : m.kernels[state]? with
  | none => exact List.nodup_nil
  | some kernel => exact h.nodup_kernel hKernel

/-- The lookahead of a state is made up of terminals. -/
theorem within_stateItems (hProper : g.Proper) (offsets : Array Nat) (state : StateId) :
    ∀ entry ∈ m.stateItems offsets (m.lookaheads (.ofGrammar g)) state,
      entry.2.Within g.terminalCount := by
  intro entry hMem
  obtain ⟨slot, -, hSet⟩ := mem_stateItems.mp hMem
  rw [hSet]
  exact (@lookaheads_spec (.ofGrammar g) m hProper.reserved).1.within _

/-- Whatever may follow an item is found with it in the closure of its state. -/
theorem Expects.found {state : StateId} {item : Item} {terminal : Nat}
    (hItem : m.Expects g state item terminal) (h : m.Explored (.ofGrammar g)) (hProper : g.Proper) :
    ∃ set, (item, set) ∈ (Augmented.ofGrammar g).closureWithLookahead
        (m.stateItems m.offsets (m.lookaheads (.ofGrammar g)) state)
      ∧ set.contains terminal = true :=
  Augmented.Follower.found (h.nodup_stateItems _ _ state)
    (fun entry hMem => (within_stateItems hProper _ state entry hMem).mono (Nat.le_succ _)) hItem

end Automaton
end IncrementalParsing
