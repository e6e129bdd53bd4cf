import IncrementalParsing.Proofs.Tables.Trials
import Mathlib.Data.Finset.Prod
import Mathlib.Data.Nat.Digits.Lemmas
import Mathlib.Order.WellFounded

/-! Chains of reductions that come to an end. The states that such a chain stacks up are all
different, since one that is put above itself would be put there again and again. So a chain is
shorter than a power of the number of states, for each entry of the stack it starts from. -/
namespace IncrementalParsing
namespace Tables

/-- No chain of reductions goes on forever from these states. -/
def Ends (t : Tables) (terminal : SymbolId) (states : List StateId) : Prop :=
  ¬∃ chain : Nat → List StateId, chain 0 = states
    ∧ ∀ i, t.reduction? terminal (chain i) = some (chain (i + 1))

/-- The first states come out of the second ones by one reduction. -/
def After (t : Tables) (terminal : SymbolId) (after states : List StateId) : Prop :=
  t.reduction? terminal states = some after

/-- They do so on top of anything. -/
def AfterAbove (t : Tables) (terminal : SymbolId) (after states : List StateId) : Prop :=
  ∀ base, t.After terminal (after ++ base) (states ++ base)

/-- Every state has led to all that is stacked above it. -/
def Heaped (t : Tables) (terminal : SymbolId) (states : List StateId) : Prop :=
  ∀ above state below, states = above ++ state :: below →
    Relation.ReflTransGen (t.AfterAbove terminal) (above ++ [state]) [state]

section
variable {t : Tables} {terminal : SymbolId} {states after : List StateId}

theorem ends_iff_acc : t.Ends terminal states ↔ Acc (t.After terminal) states := by
  rw [← not_iff_not, not_acc_iff_exists_descending_chain]
  exact not_not

theorem Ends.step (h : t.Ends terminal states)
    (hStep : t.reduction? terminal states = some after) : t.Ends terminal after :=
  ends_iff_acc.mpr ((ends_iff_acc.mp h).inv hStep)

/-- Reductions that come back again and again do not end. -/
theorem not_ends_of_returns (found : Set (List StateId))
    (hReturns : ∀ states ∈ found, ∃ later ∈ found, Relation.TransGen (t.After terminal) later states)
    (hMem : states ∈ found) : ¬t.Ends terminal states := by
  intro hEnds
  have hAcc := (ends_iff_acc.mp hEnds).transGen
  induction hAcc with
  | intro states _ ih =>
      obtain ⟨later, hLater, hReaches⟩ := hReturns states hMem
      exact ih later hReaches hLater (ends_iff_acc.mpr
        (acc_transGen_iff.mp ((ends_iff_acc.mp hEnds).transGen.inv hReaches)))

/-- Reductions that end do not come back. -/
theorem Ends.not_after_self (h : t.Ends terminal states) :
    ¬Relation.TransGen (t.After terminal) states states := by
  intro hReturns
  refine not_ends_of_returns {states} ?_ rfl h
  rintro _ rfl
  exact ⟨_, rfl, hReturns⟩

/-- A state that is put above itself is put there forever. -/
theorem not_ends_of_heaped {state : StateId} {above : List StateId}
    (hHeaped : Relation.ReflTransGen (t.AfterAbove terminal) (state :: above ++ [state]) [state])
    (base : List StateId) : ¬t.Ends terminal (state :: base) := by
  have hReaches : Relation.TransGen (t.AfterAbove terminal) (state :: above ++ [state]) [state] := by
    rcases Relation.reflTransGen_iff_eq_or_transGen.mp hHeaped with hSame | hReaches
    · simp at hSame
    · exact hReaches
  refine not_ends_of_returns {states | ∃ base, states = state :: base} ?_ ⟨base, rfl⟩
  rintro _ ⟨base, rfl⟩
  refine ⟨_, ⟨above ++ [state] ++ base, rfl⟩, ?_⟩
  exact hReaches.lift (· ++ base) fun _ _ hStep => hStep base

/-- A reduction works on any part of the stack that it does not use up. -/
theorem exists_count_of_reduction (hStep : t.reduction? terminal states = some after) :
    ∃ count next, after = next :: states.drop count ∧ ∀ top rest, states = top ++ rest →
      count < top.length → t.AfterAbove terminal (next :: top.drop count) top := by
  obtain ⟨rule, info, next, hReduce, hRule, hGoto, rfl⟩ := reduction?_eq_some hStep
  refine ⟨info.rhs.length, next, rfl, ?_⟩
  rintro top rest rfl hCount base
  have hHead : ∀ (used : List StateId), used ≠ [] → ∀ base, (used ++ base).headD 0 = used.headD 0 := by
    intro used hUsed base
    cases used with
    | nil => exact absurd rfl hUsed
    | cons => rfl
  have hTop : top ≠ [] := List.ne_nil_of_length_pos (Nat.zero_lt_of_lt hCount)
  have hLeft : top.drop info.rhs.length ≠ [] := by simpa using hCount
  rw [hHead top hTop] at hReduce
  rw [List.drop_append_of_le_length (Nat.le_of_lt hCount), hHead _ hLeft] at hGoto
  have hAgain := @reduction?_of_reduce t terminal (top ++ base) rule info next
    (by rwa [hHead top hTop]) hRule
    (by rwa [List.drop_append_of_le_length (Nat.le_of_lt hCount), hHead _ hLeft])
  rw [List.drop_append_of_le_length (Nat.le_of_lt hCount)] at hAgain
  exact hAgain

/-- What a chain has come to: some states over what is left of those it started from. -/
structure Framed (t : Tables) (terminal : SymbolId) (start heap : List StateId) (depth : Nat) :
    Prop where
  depth : depth ≤ start.length
  heaped : t.Heaped terminal heap
  nodup : heap.Nodup
  bound : ∀ state ∈ heap, state < t.stateCount

theorem heaped_singleton (next : StateId) : t.Heaped terminal [next] := by
  intro above state below hSplit
  obtain ⟨rfl, rfl, rfl⟩ : above = [] ∧ next = state ∧ below = [] := by
    cases above with
    | nil => simpa using hSplit
    | cons => simp at hSplit
  exact .refl

theorem Framed.step {start heap : List StateId} {depth : Nat}
    (hFits : ∀ states next rest, t.reduction? terminal states = some (next :: rest) →
      next < t.stateCount)
    (h : t.Framed terminal start heap depth) (hEnds : t.Ends terminal (heap ++ start.drop depth))
    (hStep : t.reduction? terminal (heap ++ start.drop depth) = some after) :
    ∃ heap' depth', t.Framed terminal start heap' depth' ∧ after = heap' ++ start.drop depth' := by
  obtain ⟨count, next, rfl, hAbove⟩ := exists_count_of_reduction hStep
  have hNext := hFits _ _ _ hStep
  by_cases hCount : count < heap.length
  · have hDrop : (heap ++ start.drop depth).drop count = heap.drop count ++ start.drop depth :=
      List.drop_append_of_le_length (Nat.le_of_lt hCount)
    have hHeaped : t.Heaped terminal (next :: heap.drop count) := by
      intro above state below hSplit
      cases above with
      | nil =>
          obtain ⟨rfl, -⟩ := List.cons.inj hSplit
          exact .refl
      | cons first above =>
          obtain ⟨rfl, hRest⟩ : next = first ∧ heap.drop count = above ++ state :: below := by
            simpa using hSplit
          have hSame : heap = (heap.take count ++ above) ++ state :: below := by
            rw [List.append_assoc, ← hRest, List.take_append_drop]
          have hLead := hAbove (heap.take count ++ above ++ [state]) (below ++ start.drop depth)
            (by rw [← List.append_assoc, List.append_assoc _ [state], List.singleton_append, ← hSame])
            (by simp; omega)
          have hLeft : (heap.take count ++ above ++ [state]).drop count = above ++ [state] := by
            rw [List.append_assoc]
            exact List.drop_left' (by simp; omega)
          rw [hLeft] at hLead
          exact .head hLead (h.heaped _ state below hSame)
    refine ⟨next :: heap.drop count, depth, ⟨h.depth, hHeaped, ?_, ?_⟩, ?_⟩
    · refine List.nodup_cons.mpr ⟨fun hMem => ?_, h.nodup.sublist (List.drop_sublist _ _)⟩
      obtain ⟨above, below, hSplit⟩ := List.append_of_mem hMem
      refine not_ends_of_heaped (hHeaped (next :: above) next below (by rw [hSplit]; rfl)) _
        (hEnds.step hStep)
    · intro state hMem
      rcases List.mem_cons.mp hMem with rfl | hMem
      · exact hNext
      · exact h.bound state (List.mem_of_mem_drop hMem)
    · rw [hDrop]
      rfl
  · refine ⟨[next], min (depth + (count - heap.length)) start.length,
      ⟨Nat.min_le_right _ _, heaped_singleton next, List.nodup_singleton next, by simpa using hNext⟩,
      ?_⟩
    rw [List.drop_append, List.drop_eq_nil_of_le (Nat.not_lt.mp hCount), List.drop_drop]
    rcases Nat.le_total (depth + (count - heap.length)) start.length with hLess | hMore
    · rw [Nat.min_eq_left hLess]
      rfl
    · rw [Nat.min_eq_right hMore, List.drop_length, List.drop_eq_nil_of_le hMore]
      rfl

/-- A stack of states read off two numbers. -/
def unpack (base : Nat) (start : List StateId) (packed : Nat × Nat) : List StateId :=
  (base.digits packed.1).map (· - 1) ++ start.drop packed.2

theorem length_le_of_nodup {heap : List StateId} {bound : Nat} (hNodup : heap.Nodup)
    (hBound : ∀ state ∈ heap, state < bound) : heap.length ≤ bound := by
  have hSubset : heap ⊆ List.range bound := fun state hMem => List.mem_range.mpr (hBound state hMem)
  simpa using (hNodup.subperm hSubset).length_le

theorem exists_unpack {start heap : List StateId} {depth : Nat}
    (h : t.Framed terminal start heap depth) :
    ∃ packed ∈ Finset.range ((t.stateCount + 2) ^ t.stateCount) ×ˢ Finset.range (start.length + 1),
      unpack (t.stateCount + 2) start packed = heap ++ start.drop depth := by
  have hBase : 1 < t.stateCount + 2 := by omega
  have hDigits : ∀ digit ∈ heap.map (· + 1), digit < t.stateCount + 2 := by
    intro digit hMem
    obtain ⟨state, hState, rfl⟩ := List.mem_map.mp hMem
    exact Nat.succ_lt_succ (Nat.lt_succ_of_lt (h.bound state hState))
  have hNumber : (t.stateCount + 2).digits (Nat.ofDigits (t.stateCount + 2) (heap.map (· + 1)))
      = heap.map (· + 1) := by
    refine Nat.digits_ofDigits _ hBase _ hDigits fun hSome hLast => ?_
    obtain ⟨state, -, hState⟩ := List.mem_map.mp (hLast ▸ List.getLast_mem hSome)
    exact Nat.succ_ne_zero state hState
  refine ⟨(Nat.ofDigits (t.stateCount + 2) (heap.map (· + 1)), depth), ?_, ?_⟩
  · rw [Finset.mem_product, Finset.mem_range, Finset.mem_range]
    refine ⟨?_, Nat.lt_succ_of_le h.depth⟩
    calc Nat.ofDigits (t.stateCount + 2) (heap.map (· + 1))
        < (t.stateCount + 2) ^ (heap.map (· + 1)).length :=
          Nat.ofDigits_lt_base_pow_length hBase hDigits
      _ ≤ (t.stateCount + 2) ^ t.stateCount := by
          rw [List.length_map]
          exact Nat.pow_le_pow_right (by omega) (length_le_of_nodup h.nodup h.bound)
  · rw [unpack, hNumber, List.map_map]
    congr 1
    exact List.map_id _

/-- All the stacks that a chain goes through. -/
theorem Reductions.visited {start last : List StateId} {count : Nat}
    (hFits : ∀ states next rest, t.reduction? terminal states = some (next :: rest) →
      next < t.stateCount)
    (hEnds : t.Ends terminal start) (h : t.Reductions terminal start count last) :
    t.Ends terminal last ∧ (∃ heap depth, t.Framed terminal start heap depth
        ∧ last = heap ++ start.drop depth)
      ∧ ∃ visited : List (List StateId), visited.length = count + 1 ∧ visited.Nodup
        ∧ ∀ states ∈ visited, Relation.ReflTransGen (t.After terminal) last states
          ∧ ∃ heap depth, t.Framed terminal start heap depth ∧ states = heap ++ start.drop depth := by
  induction h with
  | none =>
      have hFrame : ∃ heap depth, t.Framed terminal start heap depth
          ∧ start = heap ++ start.drop depth := by
        refine ⟨[], 0, ⟨Nat.zero_le _, ?_, List.nodup_nil, by simp⟩, rfl⟩
        intro above state below hSplit
        simp at hSplit
      refine ⟨hEnds, hFrame, [start], rfl, List.nodup_singleton start, ?_⟩
      intro states hMem
      obtain rfl := List.mem_singleton.mp hMem
      exact ⟨.refl, hFrame⟩
  | @more count before last _ hStep ih =>
      obtain ⟨hBefore, ⟨heap, depth, hFrame, rfl⟩, visited, hLength, hNodup, hVisited⟩ := ih
      have hLast := hBefore.step hStep
      have hNext := hFrame.step hFits hBefore hStep
      refine ⟨hLast, hNext, last :: visited, by simp [hLength], ?_, ?_⟩
      · refine List.nodup_cons.mpr ⟨fun hMem => ?_, hNodup⟩
        exact hLast.not_after_self (.head' hStep (hVisited last hMem).1)
      · intro states hMem
        rcases List.mem_cons.mp hMem with rfl | hMem
        · exact ⟨.refl, hNext⟩
        · exact ⟨.head hStep (hVisited states hMem).1, (hVisited states hMem).2⟩

/-- A chain of reductions that end is short, and its stacks do not grow far above the first one. -/
theorem Reductions.bounded {start last : List StateId} {count : Nat}
    (hFits : ∀ states next rest, t.reduction? terminal states = some (next :: rest) →
      next < t.stateCount)
    (hEnds : t.Ends terminal start) (h : t.Reductions terminal start count last) :
    count < (t.stateCount + 2) ^ t.stateCount * (start.length + 1)
      ∧ last.length ≤ t.stateCount + start.length := by
  obtain ⟨-, ⟨heap, depth, hFrame, rfl⟩, visited, hLength, hNodup, hVisited⟩ := h.visited hFits hEnds
  refine ⟨?_, ?_⟩
  · have hSubset : visited.toFinset ⊆
        (Finset.range ((t.stateCount + 2) ^ t.stateCount) ×ˢ Finset.range (start.length + 1)).image
          (unpack (t.stateCount + 2) start) := by
      intro states hMem
      obtain ⟨-, heap, depth, hFrame, rfl⟩ := hVisited states (List.mem_toFinset.mp hMem)
      exact Finset.mem_image.mpr (exists_unpack hFrame)
    have hCard := (Finset.card_le_card hSubset).trans Finset.card_image_le
    rw [List.toFinset_card_of_nodup hNodup, hLength, Finset.card_product, Finset.card_range,
      Finset.card_range] at hCard
    exact hCard
  · have hHeap := length_le_of_nodup hFrame.nodup hFrame.bound
    simp only [List.length_append, List.length_drop]
    omega

end

/-- Reductions of generated tables go to states of the tables. -/
theorem Generated.lt_of_reduction {t : Tables} {g : Grammar} {m : Automaton} (h : Generated g m t)
    (hProper : g.Proper) {terminal : SymbolId} (states : List StateId) (next : StateId)
    (rest : List StateId) (hStep : t.reduction? terminal states = some (next :: rest)) :
    next < t.stateCount := by
  obtain ⟨rule, info, target, -, hRule, hGoto, hSame⟩ := reduction?_eq_some hStep
  obtain ⟨rfl, -⟩ := List.cons.inj hSame
  rw [h.rules, Array.getElem?_map] at hRule
  obtain ⟨source, hSource, rfl⟩ := Option.map_eq_some_iff.mp hRule
  exact h.target_lt (h.goto (hProper.lhs source (Array.mem_of_getElem? hSource)).2 hGoto).2

end Tables
end IncrementalParsing
