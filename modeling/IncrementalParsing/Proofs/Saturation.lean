import IncrementalParsing.IdSet
import IncrementalParsing.Grammar.First
import Mathlib.Algebra.Order.BigOperators.Group.Finset

/-! Where a saturation ends. A pass either changes nothing or adds a member to some set, so after
more passes than there can be members nothing changes any more. -/
namespace IncrementalParsing

/-- A step keeps `P`, and it changes nothing or raises the measure. -/
structure Climbs {α : Type} (P : α → Prop) (measure : α → Nat) (step : α → α) : Prop where
  keeps : ∀ a, P a → P (step a)
  rises : ∀ a, P a → step a = a ∨ measure a < measure (step a)

/-- A loop that goes on as long as its rounds change something. -/
inductive Loop {α : Type} (round : α → α × Bool) : α → α → Prop
  | stop {a b : α} (hRound : round a = (b, false)) : Loop round a b
  | again {a b c : α} (hRound : round a = (b, true)) (hRest : Loop round b c) : Loop round a c

section
variable {α β γ : Type} {P : α → Prop} {R : γ → α → Prop} {measure : α → Nat}

/-- A pass that takes steps one after the other climbs if each of the steps does. -/
theorem Climbs.foldl {f : α → β → α} (h : ∀ b, Climbs P measure (f · b)) (steps : List β) :
    Climbs P measure (steps.foldl f) where
  keeps a hStart := by
    induction steps generalizing a with
    | nil => exact hStart
    | cons b steps ih => exact ih _ ((h b).keeps a hStart)
  rises a hStart := by
    induction steps generalizing a with
    | nil => exact .inl rfl
    | cons b steps ih =>
        rw [List.foldl_cons]
        have hRest := ih _ ((h b).keeps a hStart)
        rcases (h b).rises a hStart with hSame | hMore
        · rw [hSame] at hRest ⊢
          exact hRest
        · refine .inr (hRest.elim (fun hSame => ?_) (Nat.lt_trans hMore))
          rw [hSame]
          exact hMore

/-- If all steps together change nothing, none of them does. -/
theorem Climbs.step_eq {f : α → β → α} (h : ∀ b, Climbs P measure (f · b)) {steps : List β} {a : α}
    (hStart : P a) (hFixed : steps.foldl f a = a) : ∀ b ∈ steps, f a b = a := by
  induction steps with
  | nil => simp
  | cons b steps ih =>
      rw [List.foldl_cons] at hFixed
      have hFirst : f a b = a := by
        refine ((h b).rises a hStart).resolve_right fun hMore => ?_
        rcases (Climbs.foldl h steps).rises _ ((h b).keeps a hStart) with hSame | hEven
        · rw [hSame] at hFixed
          exact absurd (hFixed ▸ hMore) (Nat.lt_irrefl _)
        · rw [hFixed] at hEven
          exact Nat.lt_asymm hMore hEven
      rw [hFirst] at hFixed
      intro other hMem
      rcases List.mem_cons.mp hMem with rfl | hMem
      · exact hFirst
      · exact ih hFixed other hMem

/-- A saturation that may take more passes than the measure can rise ends where nothing changes. -/
theorem Climbs.saturate_fixed [DecidableEq α] {pass : α → α} (h : Climbs P measure pass) {bound : Nat}
    (hBound : ∀ a, P a → measure a ≤ bound) {limit : Nat} {a : α} (hStart : P a)
    (hLimit : bound < limit + measure a) :
    P (saturate pass limit a) ∧ pass (saturate pass limit a) = saturate pass limit a := by
  induction limit generalizing a with
  | zero =>
      have hMost := hBound a hStart
      omega
  | succ limit ih =>
      rw [saturate]
      split
      · rename_i hSame
        exact ⟨hStart, hSame⟩
      · rename_i hOther
        have hMore := (h.rises a hStart).resolve_left hOther
        exact ih (h.keeps a hStart) (by omega)

/-- Steps that report their changes report, all together, whether anything has changed. -/
theorem Climbs.foldl_reports {step : α → β → α} (h : ∀ b, Climbs P measure (step · b))
    {reporting : γ × Bool → β → γ × Bool} {steps : List β}
    (hStep : ∀ b ∈ steps, ∀ a c changed, P a → R c a → R (reporting (c, changed) b).1 (step a b)
      ∧ ((reporting (c, changed) b).2 = true ↔ changed = true ∨ step a b ≠ a))
    {a : α} {c : γ} (changed : Bool) (hStart : P a) (hShows : R c a) :
    R (steps.foldl reporting (c, changed)).1 (steps.foldl step a)
      ∧ ((steps.foldl reporting (c, changed)).2 = true ↔ changed = true ∨ steps.foldl step a ≠ a) := by
  induction steps generalizing a c changed with
  | nil => simpa using hShows
  | cons b steps ih =>
      obtain ⟨hShows, hFlag⟩ := hStep b (by simp) a c changed hStart hShows
      have hKept := (h b).keeps a hStart
      obtain ⟨hLast, hLastFlag⟩ := ih (fun b hMem => hStep b (List.mem_cons_of_mem _ hMem))
        (reporting (c, changed) b).2 hKept hShows
      refine ⟨hLast, hLastFlag.trans ?_⟩
      rw [hFlag, List.foldl_cons, or_assoc]
      refine or_congr_right ?_
      rcases (h b).rises a hStart with hSame | hMore
      · simp [hSame]
      · -- What has risen once does not come back.
        have hOther : steps.foldl step (step a b) ≠ a := by
          intro hBack
          rcases (Climbs.foldl h steps).rises _ hKept with hSame | hEven
          · rw [← hSame, hBack] at hMore
            exact Nat.lt_irrefl _ hMore
          · rw [hBack] at hEven
            exact Nat.lt_asymm hMore hEven
        have hChanged : step a b ≠ a := fun hSame => absurd (hSame ▸ hMore) (Nat.lt_irrefl _)
        simp [hOther, hChanged]

/-- A saturation ends where the loop over the same rounds ends. -/
theorem Climbs.loop [DecidableEq α] {pass : α → α} (h : Climbs P measure pass) {bound : Nat}
    (hBound : ∀ a, P a → measure a ≤ bound) {round : γ → γ × Bool}
    (hRound : ∀ a c, P a → R c a →
      R (round c).1 (pass a) ∧ ((round c).2 = true ↔ pass a ≠ a))
    {limit : Nat} {a : α} {c : γ} (hStart : P a) (hShows : R c a) (hLimit : bound < limit + measure a) :
    ∃ d, Loop round c d ∧ R d (saturate pass limit a) := by
  induction limit generalizing a c with
  | zero =>
      have hMost := hBound a hStart
      omega
  | succ limit ih =>
      obtain ⟨hNext, hFlag⟩ := hRound a c hStart hShows
      rw [saturate]
      split
      · rename_i hSame
        have hDone : (round c).2 = false := by simpa [hSame] using hFlag
        exact ⟨_, .stop (Prod.ext rfl hDone), hSame ▸ hNext⟩
      · rename_i hOther
        have hMore := (h.rises a hStart).resolve_left hOther
        obtain ⟨d, hLoop, hEnd⟩ := ih (h.keeps a hStart) hNext (by omega)
        exact ⟨d, .again (Prod.ext rfl (hFlag.mpr hOther)) hLoop, hEnd⟩

end

namespace IdSet

/-- All members of the first set are in the second. -/
def Subset (s t : IdSet) : Prop := ∀ i, s.contains i = true → t.contains i = true

/-- All members are below `n`. -/
def Within (n : Nat) (s : IdSet) : Prop := ∀ i, s.contains i = true → i < n

/-- How many members are below `n`. -/
def count (n : Nat) (s : IdSet) : Nat := ((Finset.range n).filter fun i => s.contains i = true).card

theorem Subset.refl (s : IdSet) : s.Subset s := fun _ => id

theorem Subset.trans {s t u : IdSet} (hFirst : s.Subset t) (hSecond : t.Subset u) : s.Subset u :=
  fun i hMem => hSecond i (hFirst i hMem)

theorem subset_union_left (s t : IdSet) : s.Subset (s.union t) := by
  intro i hMem
  simp [hMem]

theorem subset_union_right (s t : IdSet) : t.Subset (s.union t) := by
  intro i hMem
  simp [hMem]

/-- A set with more members added is another one, unless it had them. -/
theorem union_ne_iff {s t : IdSet} : s.union t ≠ s ↔ ¬t.Subset s := by
  refine not_congr ⟨fun hSame => hSame ▸ subset_union_right s t, fun hSubset => ext fun i => ?_⟩
  rw [contains_union, Bool.or_eq_left_iff_imp]
  exact hSubset i

theorem union_assoc (s t u : IdSet) : (s.union t).union u = s.union (t.union u) :=
  ext fun i => by simp [Bool.or_assoc]

/-- Nothing is added by a set that is there already. -/
theorem union_eq_left {s t : IdSet} (h : t.Subset s) : s.union t = s :=
  Classical.not_not.mp fun hOther => union_ne_iff.mp hOther h

theorem within_empty (n : Nat) : Within n .empty := by simp [Within]

theorem within_singleton {n i : Nat} (h : i < n) : Within n (.singleton i) := by
  intro j hMem
  obtain rfl : i = j := by simpa using hMem
  exact h

/-- The union of two sets of small numbers is one. -/
theorem Within.union {n : Nat} {s t : IdSet} (hFirst : s.Within n) (hSecond : t.Within n) :
    (s.union t).Within n := by
  intro i hMem
  rw [contains_union, Bool.or_eq_true] at hMem
  exact hMem.elim (hFirst i) (hSecond i)

/-- No more numbers are counted than there are. -/
theorem count_le (n : Nat) (s : IdSet) : s.count n ≤ n :=
  (Finset.card_filter_le _ _).trans_eq (Finset.card_range n)

/-- A larger set counts more. -/
theorem count_mono {s t : IdSet} (h : s.Subset t) (n : Nat) : s.count n ≤ t.count n := by
  refine Finset.card_le_card fun i hMem => ?_
  rw [Finset.mem_filter] at hMem ⊢
  exact ⟨hMem.1, h i hMem.2⟩

/-- A set that grows has more members. -/
theorem count_lt {s t : IdSet} {n : Nat} (h : s.Subset t) (hWithin : t.Within n) (hOther : t ≠ s) :
    s.count n < t.count n := by
  obtain ⟨i, hMem, hNew⟩ : ∃ i, t.contains i = true ∧ s.contains i = false := by
    by_contra hNone
    refine hOther (IdSet.ext fun i => Bool.eq_iff_iff.mpr ⟨fun hMem => ?_, h i⟩)
    by_contra hNew
    exact hNone ⟨i, hMem, by simpa using hNew⟩
  refine Finset.card_lt_card ⟨fun j hMem => ?_, fun hBack => ?_⟩
  · rw [Finset.mem_filter] at hMem ⊢
    exact ⟨hMem.1, h j hMem.2⟩
  · have hBoth := hBack (Finset.mem_filter.mpr ⟨Finset.mem_range.mpr (hWithin i hMem), hMem⟩)
    rw [Finset.mem_filter, hNew] at hBoth
    exact absurd hBoth.2 Bool.false_ne_true

/-- How many members a number of sets have below `n`, all together. -/
def weight (n : Nat) (sets : Array IdSet) : Nat :=
  ∑ i ∈ Finset.range sets.size, (sets.getD i .empty).count n

/-- The weight of all sets is bounded by their number, so that it cannot climb forever. -/
theorem weight_le (n : Nat) (sets : Array IdSet) : weight n sets ≤ sets.size * n := by
  refine (Finset.sum_le_card_nsmul _ _ n fun i _ => count_le n _).trans_eq ?_
  rw [Finset.card_range]
  rfl

/-- Sets that grow in one place weigh more. -/
theorem weight_lt {n place : Nat} {sets grown : Array IdSet} (hSize : grown.size = sets.size)
    (hSubset : ∀ i, (sets.getD i .empty).Subset (grown.getD i .empty)) (hPlace : place < sets.size)
    (hWithin : (grown.getD place .empty).Within n)
    (hOther : grown.getD place .empty ≠ sets.getD place .empty) :
    weight n sets < weight n grown := by
  unfold weight
  rw [hSize]
  exact Finset.sum_lt_sum (fun i _ => count_mono (hSubset i) n)
    ⟨place, Finset.mem_range.mpr hPlace, count_lt (hSubset place) hWithin hOther⟩

/-- Adding to one set leaves every other as it is. -/
theorem getD_modify_union (sets : Array IdSet) (place i : Nat) (more : IdSet) :
    (sets.modify place (·.union more)).getD i .empty =
      if place = i ∧ i < sets.size then (sets.getD i .empty).union more else sets.getD i .empty := by
  simp only [Array.getD_eq_getD_getElem?, Array.getElem?_modify]
  by_cases hHere : place = i
  · by_cases hLess : i < sets.size
    · simp [hHere, hLess]
    · simp [hHere, hLess]
  · simp [hHere]

/-- No set loses a number when one of them grows. -/
theorem subset_modify_union (sets : Array IdSet) (place i : Nat) (more : IdSet) :
    (sets.getD i .empty).Subset ((sets.modify place (·.union more)).getD i .empty) := by
  rw [getD_modify_union]
  by_cases hHere : place = i ∧ i < sets.size
  · rw [if_pos hHere]
    exact subset_union_left _ _
  · rw [if_neg hHere]
    exact .refl _

/-- Adding to one of the sets changes nothing or makes them weigh more. -/
theorem modify_union_rises {n : Nat} {sets : Array IdSet} (place : Nat) {more : IdSet}
    (hWithin : ∀ i, (sets.getD i .empty).Within n) (hMore : more.Within n) :
    sets.modify place (·.union more) = sets
      ∨ weight n sets < weight n (sets.modify place (·.union more)) := by
  by_cases hSame : (sets.modify place (·.union more)).getD place .empty = sets.getD place .empty
  · refine .inl (Array.ext (Array.size_modify ..) fun i hGrown hLess => ?_)
    have hGet : ∀ (found : Array IdSet) (h : i < found.size), found[i] = found.getD i .empty := by
      intro found h
      simp [h]
    rw [hGet _ hGrown, hGet _ hLess]
    by_cases hHere : place = i
    · exact hHere ▸ hSame
    · rw [getD_modify_union, if_neg fun hBoth => hHere hBoth.1]
  · have hPlace : place < sets.size := by
      by_contra hBeyond
      rw [getD_modify_union, if_neg fun hBoth => hBeyond hBoth.2] at hSame
      exact hSame rfl
    refine .inr (weight_lt (Array.size_modify ..) (fun i => subset_modify_union sets place i more)
      hPlace ?_ hSame)
    rw [getD_modify_union, if_pos ⟨rfl, hPlace⟩]
    exact (hWithin place).union hMore

end IdSet
end IncrementalParsing
