import IncrementalParsing.Proofs.Automaton.Complete
import IncrementalParsing.Proofs.Grammar.First
import IncrementalParsing.Automaton.Lookahead

/-! The closure of items with their lookahead is complete. Every place that is found or grows is
visited again, and the limit on the visits is never reached, because every visit beyond the first
ones is paid for by a new item or by a new member of some set. -/
namespace IncrementalParsing
namespace IdSet

theorem Within.mono {n more : Nat} {s : IdSet} (h : s.Within n) (hMore : n ≤ more) : s.Within more :=
  fun i hMem => Nat.lt_of_lt_of_le (h i hMem) hMore

theorem weight_push (n : Nat) (sets : Array IdSet) (s : IdSet) :
    weight n (sets.push s) = weight n sets + s.count n := by
  unfold weight
  rw [Array.size_push, Finset.sum_range_succ]
  congr 1
  · refine Finset.sum_congr rfl fun i hMem => ?_
    have hLess := Finset.mem_range.mp hMem
    rw [Array.getD_eq_getD_getElem?, Array.getD_eq_getD_getElem?, Array.getElem?_push,
      if_neg (Nat.ne_of_lt hLess)]
  · rw [Array.getD_eq_getD_getElem?, Array.getElem?_push, if_pos rfl]
    rfl

end IdSet

namespace Augmented
variable {g : Grammar}

namespace Spread

/-- What grows on the way from one spread to another. Items keep their places, and the places with
new items or members are still to be visited. -/
structure Grown (s t : Spread) : Prop where
  kept : ∀ (i : Nat) item set, s.items[i]? = some (item, set) →
    ∃ more, t.items[i]? = some (item, more) ∧ set.Subset more ∧ (more = set ∨ i ∈ t.work)
  work : ∀ i ∈ s.work, i ∈ t.work
  fresh : ∀ (i : Nat) entry, t.items[i]? = some entry → s.items.size ≤ i → i ∈ t.work

theorem Grown.refl (s : Spread) : s.Grown s where
  kept _ _ set hEntry := ⟨set, hEntry, .refl set, .inl rfl⟩
  work _ hMem := hMem
  fresh _ _ hEntry hBeyond :=
    absurd (Array.getElem?_eq_some_iff.mp hEntry).1 (Nat.not_lt.mpr hBeyond)

theorem Grown.trans {s t u : Spread} (hFirst : s.Grown t) (hSecond : t.Grown u) : s.Grown u where
  kept i item set hEntry := by
    obtain ⟨more, hMore, hSubset, hWork⟩ := hFirst.kept i item set hEntry
    obtain ⟨most, hMost, hSubset', hWork'⟩ := hSecond.kept i item more hMore
    refine ⟨most, hMost, hSubset.trans hSubset', ?_⟩
    rcases hWork' with rfl | hMem
    · exact hWork.imp_right (hSecond.work i)
    · exact .inr hMem
  work i hMem := hSecond.work i (hFirst.work i hMem)
  fresh i entry hEntry hBeyond := by
    rcases Nat.lt_or_ge i t.items.size with hLess | hMore
    · have hMem := hFirst.fresh i _ (Array.getElem?_eq_getElem hLess) hBeyond
      exact hSecond.work i hMem
    · exact hSecond.fresh i entry hEntry hMore

/-- How much has been found: items and members of their sets. -/
def extent (g : Grammar) (s : Spread) : Nat :=
  s.items.size + IdSet.weight (g.terminalCount + 1) (s.items.map (·.2))

/-- What may be found. An item has one place, and it is one that the spread began with or the
beginning of a rule. -/
structure Bounded (g : Grammar) (seeds : List Item) (s : Spread) : Prop where
  distinct : (s.items.toList.map (·.1)).Nodup
  known : ∀ entry ∈ s.items, entry.1 ∈ seeds ∨ entry.1.dot = 0 ∧ entry.1.rule < g.rules.size
  within : ∀ entry ∈ s.items, entry.2.Within (g.terminalCount + 1)

/-- A bounded spread has room for only so many items and lookaheads. -/
theorem Bounded.extent_le {seeds : List Item} {s : Spread} (h : s.Bounded g seeds) :
    s.extent g ≤ (seeds.length + g.rules.size) * (g.terminalCount + 2) := by
  have hSubset : s.items.toList.map (·.1) ⊆ seeds ++ (List.range g.rules.size).map (⟨·, 0⟩) := by
    intro item hMem
    obtain ⟨entry, hEntry, rfl⟩ := List.mem_map.mp hMem
    rcases h.known entry (by simpa using hEntry) with hSeed | ⟨hDot, hRule⟩
    · exact List.mem_append_left _ hSeed
    · refine List.mem_append_right _ (List.mem_map.mpr ⟨_, List.mem_range.mpr hRule, ?_⟩)
      rw [← hDot]
  have hSize : s.items.size ≤ seeds.length + g.rules.size := by
    simpa using (h.distinct.subperm hSubset).length_le
  have hWeight := IdSet.weight_le (g.terminalCount + 1) (s.items.map (·.2))
  rw [Array.size_map] at hWeight
  calc s.extent g ≤ s.items.size + s.items.size * (g.terminalCount + 1) :=
        Nat.add_le_add_left hWeight _
    _ = s.items.size * (g.terminalCount + 2) := by
        rw [Nat.mul_succ _ (g.terminalCount + 1), Nat.add_comm]
    _ ≤ _ := Nat.mul_le_mul_right _ hSize

/-- What one addition does. A visit that is added to the work is paid for by what has been found. -/
structure Adds (g : Grammar) (seeds : List Item) (s t : Spread) : Prop where
  bounded : t.Bounded g seeds
  grown : s.Grown t
  paid : t.work.length + s.extent g ≤ s.work.length + t.extent g

theorem Adds.refl {seeds : List Item} {s : Spread} (h : s.Bounded g seeds) : Adds g seeds s s :=
  ⟨h, .refl s, Nat.le_refl _⟩

theorem Adds.trans {seeds : List Item} {s t u : Spread} (hFirst : Adds g seeds s t)
    (hSecond : Adds g seeds t u) : Adds g seeds s u := by
  refine ⟨hSecond.bounded, hFirst.grown.trans hSecond.grown, ?_⟩
  have hOne := hFirst.paid
  have hTwo := hSecond.paid
  omega

/-- Only the entry at the place changes. -/
theorem getElem?_setIfInBounds_of_some {items : Array LookaheadItem} {place : Nat} {entry : LookaheadItem}
    (hOld : items[place]? = some entry) (new : LookaheadItem) (i : Nat) :
    (items.setIfInBounds place new)[i]? = if place = i then some new else items[i]? := by
  have hLess : place < items.size := (Array.getElem?_eq_some_iff.mp hOld).1
  rw [Array.getElem?_setIfInBounds]
  by_cases hHere : place = i
  · rw [if_pos hHere, if_pos hHere, if_pos (hHere ▸ hLess)]
  · rw [if_neg hHere, if_neg hHere]

section Growing
variable {seeds : List Item} {s : Spread} {place : Nat} {item : Item} {old follow : IdSet}

/-- Adding lookaheads to an item keeps the spread bounded. -/
theorem Bounded.grow (h : s.Bounded g seeds) (hOld : s.items[place]? = some (item, old))
    (hFollow : follow.Within (g.terminalCount + 1)) :
    Bounded g seeds ⟨s.items.setIfInBounds place (item, old.union follow), place :: s.work⟩ where
  distinct := by
    -- The item at the place stays the same.
    have hKeys : ((s.items.setIfInBounds place (item, old.union follow)).toList.map (·.1))
        = s.items.toList.map (·.1) := by
      refine List.ext_getElem? fun i => ?_
      rw [List.getElem?_map, List.getElem?_map, Array.getElem?_toList, Array.getElem?_toList,
        getElem?_setIfInBounds_of_some hOld]
      by_cases hHere : place = i
      · rw [if_pos hHere, ← hHere, hOld]
        rfl
      · rw [if_neg hHere]
    rw [hKeys]
    exact h.distinct
  known entry hMem := by
    rcases Array.mem_or_eq_of_mem_setIfInBounds hMem with hMem | rfl
    · exact h.known entry hMem
    · exact h.known (item, old) (Array.mem_of_getElem? hOld)
  within entry hMem := by
    rcases Array.mem_or_eq_of_mem_setIfInBounds hMem with hMem | rfl
    · exact h.within entry hMem
    · exact (h.within _ (Array.mem_of_getElem? hOld)).union hFollow

/-- No item loses a lookahead when another one gets more. -/
theorem Grown.grow (hOld : s.items[place]? = some (item, old)) :
    s.Grown ⟨s.items.setIfInBounds place (item, old.union follow), place :: s.work⟩ where
  kept i other set hEntry := by
    dsimp only
    rw [getElem?_setIfInBounds_of_some hOld]
    by_cases hHere : place = i
    · subst hHere
      obtain ⟨rfl, rfl⟩ := Prod.mk.inj (Option.some.inj (hOld.symm.trans hEntry))
      exact ⟨_, if_pos rfl, IdSet.subset_union_left _ _, .inr (by simp)⟩
    · exact ⟨set, (if_neg hHere).trans hEntry, .refl set, .inl rfl⟩
  work i hMem := List.mem_cons_of_mem _ hMem
  fresh i entry hEntry hBeyond := by
    have hInside := (Array.getElem?_eq_some_iff.mp hEntry).1
    rw [Array.size_setIfInBounds] at hInside
    exact absurd hInside (Nat.not_lt.mpr hBeyond)

/-- The set of one item grows. -/
theorem Adds.grow (h : s.Bounded g seeds) (hOld : s.items[place]? = some (item, old))
    (hFollow : follow.Within (g.terminalCount + 1)) (hMore : old.union follow ≠ old) :
    Adds g seeds s ⟨s.items.setIfInBounds place (item, old.union follow), place :: s.work⟩ where
  bounded := h.grow hOld hFollow
  grown := .grow hOld
  paid := by
    have hSets : ∀ i : Nat, ((s.items.setIfInBounds place (item, old.union follow)).map
        (·.2)).getD i .empty = if place = i then old.union follow
          else (s.items.map (·.2)).getD i .empty := by
      intro i
      simp only [Array.getD_eq_getD_getElem?, Array.getElem?_map, getElem?_setIfInBounds_of_some hOld]
      split <;> rfl
    have hHere : (s.items.map (·.2)).getD place .empty = old := by
      simp [Array.getD_eq_getD_getElem?, hOld]
    have hWeight : IdSet.weight (g.terminalCount + 1) (s.items.map (·.2))
        < IdSet.weight (g.terminalCount + 1)
          ((s.items.setIfInBounds place (item, old.union follow)).map (·.2)) := by
      refine @IdSet.weight_lt _ place _ _ (by simp) (fun i => ?_) ?_ ?_ ?_
      · rw [hSets]
        by_cases hSame : place = i
        · rw [if_pos hSame, ← hSame, hHere]
          exact IdSet.subset_union_left _ _
        · rw [if_neg hSame]
          exact .refl _
      · simpa using (Array.getElem?_eq_some_iff.mp hOld).1
      · rw [hSets, if_pos rfl]
        exact (h.within _ (Array.mem_of_getElem? hOld)).union hFollow
      · rw [hSets, if_pos rfl, hHere]
        exact hMore
    simp only [extent, List.length_cons, Array.size_setIfInBounds]
    omega

end Growing

section Pushing
variable {seeds : List Item} {s : Spread} {item : Item} {follow : IdSet}

/-- A new item that begins a rule keeps the spread bounded. -/
theorem Bounded.push (h : s.Bounded g seeds) (hNew : ∀ entry ∈ s.items, entry.1 ≠ item)
    (hItem : item.dot = 0 ∧ item.rule < g.rules.size) (hFollow : follow.Within (g.terminalCount + 1)) :
    Bounded g seeds ⟨s.items.push (item, follow), s.items.size :: s.work⟩ where
  distinct := by
    have hOther : item ∉ s.items.toList.map (·.1) := by
      intro hMem
      obtain ⟨entry, hEntry, hSame⟩ := List.mem_map.mp hMem
      exact hNew entry (by simpa using hEntry) hSame
    rw [Array.toList_push, List.map_append, List.map_singleton]
    exact List.Nodup.append h.distinct (List.nodup_singleton _)
      (List.disjoint_singleton.mpr hOther)
  known entry hMem := by
    rcases Array.mem_push.mp hMem with hMem | rfl
    · exact h.known entry hMem
    · exact .inr hItem
  within entry hMem := by
    rcases Array.mem_push.mp hMem with hMem | rfl
    · exact h.within entry hMem
    · exact hFollow

/-- A new item takes nothing from the others. -/
theorem Grown.push (item : Item) (follow : IdSet) :
    s.Grown ⟨s.items.push (item, follow), s.items.size :: s.work⟩ where
  kept i other set hEntry := by
    have hLess := (Array.getElem?_eq_some_iff.mp hEntry).1
    refine ⟨set, ?_, .refl set, .inl rfl⟩
    dsimp only
    rw [Array.getElem?_push, if_neg (Nat.ne_of_lt hLess), hEntry]
  work i hMem := List.mem_cons_of_mem _ hMem
  fresh i entry hEntry hBeyond := by
    have hInside := (Array.getElem?_eq_some_iff.mp hEntry).1
    rw [Array.size_push] at hInside
    obtain rfl : i = s.items.size := Nat.le_antisymm (Nat.le_of_lt_succ hInside) hBeyond
    exact List.mem_cons_self

/-- An item gets a place of its own. -/
theorem Adds.push (h : s.Bounded g seeds) (hNew : ∀ entry ∈ s.items, entry.1 ≠ item)
    (hItem : item.dot = 0 ∧ item.rule < g.rules.size) (hFollow : follow.Within (g.terminalCount + 1)) :
    Adds g seeds s ⟨s.items.push (item, follow), s.items.size :: s.work⟩ where
  bounded := h.push hNew hItem hFollow
  grown := .push item follow
  paid := by
    simp only [extent, List.length_cons, Array.size_push, Array.map_push, IdSet.weight_push]
    omega

end Pushing

/-- After an item is added it is there with at least the lookaheads it was added with. -/
theorem add_spec {seeds : List Item} {s : Spread} (h : s.Bounded g seeds) {item : Item}
    (hItem : item.dot = 0 ∧ item.rule < g.rules.size) {follow : IdSet}
    (hFollow : follow.Within (g.terminalCount + 1)) :
    Adds g seeds s (s.add item follow) ∧ ∃ (i : Nat) (set : IdSet),
      (s.add item follow).items[i]? = some (item, set) ∧ follow.Subset set := by
  unfold add
  split
  · rename_i place hPlace
    obtain ⟨hLess, hSame, -⟩ := Array.findIdx?_eq_some_iff_getElem.mp hPlace
    obtain ⟨old, hOld⟩ : ∃ old, s.items[place]? = some (item, old) := by
      refine ⟨s.items[place].2, ?_⟩
      rw [Array.getElem?_eq_getElem hLess, ← beq_iff_eq.mp hSame]
    have hGet : (s.items.getD place (item, .empty)).2 = old := by
      rw [Array.getD_eq_getD_getElem?, hOld]
      rfl
    dsimp only
    rw [hGet]
    split
    · rename_i hAll
      refine ⟨.refl h, place, old, hOld, ?_⟩
      rw [← hAll]
      exact IdSet.subset_union_right old follow
    · rename_i hMore
      refine ⟨.grow h hOld hFollow hMore, place, old.union follow, ?_, IdSet.subset_union_right _ _⟩
      exact Array.getElem?_setIfInBounds_self_of_lt hLess
  · rename_i hNone
    have hNew : ∀ entry ∈ s.items, entry.1 ≠ item := by
      intro entry hMem
      simpa using Array.findIdx?_eq_none_iff.mp hNone entry hMem
    exact ⟨.push h hNew hItem hFollow, s.items.size, follow, by simp, .refl follow⟩

/-- After all expansions of an item are added they are there with at least its lookaheads. -/
theorem add_all {seeds : List Item} {expansions : List Item}
    (hItems : ∀ item ∈ expansions, item.dot = 0 ∧ item.rule < g.rules.size) {follow : IdSet}
    (hFollow : follow.Within (g.terminalCount + 1)) {s : Spread} (h : s.Bounded g seeds) :
    Adds g seeds s (expansions.foldl (fun s expansion => s.add expansion follow) s)
      ∧ ∀ item ∈ expansions, ∃ (i : Nat) (set : IdSet),
        (expansions.foldl (fun s expansion => s.add expansion follow) s).items[i]? = some (item, set)
          ∧ follow.Subset set := by
  induction expansions generalizing s with
  | nil => exact ⟨.refl h, by simp⟩
  | cons first expansions ih =>
      obtain ⟨hAdds, i, set, hEntry, hSubset⟩ := add_spec h (hItems first (by simp)) hFollow
      obtain ⟨hRest, hAll⟩ := ih (fun item hMem => hItems item (by simp [hMem])) hAdds.bounded
      refine ⟨hAdds.trans hRest, fun item hMem => ?_⟩
      rcases List.mem_cons.mp hMem with rfl | hMem
      · obtain ⟨more, hMore, hLarger, -⟩ := hRest.grown.kept i item set hEntry
        exact ⟨i, more, hMore, hSubset.trans hLarger⟩
      · exact hAll item hMem

/-- All expansions of an item are there, with what follows them. -/
def Spelled (g : Grammar) (s : Spread) (item : Item) (set : IdSet) : Prop :=
  ∀ symbol, (ofGrammar g).next? item = some symbol → (ofGrammar g).isTerminal symbol = false →
    ∀ expansion ∈ (ofGrammar g).expansions symbol, ∃ (i : Nat) (more : IdSet),
      s.items[i]? = some (expansion, more)
        ∧ (g.firstSets.ofSequence ((ofGrammar g).rest item) set).Subset more

theorem Spelled.grown {s t : Spread} {item : Item} {set : IdSet} (h : s.Spelled g item set)
    (hGrown : s.Grown t) : t.Spelled g item set := by
  intro symbol hNext hSymbol expansion hExpansion
  obtain ⟨i, more, hEntry, hSubset⟩ := h symbol hNext hSymbol expansion hExpansion
  obtain ⟨most, hMost, hLarger, -⟩ := hGrown.kept i expansion more hEntry
  exact ⟨i, most, hMost, hSubset.trans hLarger⟩

/-- The items whose places are not to be visited any more have been expanded. -/
def Settled (g : Grammar) (s : Spread) : Prop :=
  ∀ (i : Nat) item set, s.items[i]? = some (item, set) → i ∉ s.work → s.Spelled g item set

/-- When the place that was to be visited first has been expanded with the set that it had, everything is
settled again. -/
theorem Settled.of_visited {place : Nat} {work : List Nat} {s t : Spread}
    (hWork : s.work = place :: work) (h : s.Settled g) (hGrown : Grown { s with work } t)
    (hHere : ∀ item set, s.items[place]? = some (item, set) → t.Spelled g item set) : t.Settled g := by
  intro i item set hEntry hNot
  rcases Nat.lt_or_ge i s.items.size with hLess | hMore
  · obtain ⟨old, hOld⟩ : ∃ old, s.items[i]? = some old := ⟨_, Array.getElem?_eq_getElem hLess⟩
    obtain ⟨more, hMore, -, hSame⟩ := hGrown.kept i old.1 old.2 hOld
    obtain ⟨rfl, rfl⟩ := Prod.mk.inj (Option.some.inj (hEntry.symm.trans hMore))
    obtain rfl := hSame.resolve_right hNot
    by_cases hPlace : i = place
    · subst hPlace
      exact hHere old.1 old.2 hOld
    · have hOther : i ∉ s.work := by
        rw [hWork, List.mem_cons, not_or]
        exact ⟨hPlace, fun hMem => hNot (hGrown.work i hMem)⟩
      have hBefore : Spelled g { s with work } old.1 old.2 := h i old.1 old.2 hOld hOther
      exact hBefore.grown hGrown
  · exact absurd (hGrown.fresh i _ hEntry hMore) hNot

/-- A visit expands what is at its place. -/
theorem visit_spec {seeds : List Item} {place : Nat} {work : List Nat} {s : Spread}
    (hWork : s.work = place :: work) (h : s.Bounded g seeds) (hSettled : s.Settled g) :
    let t := visit (ofGrammar g) { s with work } place
    Adds g seeds { s with work } t ∧ t.Settled g := by
  have hBounded : Bounded g seeds { s with work } := ⟨h.distinct, h.known, h.within⟩
  dsimp only
  unfold visit
  split
  · rename_i hNone
    refine ⟨.refl hBounded, hSettled.of_visited hWork (.refl _) fun item set hEntry => ?_⟩
    rw [hNone] at hEntry
    simp at hEntry
  · rename_i item set hEntry
    have hOnly : ∀ {t : Spread}, t.Spelled g item set → ∀ item set, s.items[place]? = some (item, set) →
        t.Spelled g item set := by
      intro t hSpelled other found hFound
      obtain ⟨rfl, rfl⟩ := Prod.mk.inj (Option.some.inj (hEntry.symm.trans hFound))
      exact hSpelled
    split
    · rename_i hComplete
      refine ⟨.refl hBounded, hSettled.of_visited hWork (.refl _) (hOnly ?_)⟩
      intro symbol hNext
      rw [hComplete] at hNext
      simp at hNext
    · rename_i symbol hNext
      split
      · rename_i hTerminal
        refine ⟨.refl hBounded, hSettled.of_visited hWork (.refl _) (hOnly ?_)⟩
        intro other hOther hSymbol
        obtain rfl := Option.some.inj (hNext.symm.trans hOther)
        rw [hTerminal] at hSymbol
        simp at hSymbol
      · have hItems : ∀ expansion ∈ (ofGrammar g).expansions symbol,
            expansion.dot = 0 ∧ expansion.rule < g.rules.size := by
          intro expansion hMem
          obtain ⟨hDot, -, info, hRule, -⟩ := mem_expansions.mp hMem
          exact ⟨hDot, (Array.getElem?_eq_some_iff.mp hRule).1⟩
        have hGrowing := g.firstSets_fixed.1
        have hFollow := FirstSets.within_ofSequence
          (Nat.le_of_eq hGrowing.terminalCount |>.trans (Nat.le_succ _))
          (fun i => (hGrowing.within i).mono (Nat.le_succ _))
          (h.within _ (Array.mem_of_getElem? hEntry)) ((ofGrammar g).rest item)
        obtain ⟨hAdds, hAll⟩ := add_all hItems hFollow hBounded
        refine ⟨hAdds, hSettled.of_visited hWork hAdds.grown (hOnly ?_)⟩
        intro other hOther _ expansion hExpansion
        obtain rfl := Option.some.inj (hNext.symm.trans hOther)
        exact hAll expansion hExpansion

/-- A run ends with everything expanded. -/
theorem run_spec {seeds : List Item} (limit : Nat) {s : Spread} (h : s.Bounded g seeds)
    (hSettled : s.Settled g)
    (hLimit : s.work.length + (seeds.length + g.rules.size) * (g.terminalCount + 2)
      ≤ limit + s.extent g) :
    ∃ t : Spread, t.items = run (ofGrammar g) limit s ∧ t.work = [] ∧ t.Settled g
      ∧ t.Bounded g seeds ∧ ∀ (i : Nat) item set, s.items[i]? = some (item, set) →
        ∃ more, t.items[i]? = some (item, more) ∧ set.Subset more := by
  induction limit generalizing s with
  | zero =>
      have hMost := h.extent_le
      have hNone : s.work = [] := List.length_eq_zero_iff.mp (by omega)
      exact ⟨s, rfl, hNone, hSettled, h, fun i item set hEntry => ⟨set, hEntry, .refl set⟩⟩
  | succ limit ih =>
      rw [run]
      split
      · rename_i hNone
        exact ⟨s, rfl, hNone, hSettled, h, fun i item set hEntry => ⟨set, hEntry, .refl set⟩⟩
      · rename_i place work hWork
        obtain ⟨hAdds, hNext⟩ := visit_spec hWork h hSettled
        have hPaid := hAdds.paid
        have hSame : extent g { s with work } = s.extent g := rfl
        rw [hSame] at hPaid
        rw [hWork, List.length_cons] at hLimit
        dsimp only at hPaid
        obtain ⟨t, hRun, hEmpty, hSettled, hBounded, hKept⟩ := ih hAdds.bounded hNext (by omega)
        refine ⟨t, hRun, hEmpty, hSettled, hBounded, fun i item set hEntry => ?_⟩
        obtain ⟨more, hMore, hSubset, -⟩ := hAdds.grown.kept i item set hEntry
        obtain ⟨most, hMost, hLarger⟩ := hKept i item more hMore
        exact ⟨most, hMost, hSubset.trans hLarger⟩

end Spread

/-- Terminals that may follow an item, in the closure of some items with lookahead. -/
inductive Follower (g : Grammar) (seed : List LookaheadItem) : Item → Nat → Prop
  | seed {entry : LookaheadItem} {i : Nat} (hMem : entry ∈ seed) (hSet : entry.2.contains i = true) :
      Follower g seed entry.1 i
  | begins {item expansion : Item} {symbol : SymbolId} {i : Nat}
      (hItem : (ofGrammar g).Closure (seed.map (·.1)) item)
      (hNext : (ofGrammar g).next? item = some symbol)
      (hSymbol : (ofGrammar g).isTerminal symbol = false)
      (hExpansion : expansion ∈ (ofGrammar g).expansions symbol)
      (hFirst : (g.firstSets.ofSequence ((ofGrammar g).rest item) .empty).contains i = true) :
      Follower g seed expansion i
  | passes {item expansion : Item} {symbol : SymbolId} {i : Nat} (hItem : Follower g seed item i)
      (hNext : (ofGrammar g).next? item = some symbol)
      (hSymbol : (ofGrammar g).isTerminal symbol = false)
      (hExpansion : expansion ∈ (ofGrammar g).expansions symbol)
      (hEmpty : ∀ other ∈ (ofGrammar g).rest item, g.firstSets.isNullable other = true) :
      Follower g seed expansion i

/-- The closure is found in full. Every item has one place, and the items that the closure is made
from keep theirs. -/
theorem closureWithLookahead_spec {seed : List LookaheadItem} (hDistinct : (seed.map (·.1)).Nodup)
    (hWithin : ∀ entry ∈ seed, entry.2.Within (g.terminalCount + 1)) :
    ∃ t : Spread, t.items = (ofGrammar g).closureWithLookahead seed ∧ t.work = [] ∧ t.Settled g
      ∧ t.Bounded g (seed.map (·.1)) ∧ ∀ (i : Nat) item set, seed[i]? = some (item, set) →
        ∃ more, t.items[i]? = some (item, more) ∧ set.Subset more := by
  have hSize : (ofGrammar g).rhs.size = g.rules.size + 1 := by simp [ofGrammar]
  have hStart : Spread.Bounded g (seed.map (·.1)) ⟨seed.toArray, (List.range seed.length).reverse⟩ :=
    ⟨by simpa using hDistinct, fun entry hMem => .inl (List.mem_map_of_mem (by simpa using hMem)),
      fun entry hMem => hWithin entry (by simpa using hMem)⟩
  have hSettled : Spread.Settled g ⟨seed.toArray, (List.range seed.length).reverse⟩ := by
    intro place item set hEntry hNot
    have hLess := (Array.getElem?_eq_some_iff.mp hEntry).1
    exact absurd (by simpa using hLess) hNot
  obtain ⟨t, hRun, hEmpty, hSettled, hBounded, hKept⟩ := Spread.run_spec
    ((seed.length + (ofGrammar g).rhs.size) * ((ofGrammar g).terminalCount + 3)) hStart hSettled (by
      have hCount : (ofGrammar g).terminalCount = g.terminalCount := rfl
      simp only [List.length_reverse, List.length_range, List.length_map, hSize, hCount]
      calc seed.length + (seed.length + g.rules.size) * (g.terminalCount + 2)
          ≤ (seed.length + g.rules.size) + (seed.length + g.rules.size) * (g.terminalCount + 2) :=
            Nat.add_le_add_right (Nat.le_add_right _ _) _
        _ = (seed.length + g.rules.size) * (g.terminalCount + 3) := by
            rw [Nat.mul_succ _ (g.terminalCount + 2), Nat.add_comm]
        _ ≤ (seed.length + (g.rules.size + 1)) * (g.terminalCount + 3) :=
            Nat.mul_le_mul_right _ (Nat.le_succ _)
        _ ≤ _ := Nat.le_add_right _ _)
  exact ⟨t, hRun, hEmpty, hSettled, hBounded,
    fun i item set hEntry => hKept i item set (by simpa using hEntry)⟩

/-- The closure begins with the items that it is made from. All others are beginnings of rules. -/
theorem closureWithLookahead_items {seed : List LookaheadItem} (hDistinct : (seed.map (·.1)).Nodup)
    (hWithin : ∀ entry ∈ seed, entry.2.Within (g.terminalCount + 1)) :
    ∃ added, ((ofGrammar g).closureWithLookahead seed).toList.map (·.1) = seed.map (·.1) ++ added
      ∧ ∀ item ∈ added, item.dot = 0 := by
  obtain ⟨t, hRun, -, -, hBounded, hKept⟩ := closureWithLookahead_spec hDistinct hWithin
  have hPrefix : seed.map (·.1) <+: t.items.toList.map (·.1) := by
    refine List.prefix_iff_getElem?.mpr fun i hLess => ?_
    have hSeed : i < seed.length := by simpa using hLess
    obtain ⟨more, hMore, -⟩ := hKept i seed[i].1 seed[i].2 (List.getElem?_eq_getElem hSeed)
    simp [hMore]
  obtain ⟨added, hAdded⟩ := hPrefix
  rw [← hRun]
  refine ⟨added, hAdded.symm, fun item hMem => ?_⟩
  have hItem : item ∈ t.items.toList.map (·.1) := hAdded ▸ List.mem_append_right _ hMem
  obtain ⟨entry, hEntry, rfl⟩ := List.mem_map.mp hItem
  rcases hBounded.known entry (by simpa using hEntry) with hSeed | ⟨hDot, -⟩
  · have hOnce := hBounded.distinct
    rw [← hAdded] at hOnce
    exact absurd rfl ((List.nodup_append.mp hOnce).2.2 _ hSeed _ hMem)
  · exact hDot

/-- Everything that may follow an item is found. -/
theorem Follower.found {seed : List LookaheadItem} (hDistinct : (seed.map (·.1)).Nodup)
    (hWithin : ∀ entry ∈ seed, entry.2.Within (g.terminalCount + 1)) {item : Item} {i : Nat}
    (h : Follower g seed item i) :
    ∃ set, (item, set) ∈ (ofGrammar g).closureWithLookahead seed ∧ set.contains i = true := by
  obtain ⟨t, hRun, hEmpty, hSettled, -, hKept⟩ := closureWithLookahead_spec hDistinct hWithin
  have hItems : ∀ {item set}, (item, set) ∈ (ofGrammar g).closureWithLookahead seed ↔
      ∃ place : Nat, t.items[place]? = some (item, set) := by
    intro item set
    rw [← hRun]
    exact Array.mem_iff_getElem?
  have hSpelled : ∀ {item set}, (item, set) ∈ (ofGrammar g).closureWithLookahead seed →
      t.Spelled g item set := by
    intro item set hMem
    obtain ⟨place, hEntry⟩ := hItems.mp hMem
    exact hSettled place item set hEntry (by simp [hEmpty])
  have hSeed : ∀ entry ∈ seed, ∃ set, (entry.1, set) ∈ (ofGrammar g).closureWithLookahead seed
      ∧ entry.2.Subset set := by
    intro entry hMem
    obtain ⟨place, hPlace⟩ := List.mem_iff_getElem?.mp hMem
    obtain ⟨more, hMore, hSubset⟩ := hKept place entry.1 entry.2 hPlace
    exact ⟨more, hItems.mpr ⟨place, hMore⟩, hSubset⟩
  have hClosure : ∀ {item}, (ofGrammar g).Closure (seed.map (·.1)) item →
      ∃ set, (item, set) ∈ (ofGrammar g).closureWithLookahead seed := by
    intro item hItem
    induction hItem with
    | kernel hMem =>
        obtain ⟨entry, hEntry, rfl⟩ := List.mem_map.mp hMem
        obtain ⟨set, hSet, -⟩ := hSeed entry hEntry
        exact ⟨set, hSet⟩
    | expand _ hNext hSymbol hExpansion ih =>
        obtain ⟨set, hSet⟩ := ih
        obtain ⟨place, more, hMore, -⟩ := hSpelled hSet _ hNext hSymbol _ hExpansion
        exact ⟨more, hItems.mpr ⟨place, hMore⟩⟩
  induction h with
  | seed hMem hSet =>
      obtain ⟨set, hFound, hSubset⟩ := hSeed _ hMem
      exact ⟨set, hFound, hSubset _ hSet⟩
  | begins hItem hNext hSymbol hExpansion hFirst =>
      obtain ⟨set, hSet⟩ := hClosure hItem
      obtain ⟨place, more, hMore, hSubset⟩ := hSpelled hSet _ hNext hSymbol _ hExpansion
      exact ⟨more, hItems.mpr ⟨place, hMore⟩,
        hSubset _ (FirstSets.contains_ofSequence.mpr (.inl hFirst))⟩
  | passes _ hNext hSymbol hExpansion hNull ih =>
      obtain ⟨set, hSet, hContains⟩ := ih
      obtain ⟨place, more, hMore, hSubset⟩ := hSpelled hSet _ hNext hSymbol _ hExpansion
      exact ⟨more, hItems.mpr ⟨place, hMore⟩,
        hSubset _ (FirstSets.contains_ofSequence.mpr (.inr ⟨hNull, hContains⟩))⟩

end Augmented
end IncrementalParsing
