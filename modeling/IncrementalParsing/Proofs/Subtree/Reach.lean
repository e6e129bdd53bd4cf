import IncrementalParsing.Proofs.Parser.Reuse
import IncrementalParsing.Proofs.Subtree.Nodes

/-! How far was read to build subtrees. What is on record for a node covers the nodes below it. What was
read for a node that is taken apart is on record no more, but for what was read for its children. -/
namespace IncrementalParsing.Subtree

theorem reachFrom_eq {offset bound : Nat} (ts : List Subtree) (hBound : offset ≤ bound) :
    reachFrom offset bound ts = max bound (offset + reach ts) := by
  induction ts generalizing offset bound with
  | nil => exact (Nat.max_eq_left hBound).symm
  | cons t ts ih =>
      have hWhole : reach (t :: ts) = max (t.total + t.lookahead) (t.total + reach ts) := by
        change reachFrom (0 + t.total) (max 0 (0 + t.total + t.lookahead)) ts = _
        rw [ih (by omega)]
        omega
      rw [reachFrom_cons, ih (by omega), hWhole]
      omega

@[simp] theorem reach_nil : reach [] = 0 := rfl

/-- A list reaches as far as its first tree looks, or its rest from behind that. -/
theorem reach_cons (t : Subtree) (ts : List Subtree) :
    reach (t :: ts) = t.total + max t.lookahead (reach ts) := by
  change reachFrom (0 + t.total) (max 0 (0 + t.total + t.lookahead)) ts = _
  rw [reachFrom_eq ts (by omega)]
  omega

/-- The rest of a list is reached from where its front ends. -/
theorem reach_append (ts us : List Subtree) :
    reach (ts ++ us) = max (reach ts) (width ts + reach us) := by
  induction ts with
  | nil => simp [reach]
  | cons t ts ih =>
      rw [List.cons_append, reach_cons, reach_cons, ih, width_cons]
      omega

theorem width_le_reach (ts : List Subtree) : width ts ≤ reach ts := by
  induction ts with
  | nil => exact Nat.le_refl 0
  | cons t ts ih =>
      rw [width_cons, reach_cons]
      omega

/-- What was read for one of several subtrees was read for all of them. -/
theorem le_reach_of_split {ts us : List Subtree} (t : Subtree) :
    width ts + t.total + t.lookahead ≤ reach (ts ++ t :: us) := by
  rw [reach_append, reach_cons]
  omega

section Measured
variable {kinds : Kinds} {t : Subtree}

/-- A node read as far as its children, each from where it starts. -/
theorem Measured.le_of_split (h : Measured kinds t) {front back : List Subtree} {c : Subtree}
    (hSplit : t.children = front ++ c :: back) : width front + c.total ≤ t.total
      ∧ width front + c.total + c.lookahead ≤ t.total + t.lookahead := by
  have hSome : t.children ≠ [] := by simp [hSplit]
  have hTotal := h.total hSome
  have hReach := h.reach hSome
  rw [hSplit] at hTotal hReach
  rw [width_append, width_cons] at hTotal
  exact ⟨by omega, Nat.le_trans (le_reach_of_split c) hReach⟩

/-- What was read for the leftmost token of a subtree was read for the subtree. -/
theorem leftmost_le (t : Subtree) (hMeasured : All (Measured kinds) t) (offset : Nat) :
    (t.leftmost offset).2 + (t.leftmost offset).1.lookahead ≤ offset + t.total + t.lookahead := by
  induction t using children_induction generalizing offset with
  | node t ih =>
      have hAmong : ∀ front back, t.children = front ++ back → ∀ found,
          leftmostAmong offset (offsetsFrom (width front) back) back = some found →
          found.2 + found.1.lookahead ≤ offset + t.total + t.lookahead := by
        intro front back hSplit found hFound
        induction back generalizing front with
        | nil => simp [leftmostAmong] at hFound
        | cons c cs ihs =>
            rw [leftmostAmong, offsetsFrom_cons, List.headD_cons, List.tail_cons] at hFound
            split at hFound
            · obtain rfl := Option.some.inj hFound
              have hMem : c ∈ t.children := by simp [hSplit]
              have hChild := ih c hMem (hMeasured.child hMem) (offset + width front)
              have hWithin := (hMeasured.self.le_of_split hSplit).2
              omega
            · refine ihs (front ++ [c]) (by simp [hSplit]) ?_
              simpa using hFound
      obtain ⟨info, field, _ | ⟨c, cs⟩⟩ := t
      · exact Nat.le_refl _
      · have hLaid : info.offsets = offsetsFrom 0 (c :: cs) := hMeasured.self.laid (List.cons_ne_nil c cs)
        rw [leftmost, hLaid, offsetsFrom_cons, List.headD_cons, Nat.add_zero]
        split
        · rename_i found hFound
          exact hAmong [] (c :: cs) rfl found hFound
        · have hChild := ih c (by simp [Subtree.children]) (hMeasured.child (by simp [Subtree.children])) offset
          have hWithin := (@Measured.le_of_split kinds _ hMeasured.self [] cs c rfl).2
          rw [width_nil, Nat.zero_add] at hWithin
          omega

end Measured

section Unwrapped
variable {opens : Subtree → Bool} (hField : ∀ field t, opens (t.withField field) = opens t)
include hField

/-- What is left of subtrees that differ only in the parts they play differs only in the parts. -/
theorem unwrapped_congr {ts us : List Subtree}
    (hSame : ts.map (withField none) = us.map (withField none)) :
    (unwrapped opens ts).map (withField none) = (unwrapped opens us).map (withField none) := by
  induction ts using unwrapped_induction opens generalizing us with
  | nil =>
      obtain rfl : us = [] := by simpa using hSame.symm
      rfl
  | opened t ts hOpen ihChildren ih =>
      cases us with
      | nil => simp at hSame
      | cons u us =>
          obtain ⟨hHead, hTail⟩ := List.cons.inj hSame
          have hOpen' : opens u = true := by rw [← hField none u, ← hHead, hField, hOpen]
          have hInner : u.children = t.children := by
            rw [← children_withField none u, ← hHead, children_withField]
          rw [unwrapped_of_opens hOpen, unwrapped_of_opens hOpen', List.map_append, List.map_append, ih hTail]
          refine congrArg (· ++ _) (ihChildren ?_)
          rw [hInner, List.map_map, List.map_map]
          exact List.map_congr_left fun c _ => by simp [orField]
  | closed t ts hClosed ih =>
      cases us with
      | nil => simp at hSame
      | cons u us =>
          obtain ⟨hHead, hTail⟩ := List.cons.inj hSame
          have hClosed' : opens u = false := by rw [← hField none u, ← hHead, hField, hClosed]
          rw [unwrapped_of_not_opens hClosed, unwrapped_of_not_opens hClosed', List.map_cons, List.map_cons,
            hHead, ih hTail]

omit hField in
theorem reach_map_withField (field : Option FieldId) (ts : List Subtree) :
    reach (ts.map (withField field)) = reach ts := by
  induction ts with
  | nil => rfl
  | cons t ts ih => simp only [List.map_cons, reach_cons, ih, total_withField, lookahead, info_withField]

/-- Fields do not matter to what opened nodes reach. -/
theorem reach_unwrapped_congr {ts us : List Subtree}
    (hSame : ts.map (withField none) = us.map (withField none)) :
    reach (unwrapped opens ts) = reach (unwrapped opens us) := by
  rw [← reach_map_withField none (unwrapped opens ts), unwrapped_congr hField hSame, reach_map_withField]

end Unwrapped

/-- Side by side, some subtrees are no wider than others, and nothing further on was read for them. -/
structure Tighter (ts us : List Subtree) : Prop where
  width : width ts ≤ width us
  reach : reach ts ≤ reach us

section Tighter
variable {ts us vs ws : List Subtree}

theorem Tighter.refl (ts : List Subtree) : Tighter ts ts := ⟨Nat.le_refl _, Nat.le_refl _⟩

/-- To be tighter is transitive. -/
theorem Tighter.trans (h : Tighter ts us) (hNext : Tighter us vs) : Tighter ts vs :=
  ⟨Nat.le_trans h.width hNext.width, Nat.le_trans h.reach hNext.reach⟩

/-- Lists that are tighter stay so one behind the other. -/
theorem Tighter.append (h : Tighter ts us) (hRest : Tighter vs ws) : Tighter (ts ++ vs) (us ++ ws) := by
  have hWidth := h.width
  have hReach := h.reach
  have hWidths := hRest.width
  have hReaches := hRest.reach
  refine ⟨?_, ?_⟩
  · rw [width_append, width_append]
    omega
  · rw [reach_append, reach_append]
    omega

/-- The parts that subtrees play do not matter. -/
theorem Tighter.of_same (hSame : ts.map (withField none) = us.map (withField none)) : Tighter ts us :=
  ⟨Nat.le_of_eq (width_congr hSame), by
    rw [← reach_map_withField none ts, hSame, reach_map_withField]⟩

theorem tighter_map_withField (field : Option FieldId) (ts : List Subtree) :
    Tighter (ts.map (withField field)) ts :=
  .of_same (by simp [Function.comp_def])

/-- Subtrees that no text was read for take up nothing. -/
theorem tighter_nil (hEmpty : ∀ t ∈ ts, t.total = 0 ∧ t.lookahead = 0) : Tighter ts [] := by
  induction ts with
  | nil => exact .refl []
  | cons t ts ih =>
      obtain ⟨hTotal, hLookahead⟩ := hEmpty t List.mem_cons_self
      obtain ⟨hWidth, hReach⟩ := ih fun u hMem => hEmpty u (List.mem_cons_of_mem t hMem)
      rw [width_nil] at hWidth
      rw [reach_nil] at hReach
      refine ⟨?_, ?_⟩
      · rw [width_cons, width_nil]
        omega
      · rw [reach_cons, reach_nil]
        omega

/-- The children of a node take up no more than the node. -/
theorem Measured.tighter_children {kinds : Kinds} {t : Subtree} (h : Measured kinds t) :
    Tighter t.children [t] := by
  by_cases hNone : t.children = []
  · rw [hNone]
    exact ⟨Nat.zero_le _, Nat.zero_le _⟩
  · refine ⟨Nat.le_of_eq (h.total hNone).symm, ?_⟩
    rw [reach_cons]
    exact Nat.le_trans (h.reach hNone) (Nat.add_le_add_left (Nat.le_max_left _ _) _)

/-- Taking nodes apart makes nothing wider, and loses at most what was read for the nodes. -/
theorem tighter_unwrapped {kinds : Kinds} {opens : Subtree → Bool} (ts : List Subtree)
    (h : ∀ t ∈ ts, All (Measured kinds) t) : Tighter (unwrapped opens ts) ts := by
  induction ts using unwrapped_induction opens with
  | nil =>
      rw [unwrapped_nil]
      exact .refl []
  | opened t ts hOpens ihChildren ih =>
      have hHead : All (Measured kinds) t := h t (by simp)
      have hChildren := ihChildren fun c hMem => by
        obtain ⟨d, hChild, rfl⟩ := List.mem_map.mp hMem
        exact (hHead.child hChild).withField Measured.withField _
      have hSame : Tighter (t.children.map (orField t.field)) t.children :=
        .of_same (by simp [Function.comp_def, orField])
      rw [unwrapped_of_opens hOpens]
      exact (hChildren.trans (hSame.trans hHead.self.tighter_children)).append
        (ih fun u hMem => h u (by simp [hMem]))
  | closed t ts hClosed ih =>
      rw [unwrapped_of_not_opens hClosed]
      exact (Tighter.refl [t]).append (ih fun u hMem => h u (by simp [hMem]))

/-- A node reads as far as its children, and as far as it was decided. -/
theorem reach_branch (serial : Nat) (kind : SymbolId) (state : Option StateId) (children : List Subtree)
    (lookaheadEnd : Nat) (fragile : Bool) :
    reach [branch serial kind state children lookaheadEnd fragile] = max (reach children) lookaheadEnd := by
  have hWidth := width_le_reach children
  have hLookahead : (branch serial kind state children lookaheadEnd fragile).lookahead
      = max (reach children) lookaheadEnd - width children := rfl
  rw [reach_cons, total_branch, hLookahead, reach_nil]
  omega

/-- A node that is built without a look at what follows takes up as much as its children. -/
theorem tighter_branch (serial : Nat) (kind : SymbolId) (state : Option StateId) (children : List Subtree)
    (fragile : Bool) : Tighter [branch serial kind state children 0 fragile] children := by
  refine ⟨?_, ?_⟩
  · rw [width_cons, total_branch]
    exact Nat.le_refl _
  · rw [reach_branch]
    exact Nat.max_le.mpr ⟨Nat.le_refl _, Nat.zero_le _⟩

end Tighter

/-- A node that is taken apart, at the top of another or below it with nothing in between that is not taken
apart. -/
inductive Tucked (opens : Subtree → Bool) (u : Subtree) : Subtree → Prop
  | self (hOpens : opens u = true) : Tucked opens u u
  | child {t c : Subtree} (hOpens : opens t = true) (hMem : c ∈ t.children) (h : Tucked opens u c) :
      Tucked opens u t

theorem Tucked.opened {opens : Subtree → Bool} {t u : Subtree} (h : Tucked opens u t) : opens t = true := by
  cases h with
  | self hOpens => exact hOpens
  | child hOpens => exact hOpens

theorem Tucked.of_withField {opens : Subtree → Bool} (hField : ∀ field t, opens (t.withField field) = opens t)
    {t u : Subtree} {field : Option FieldId} (h : Tucked opens u (t.withField field)) :
    ∃ v, Tucked opens v t ∧ v.withField none = u.withField none := by
  generalize hTop : t.withField field = top at h
  cases h with
  | self hOpens => exact ⟨t, .self (by rw [← hField field, hTop, hOpens]), by rw [← hTop, withField_withField]⟩
  | @child _ c hOpens hMem hBelow =>
      refine ⟨u, .child (by rw [← hField field, hTop, hOpens]) ?_ hBelow, rfl⟩
      rwa [← children_withField field t, hTop]

end IncrementalParsing.Subtree
