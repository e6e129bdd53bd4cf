import IncrementalParsing.Proofs.Parser.Serials

/-! How far a parse has looked, and what is left of that on record. What a hidden node was decided on goes on
record with the next token that is shifted, or with the reduction that takes the node apart, as long as both
are decided on the same token. It is lost only with a token that is passed over in between. -/
namespace IncrementalParsing
open Subtree

namespace ParseStack
variable {t : Tables} {kinds : Kinds} {s : ParseStack} {below above inner top : List StackEntry}

/-- How far entries on top of others are known to have read when the hidden nodes among them have been taken
apart. -/
def onRecord (t : Tables) (below top : List StackEntry) : Nat :=
  topStop below + reach (unwrapped (t.isHidden ·.kind) (content top))

/-- Entries that stand on others, with hidden nodes that are as wide as what they hold. -/
structure Standing (kinds : Kinds) (t : Tables) (below top : List StackEntry) : Prop where
  stacked : Stacked (top ++ below)
  entries : ∀ e ∈ top, All (Measured kinds) e.subtree ∧ Plain kinds e.subtree
  hidden : ∀ k, t.isHidden k = true → kinds.spliced k = true
  error : t.isHidden errorSymbol = false

namespace Standing

theorem lower (h : Standing kinds t below (above ++ inner)) : Standing kinds t below inner where
  stacked := @stacked_of_suffix above (inner ++ below) (by simpa using h.stacked)
  entries e hMem := h.entries e (List.mem_append_right _ hMem)
  hidden := h.hidden
  error := h.error

/-- Taking hidden nodes apart does not change where entries end. -/
theorem stop_eq (h : Standing kinds t below top) :
    topStop below + width (unwrapped (t.isHidden ·.kind) (content top)) = topStop (top ++ below) := by
  have hContent : ∀ u ∈ content top, All (Measured kinds) u ∧ Plain kinds u := by
    intro u hMem
    obtain ⟨e, hEntry, rfl⟩ : ∃ e ∈ top, e.subtree = u := by simpa [content] using hMem
    exact h.entries e hEntry
  have hWidth := (unwrapped_conserves (opener_kind h.hidden h.error) (content top)
    (fun u hMem hOpens hNone => (hContent u hMem).2 hNone (h.hidden _ hOpens))
    fun u hMem => (hContent u hMem).1).2
  rw [hWidth, topStop_eq h.stacked, topStop_eq (stacked_of_suffix h.stacked), content_append, width_append]

/-- What entries are known to have read, those on top of them have in addition. -/
theorem onRecord_append (h : Standing kinds t below (above ++ inner)) :
    onRecord t below (above ++ inner) = max (onRecord t below inner) (onRecord t (inner ++ below) above) := by
  have hStop := h.lower.stop_eq
  rw [onRecord, onRecord, onRecord, content_append, unwrapped_append, reach_append, ← hStop]
  omega

theorem le_onRecord_of_visible {e : StackEntry} (h : Standing kinds t below (e :: inner))
    (hShown : t.isHidden e.subtree.kind = false) :
    e.stop + e.subtree.lookahead ≤ onRecord t below (e :: inner) := by
  have hEnd : e.stop = topStop (inner ++ below) + e.subtree.total := h.stacked.1.1
  have hSplit := @onRecord_append t kinds below [e] inner h
  have hAlone : onRecord t (inner ++ below) [e] = topStop (inner ++ below) + reach [e.subtree] := by
    rw [onRecord, content_cons, content_nil, List.nil_append, unwrapped_of_not_opens hShown, unwrapped_nil]
  rw [reach_cons] at hAlone
  rw [List.singleton_append] at hSplit
  omega

end Standing

theorem reach_unwrapped_map_orField (t : Tables) (field : Option FieldId) (ts : List Subtree) :
    reach (unwrapped (t.isHidden ·.kind) (ts.map (orField field)))
      = reach (unwrapped (t.isHidden ·.kind) ts) := by
  refine reach_unwrapped_congr (by simp) ?_
  rw [List.map_map]
  exact List.map_congr_left fun u _ => by simp [orField]

/-- The node of a reduction is known to have read as far as its pieces are. -/
theorem reach_unwrapped_reduced (t : Tables) (s : ParseStack) (rule : Production) (lookaheadStop : Nat) :
    reach (unwrapped (t.isHidden ·.kind) (s.taken rule).1)
      ≤ reach (unwrapped (t.isHidden ·.kind) [s.closeError.reduced t rule lookaheadStop]) := by
  rw [reduced_closeError]
  cases hHidden : t.isHidden rule.lhs with
  | true =>
      rw [unwrapped_of_opens (by simpa using hHidden), unwrapped_nil, List.append_nil, children_branch,
        reach_unwrapped_map_orField]
      exact Nat.le_refl _
  | false =>
      have hReach := reach_le_branch s.closeError.nextSerial rule.lhs (some (topState (s.taken rule).2))
        (unwrapped (t.isHidden ·.kind) (s.taken rule).1) (lookaheadStop - topStop (s.taken rule).2)
        (topLevel (s.taken rule).2 < s.decidedLevel || (s.taken rule).1.any isFragile)
      rw [unwrapped_of_not_opens (by simpa using hHidden), unwrapped_nil, reach_cons]
      simp only [Bool.false_eq_true, if_false]
      omega

theorem onRecord_le_reduced {rule : Production} (lookaheadStop : Nat)
    (hTaken : (s.taken rule).1.map (withField none) = (content top).map (withField none)) :
    onRecord t (s.taken rule).2 top ≤ topStop (s.taken rule).2
      + reach (unwrapped (t.isHidden ·.kind) [s.closeError.reduced t rule lookaheadStop]) := by
  rw [onRecord, ← reach_unwrapped_congr (by simp) hTaken]
  exact Nat.add_le_add_left (reach_unwrapped_reduced t s rule lookaheadStop) _

theorem onRecord_single (t : Tables) (below : List StackEntry) (e : StackEntry) :
    onRecord t below [e] = topStop below + reach (unwrapped (t.isHidden ·.kind) [e.subtree]) := rfl

end ParseStack

namespace ParseJob
variable {job : ParseJob} {c d e : Configuration} {bound : Nat}

/-- How far `c` has looked is known to `d` by a bound, or by the token in front, which is still the same one,
or it is lost. -/
def Kept (job : ParseJob) (c d : Configuration) (bound : Nat) : Prop :=
  c.seen ≤ bound ∨ c.Shares d ∨ job.Loses c d

theorem Loses.step (h : job.Loses c d) (hStep : job.step d.1 d.2 = .next e.2 e.1) : job.Loses c e := by
  obtain ⟨a, b, hBefore, hShares, hPasses, hAfter⟩ := h
  exact ⟨a, b, hBefore, hShares, hPasses, hAfter.tail hStep⟩

theorem Kept.mono (h : job.Kept c d bound) {bound' : Nat} (hBound : bound ≤ bound') :
    job.Kept c d bound' :=
  h.imp_left fun hSeen => hSeen.trans hBound

/-- What is known by the token in front goes on record with the token, or the token is passed over. -/
theorem Kept.step (h : job.Kept c d bound) (hReaches : job.Reaches c d)
    (hStep : job.step d.1 d.2 = .next e.2 e.1) {bound' : Nat} (hBound : bound ≤ bound')
    (hToken : d.seen ≤ bound' ∨ d.Shares e ∨ job.Passes d e) : job.Kept c e bound' := by
  rcases h with hSeen | hShares | hLoses
  · exact .inl (hSeen.trans hBound)
  · rcases hToken with hSeen | hSame | hPasses
    · exact .inl (hShares.seen_eq ▸ hSeen)
    · exact .inr (.inl (hShares.trans hSame))
    · exact .inr (.inr ⟨d, e, hReaches, hShares, hPasses, .refl⟩)
  · exact .inr (.inr (hLoses.step hStep))

/-- Something to keep in mind about hidden nodes: what holds of a node at a configuration, given whether
recovery has decided on what the node is in, and how far is on record around it. -/
structure Memory where
  holds : Configuration → Subtree → Prop → Nat → Prop
  weaken : ∀ {c : Configuration} {u : Subtree} {decided decided' : Prop} {bound bound' : Nat},
    holds c u decided bound → (decided → decided') → bound ≤ bound' → holds c u decided' bound'

/-- A step carries on what is kept in mind. It holds of a node that the step makes, too. -/
structure Memory.Carries (memory : Memory) (job : ParseJob) (c d : Configuration) : Prop where
  keep : ∀ {u : Subtree} {decided : Prop} {bound : Nat}, memory.holds c u decided bound →
    (c.seen ≤ bound ∨ c.Shares d ∨ job.Passes c d) → memory.holds d u decided bound
  decide : ∀ {u : Subtree} {decided decided' : Prop} {bound bound' : Nat}, memory.holds c u decided bound →
    decided' → memory.holds d u decided' bound'
  make : ∀ {start : Nat} {pieces : List Subtree} {u : Subtree} (decided : Prop) (bound : Nat),
    job.Makes c start pieces u → c.Shares d → memory.holds d u decided bound

/-- It is kept in mind about all hidden nodes on a stack. -/
def Mindful (memory : Memory) (job : ParseJob) (c : Configuration) : Prop :=
  ∀ above e below, c.1.stack.core = above ++ e :: below →
    ∀ u, Tucked (job.tables.isHidden ·.kind) u e.subtree →
      memory.holds c (u.withField none) (e.level ≤ c.1.stack.decidedLevel ∨ e.subtree.isFragile = true)
        (ParseStack.onRecord job.tables below (above ++ [e]))

section Mindful
variable {memory : Memory} {g : Grammar} {m : Automaton} {above top below : List StackEntry}
  {f : StackEntry} {u : Subtree} {rule : Production}

theorem Assured.standing (hKnown : job.Assured g m c.1 c.2) (hCore : c.1.stack.core = top ++ below) :
    ParseStack.Standing job.tables.widths job.tables below top where
  stacked := hCore ▸ hKnown.sized.sound.stacked_core
  entries e hMem := hKnown.sized.sound.entries e
    (c.1.stack.core_suffix_entries.subset (hCore ▸ List.mem_append_left _ hMem))
  hidden := isHidden_widths
  error := (not_splices_errorSymbol hKnown.generated hKnown.proper).1

/-- Entries that do not show are below those that do. -/
theorem split_of_shown {ts fs : List StackEntry}
    (hShown : ∀ e ∈ ts, job.tables.isHidden e.subtree.kind = false)
    (hHidden : job.tables.isHidden f.subtree.kind = true) (hSplit : ts ++ fs = above ++ f :: below) :
    ∃ mid, above = ts ++ mid ∧ fs = mid ++ f :: below := by
  rcases List.append_eq_append_iff.mp hSplit with ⟨mid, hAbove, hRest⟩ | ⟨mid, hTop, hRest⟩
  · exact ⟨mid, hAbove, hRest⟩
  · cases mid with
    | nil => exact ⟨[], by simpa using hTop.symm, by simpa using hRest.symm⟩
    | cons e mid =>
        obtain ⟨rfl, -⟩ := List.cons.inj hRest
        exact absurd (hHidden.symm.trans (hShown f (by simp [hTop]))) Bool.true_eq_false.mp

/-- What holds of hidden nodes in the pieces of a reduction holds of them in its node. -/
theorem Mindful.taken (h : Mindful memory job c) (hKnown : job.Assured g m c.1 c.2) {p : Subtree}
    (hPiece : p ∈ (c.1.stack.taken rule).1) (hTucked : Tucked (job.tables.isHidden ·.kind) u p) :
    memory.holds c (u.withField none)
      ((c.1.stack.closeError.reduced job.tables rule c.seen).isFragile = true)
      (ParseStack.topStop (c.1.stack.taken rule).2 + reach (unwrapped (job.tables.isHidden ·.kind)
        [c.1.stack.closeError.reduced job.tables rule c.seen])) := by
  obtain ⟨top, hCore, hTaken⟩ := c.1.stack.exists_core_taken rule
  obtain ⟨e, hEntry, hSame⟩ : ∃ e ∈ top, e.subtree.withField none = p.withField none := by
    have hMem := hTaken ▸ List.mem_map_of_mem (f := withField none) hPiece
    simpa [ParseStack.content] using hMem
  have hPart : p = e.subtree.withField p.field := by
    rw [← withField_withField p.field none, hSame, withField_withField, withField_field]
  obtain ⟨v, hBelow, hNode⟩ := Tucked.of_withField (by simp) (hPart ▸ hTucked)
  obtain ⟨above, inner, rfl⟩ := List.mem_iff_append.mp hEntry
  have hSplit : c.1.stack.core = above ++ e :: (inner ++ (c.1.stack.taken rule).2) := by simpa using hCore
  rw [← hNode]
  refine memory.weaken (h _ _ _ hSplit v hBelow) ?_ ?_
  · have hStacked : ParseStack.Stacked (e :: (inner ++ (c.1.stack.taken rule).2)) :=
      ParseStack.stacked_of_suffix (hSplit ▸ hKnown.sized.sound.stacked_core)
    have hLevel : e.level = ParseStack.topLevel (inner ++ (c.1.stack.taken rule).2) + 1 := hStacked.1.2
    have hBase := ParseStack.topLevel_le_append hStacked.2
    rw [ParseStack.reduced_closeError]
    change _ → (decide (_ < _) || _) = true
    rw [Bool.or_eq_true, decide_eq_true_iff, List.any_eq_true]
    refine Or.imp (fun hDecided => by omega) fun hFragile => ⟨p, hPiece, ?_⟩
    rwa [hPart, isFragile_withField]
  · have hStanding : ParseStack.Standing job.tables.widths job.tables (c.1.stack.taken rule).2
        (above ++ [e] ++ inner) := by simpa using hKnown.standing hCore
    have hWhole := ParseStack.onRecord_le_reduced (t := job.tables) c.seen hTaken
    rw [List.append_cons, hStanding.onRecord_append] at hWhole
    exact (Nat.le_max_right _ _).trans hWhole

section Reduce
variable {rule : RuleId} {info : Production} {e : StackEntry}
  (hCarries : memory.Carries job c d)
  (hNode : e.subtree = c.1.stack.closeError.reduced job.tables info c.seen) (hShares : c.Shares d)
include hCarries hNode hShares

/-- The node of a reduction has just been made, and what is in it was in its pieces. -/
theorem Mindful.reduced (h : Mindful memory job c) (hKnown : job.Assured g m c.1 c.2)
    (hReduce : job.tables.action c.1.stack.state (c.2.subtree.leftmost 0).1.kind = .reduce rule)
    (hRule : job.tables.rules[rule]? = some info)
    (hTucked : Tucked (job.tables.isHidden ·.kind) u e.subtree) :
    memory.holds d (u.withField none) (e.subtree.isFragile = true)
      (ParseStack.onRecord job.tables (c.1.stack.taken info).2 [e]) := by
  have hHidden : job.tables.isHidden e.subtree.kind = true := hTucked.opened
  cases hTucked with
  | self =>
      have hMakes : job.Makes c (ParseStack.topStop (c.1.stack.taken info).2)
          (c.1.stack.taken info).1 (e.subtree.withField none) :=
        ⟨rule, info, hReduce, hRule, rfl, rfl, by rw [hNode]; rfl⟩
      exact hCarries.make _ _ hMakes hShares
  | @child _ x _ hMem hBelow =>
      have hPiece : x ∈ (c.1.stack.taken info).1 := by
        rw [hNode, ParseStack.reduced_closeError] at hHidden hMem
        rwa [children_branch, if_pos (by simpa using hHidden)] at hMem
      have hTaken := h.taken hKnown hPiece hBelow
      rw [← hNode] at hTaken
      exact hCarries.keep hTaken (.inr (.inl hShares))

/-- What is below the node of a reduction has as much on record as before: the node is known to have read as
far as its pieces are. -/
theorem Mindful.below_reduced (h : Mindful memory job c) (hKnown : job.Assured g m c.1 c.2)
    (hAfter : job.Assured g m d.1 d.2) (hCore : d.1.stack.core = e :: (c.1.stack.taken info).2)
    (hLevel : d.1.stack.decidedLevel
      = min c.1.stack.decidedLevel (ParseStack.topLevel (c.1.stack.taken info).2))
    (hBelow : (c.1.stack.taken info).2 = above ++ f :: below)
    (hTucked : Tucked (job.tables.isHidden ·.kind) u f.subtree) :
    memory.holds d (u.withField none) (f.level ≤ d.1.stack.decidedLevel ∨ f.subtree.isFragile = true)
      (ParseStack.onRecord job.tables below (e :: above ++ [f])) := by
  obtain ⟨top, hBefore, hTaken⟩ := c.1.stack.exists_core_taken info
  have hSplit : c.1.stack.core = (top ++ above) ++ f :: below := by
    rw [hBefore, hBelow, List.append_assoc]
  have hOld : ParseStack.Standing job.tables.widths job.tables below (top ++ (above ++ [f])) :=
    hKnown.standing (by simpa using hSplit)
  have hNew : ParseStack.Standing job.tables.widths job.tables below ([e] ++ (above ++ [f])) := by
    refine hAfter.standing ?_
    rw [hCore, hBelow]
    simp
  refine hCarries.keep (memory.weaken (h _ _ _ hSplit u hTucked) (Or.imp_left fun hDecided => ?_) ?_)
    (.inr (.inl hShares))
  · have hStacked : ParseStack.Stacked (c.1.stack.taken info).2 :=
      ParseStack.stacked_of_suffix (hBefore ▸ hKnown.sized.sound.stacked_core)
    rw [hLevel]
    exact Nat.le_min.mpr ⟨hDecided, ParseStack.level_le_topLevel hStacked (hBelow ▸ by simp)⟩
  · have hReduced := ParseStack.onRecord_le_reduced (t := job.tables) c.seen hTaken
    rw [← hNode, ← ParseStack.onRecord_single, hBelow, List.append_cons] at hReduced
    rw [List.append_assoc, hOld.onRecord_append]
    exact (max_le_max_left _ hReduced).trans hNew.onRecord_append.ge

end Reduce

/-- What a step carries on is kept in mind about the hidden nodes that are on the stack afterwards. -/
theorem Mindful.step (h : Mindful memory job c) (hCarries : memory.Carries job c d)
    (hKnown : job.Assured g m c.1 c.2) (hAfter : job.Assured g m d.1 d.2) (hTurn : job.Turn c d) :
    Mindful memory job d := by
  intro above f below hSplit u hTucked
  cases hTurn with
  | push e top hCore hShown hSeen hLevel =>
      obtain ⟨mid, rfl, hBefore⟩ := @split_of_shown job above below f (e :: top) c.1.stack.core hShown
        hTucked.opened (hCore.symm.trans hSplit)
      have hStanding : ParseStack.Standing job.tables.widths job.tables below
          (e :: (top ++ (mid ++ [f]))) := hAfter.standing (by simpa using hSplit)
      have hPushed := hStanding.le_onRecord_of_visible (hShown e (by simp))
      have hUpper := @ParseStack.Standing.onRecord_append job.tables job.tables.widths below (e :: top)
        (mid ++ [f]) hStanding
      rw [List.append_assoc]
      refine hCarries.keep (memory.weaken (h _ _ _ hBefore u hTucked) (by rw [hLevel]; exact id) ?_) (.inl ?_)
      · exact (Nat.le_max_left _ _).trans hUpper.ge
      · exact hSeen.trans hPushed
  | reduce e hReduce hRule hNode hCore hShares hLevel =>
      rw [hCore] at hSplit
      cases above with
      | nil =>
          obtain ⟨rfl, rfl⟩ := List.cons.inj hSplit
          exact memory.weaken (h.reduced hCarries hNode hShares hKnown hReduce hRule hTucked) .inr
            (Nat.le_refl _)
      | cons e' above =>
          obtain ⟨rfl, hBelow⟩ := List.cons.inj hSplit
          exact h.below_reduced hCarries hNode hShares hKnown hAfter hCore hLevel hBelow hTucked
  | keep hCore hNext hLevel =>
      refine hCarries.keep (memory.weaken (h _ _ _ (hCore ▸ hSplit) u hTucked) ?_ (Nat.le_refl _)) (.inr hNext)
      rw [hLevel]
      exact id
  | decide hCore hDecided =>
      obtain ⟨gone, hBefore⟩ := hCore
      rw [hSplit, ← List.append_assoc] at hBefore
      refine hCarries.decide (h _ _ _ hBefore.symm u hTucked) (.inl ?_)
      have hStacked := hAfter.sized.sound.stacked_core
      exact (ParseStack.level_le_topLevel hStacked (hSplit ▸ by simp)).trans hDecided

end Mindful

/-- Where a hidden node was made, and that its number is taken. -/
def Memory.made (language : Language) (job : ParseJob) : Memory where
  holds c u _ _ := (∃ (d : Configuration) (start : Nat) (pieces : List Subtree),
    Arises language job d.1 d.2 ∧ job.Makes d start pieces u ∧ job.Reaches d c)
      ∧ u.serial < c.1.stack.nextSerial
  weaken h _ _ := h

/-- How far was looked where a certain node was made is known, unless recovery has decided on what it is
in. -/
def Memory.seen (job : ParseJob) (d : Configuration) (node : Subtree) : Memory where
  holds c u decided bound := u = node → decided ∨ job.Kept d c bound
  weaken h hDecided hBound hSame := (h hSame).imp hDecided fun hKept => hKept.mono hBound

end ParseJob

section
variable {language : Language} {g : Grammar} {m : Automaton} {job : ParseJob} {c d e : Configuration}
  (hFaithful : language.tables.Faithful g m) (hProper : g.Proper)
include hFaithful hProper

section Made
variable {start : Nat} {pieces : List Subtree} {node : Subtree} (h : Arises language job d.1 d.2)
  (hMakes : job.Makes d start pieces node)
include h hMakes

end Made

end
end IncrementalParsing
