import IncrementalParsing.Proofs.Parser.Echoes

/-! What a parse keeps true of the clean entries on its stack: a run of them that recovery has not touched
is built again wherever its tokens come up in the same state. -/
namespace IncrementalParsing
open Subtree

namespace ParseStack
variable {t : Tables} {s : ParseStack} {es es' fs fs' : List StackEntry}

/-- Entries that count, without damage and not decided by recovery. -/
def Whole (es : List StackEntry) : Prop :=
  ∀ e ∈ es, e.extra = false ∧ e.subtree.hasError = false ∧ e.subtree.isFragile = false

theorem Whole.append (h : Whole es) (hMore : Whole fs) : Whole (es ++ fs) := fun e hMem =>
  (List.mem_append.mp hMem).elim (h e) (hMore e)

/-- The extra entries on top of an entry that counts are determined. -/
theorem eq_of_extra_append (hSame : es ++ fs = es' ++ fs') (hExtra : ∀ e ∈ es, e.extra = true)
    (hExtra' : ∀ e ∈ es', e.extra = true) (hCounts : ∀ e ∈ fs.head?, e.extra = false)
    (hCounts' : ∀ e ∈ fs'.head?, e.extra = false) : es = es' ∧ fs = fs' := by
  induction es generalizing es' with
  | nil =>
      cases es' with
      | nil => exact ⟨rfl, hSame⟩
      | cons e es' =>
          rw [List.nil_append, List.cons_append] at hSame
          have hTop := hCounts e (by simp [hSame])
          simp [hExtra' e (by simp)] at hTop
  | cons e es ih =>
      cases es' with
      | nil =>
          rw [List.nil_append, List.cons_append] at hSame
          have hTop := hCounts' e (by simp [← hSame])
          simp [hExtra e (by simp)] at hTop
      | cons e' es' =>
          obtain ⟨rfl, hRest⟩ := List.cons.inj hSame
          obtain ⟨rfl, rfl⟩ := ih hRest (fun e hMem => hExtra e (by simp [hMem]))
            fun e hMem => hExtra' e (by simp [hMem])
          exact ⟨rfl, rfl⟩

theorem steps_eq_nil : steps es = [] ↔ ∀ e ∈ es, e.extra = true := by
  simp [steps, List.filter_eq_nil_iff]

/-- Closing the open error node puts an extra entry on top, or nothing. -/
theorem exists_entries_closeError (s : ParseStack) : ∃ top, s.closeError.entries = top ++ s.entries
    ∧ (∀ e ∈ top, e.extra = true) ∧ (top = [] ↔ s.openError = #[]) := by
  unfold closeError
  split
  · rename_i hOpen
    exact ⟨[], rfl, by simp, by simpa using hOpen⟩
  · rename_i hOpen
    exact ⟨[_], rfl, by simp, by simpa using hOpen⟩

/-- What is below extra entries is there if the open error node is open as well. -/
theorem split_closeError (hSplit : s.closeError.entries = es ++ fs) (hExtra : ∀ e ∈ es, e.extra = true)
    (hCounts : ∀ e ∈ fs.head?, e.extra = false) :
    ∃ top, s.entries = top ++ fs ∧ (∀ e ∈ top, e.extra = true)
      ∧ (es = [] → top = [] ∧ s.openError = #[]) := by
  obtain ⟨above, hEntries, hAside, hOpen⟩ := s.exists_entries_closeError
  rcases List.append_eq_append_iff.mp (hEntries.symm.trans hSplit) with ⟨top, rfl, hRest⟩ | ⟨mid, rfl, hRest⟩
  · refine ⟨top, hRest, fun e hMem => hExtra e (List.mem_append_right _ hMem), fun hNone => ?_⟩
    obtain ⟨hAbove, hTop⟩ := List.append_eq_nil_iff.mp hNone
    exact ⟨hTop, hOpen.mp hAbove⟩
  · cases mid with
    | nil =>
        refine ⟨[], hRest.symm, by simp, fun hNone => ⟨rfl, hOpen.mp ?_⟩⟩
        rw [hNone, List.nil_append]
    | cons e mid =>
        have hTop := hCounts e (by simp [hRest])
        simp [hAside e (by simp)] at hTop

/-- Skipping may take an extra entry off, but none that counts. -/
theorem split_pushSkipped {pieces : List Subtree} (hSplit : (s.pushSkipped t pieces).entries = es ++ fs)
    (hExtra : ∀ e ∈ es, e.extra = true) :
    ∃ top, s.entries = top ++ fs ∧ ∀ e ∈ top, e.extra = true := by
  obtain ⟨above, hEntries⟩ := entries_pushSkipped t s pieces
  have hSteps := steps_pushSkipped t s pieces
  rw [hEntries, steps_append, List.self_eq_append_left] at hSteps
  refine ⟨above ++ es, by rw [hEntries, hSplit, List.append_assoc], fun e hMem => ?_⟩
  exact (List.mem_append.mp hMem).elim (steps_eq_nil.mp hSteps e) (hExtra e)

/-- Extra entries that are put back stand on top of all that is there. -/
theorem exists_entries_putBack (hOpen : s.openError = #[]) (trailing : List StackEntry) : ∃ top,
    let r := trailing.foldr (fun entry s => s.closeError.pushAside entry.subtree) s
    r.entries = top ++ s.entries ∧ (∀ e ∈ top, e.extra = true) ∧ (top = [] ↔ trailing = [])
      ∧ r.openError = #[] ∧ r.decidedLevel = s.decidedLevel := by
  induction trailing with
  | nil => exact ⟨[], rfl, by simp, Iff.rfl, hOpen, rfl⟩
  | cons e es ih =>
      obtain ⟨top, hEntries, hExtra, -, hClosed, hLevel⟩ := ih
      dsimp only at hEntries hClosed hLevel ⊢
      rw [List.foldr_cons, closeError_of_closed hClosed]
      refine ⟨⟨_, e.subtree, true, _, _⟩ :: top, congrArg (List.cons _) hEntries, ?_, by simp, hClosed,
        hLevel⟩
      simpa using hExtra

/-- After a reduction, its node is on top of what it did not take, with the extra entries that were above
it. -/
theorem exists_entries_reduce {info : Production} {lookaheadStop : Nat}
    (hReduced : (s.reduce t info lookaheadStop).1 = true) : ∃ trailing next,
    (s.reduce t info lookaheadStop).2.entries = trailing ++ stacked
        (s.closeError.uncovered info).entries next (s.closeError.reduced t info lookaheadStop) false
      ∧ (∀ e ∈ trailing, e.extra = true)
      ∧ (trailing = [] ↔ s.closeError.entries.takeWhile (·.extra) = [])
      ∧ t.goto (s.closeError.uncovered info).state info.lhs = some next
      ∧ (s.reduce t info lookaheadStop).2.openError = #[]
      ∧ (s.reduce t info lookaheadStop).2.decidedLevel
        = min s.decidedLevel (topLevel (s.closeError.uncovered info).entries) := by
  have hBase : (s.closeError.uncovered info).openError = #[] := openError_closeError
  rw [reduce_eq] at hReduced ⊢
  dsimp only at hReduced ⊢
  split
  · rename_i next hGoto
    let pushed := stacked (s.closeError.uncovered info).entries next
      (s.closeError.reduced t info lookaheadStop) false
    have hPushed : (s.closeError.uncovered info).push next (s.closeError.reduced t info lookaheadStop)
        = { s.closeError.uncovered info with entries := pushed } := by
      rw [push, closeError_of_closed hBase]
    rw [hPushed]
    obtain ⟨trailing, hEntries, hExtra, hNone, hOpen, hLevel⟩ :=
      @exists_entries_putBack { s.closeError.uncovered info with entries := pushed } hBase
        (s.closeError.entries.takeWhile (·.extra))
    refine ⟨trailing, next, hEntries, hExtra, hNone, hGoto, hOpen, hLevel.trans ?_⟩
    rw [← decidedLevel_closeError s]
    rfl
  · rename_i hGoto
    simp [hGoto] at hReduced

/-- A node without damage that recovery has not decided on is made of such entries. -/
theorem whole_of_reduced {info : Production} {lookaheadStop : Nat} {top : List StackEntry}
    (hTraced : ∀ e ∈ s.entries, All (Traced t) e.subtree)
    (hErrors : ∀ e ∈ s.entries, e.extra = true → e.subtree.hasError = true) (hTop : top ⊆ s.entries)
    (hSame : (takeChildren info.rhs.reverse (s.entries.dropWhile (·.extra)) []).1.map (withField none)
      = (content top).map (withField none))
    (hWhole : (s.reduced t info lookaheadStop).hasError = false)
    (hFirm : (s.reduced t info lookaheadStop).isFragile = false) :
    Whole top ∧ s.decidedLevel ≤ topLevel (s.uncovered info).entries := by
  have hFirmParts : (decide (topLevel (s.uncovered info).entries < s.decidedLevel)
      || (takeChildren info.rhs.reverse (s.entries.dropWhile (·.extra)) []).1.any isFragile) = false := hFirm
  rw [Bool.or_eq_false_iff, decide_eq_false_iff_not, Nat.not_lt, List.any_eq_false] at hFirmParts
  obtain ⟨hLevel, hFirmTaken⟩ := hFirmParts
  have hWholeTaken : ∀ u ∈ (takeChildren info.rhs.reverse (s.entries.dropWhile (·.extra)) []).1,
      u.hasError = false := by
    refine fun u hMem => Bool.eq_false_iff.mpr fun hError => ?_
    refine absurd hWhole (Bool.not_eq_false _ ▸ (hasError_branch_iff ..).mpr (.inr ?_))
    split
    · exact ⟨u, hMem, hError⟩
    · refine exists_damaged_unwrapped _ (fun v hTaken => ?_) ⟨u, hMem, hError⟩
      obtain ⟨e, hEntry, field, rfl⟩ := exists_of_mem_takeChildren hTaken
      exact (hTraced e ((List.dropWhile_suffix _).subset hEntry)).withField Traced.withField field
  refine ⟨fun e hMem => ?_, hLevel⟩
  obtain ⟨u, hTaken, hNone⟩ : ∃ u ∈ (takeChildren info.rhs.reverse (s.entries.dropWhile (·.extra)) []).1,
      u.withField none = e.subtree.withField none := by
    refine List.mem_map.mp (hSame ▸ List.mem_map_of_mem ?_)
    simpa [content] using ⟨e, hMem, rfl⟩
  have hError : e.subtree.hasError = false := by
    rw [← hasError_withField none, ← hNone, hasError_withField, hWholeTaken u hTaken]
  have hFirm : e.subtree.isFragile = false := by
    rw [← isFragile_withField _ none, ← hNone, isFragile_withField]
    simpa using hFirmTaken u hTaken
  refine ⟨Bool.eq_false_iff.mpr fun hExtra => ?_, hError, hFirm⟩
  exact absurd (hError.symm.trans (hErrors e (hTop hMem) hExtra)) Bool.false_ne_true

/-- Clean entries that a reduction has put its node on were clean before, with those that the node was made
of on top. -/
theorem split_reduce {kinds : Kinds} {info : Production} {lookaheadStop : Nat} (hSound : s.Sound kinds)
    (hHidden : ∀ k, t.isHidden k = true → kinds.spliced k = true) (hError : t.isHidden errorSymbol = false)
    (hReduced : (s.reduce t info lookaheadStop).1 = true)
    (hTraced : ∀ e ∈ s.closeError.entries, All (Traced t) e.subtree)
    (hErrors : ∀ e ∈ s.closeError.entries, e.extra = true → e.subtree.hasError = true)
    {trailing inner base : List StackEntry}
    (hSplit : (s.reduce t info lookaheadStop).2.entries = trailing ++ (inner ++ base))
    (hExtra : ∀ e ∈ trailing, e.extra = true) (hSome : inner ≠ []) (hWhole : Whole inner)
    (hLevel : (s.reduce t info lookaheadStop).2.decidedLevel ≤ topLevel base) :
    ∃ made rest, s.closeError.entries = s.closeError.entries.takeWhile (·.extra) ++ (made ++ rest ++ base)
      ∧ (s.closeError.uncovered info).entries = rest ++ base ∧ Whole (made ++ rest)
      ∧ s.decidedLevel ≤ topLevel base ∧ width (content inner) = width (content (made ++ rest))
      ∧ (trailing = [] → s.closeError.entries.takeWhile (·.extra) = []) := by
  obtain ⟨above, next, hEntries, hAside, hNone, -, -, hDecided⟩ := exists_entries_reduce hReduced
  obtain ⟨e, rest, rfl⟩ := List.exists_cons_of_ne_nil hSome
  obtain ⟨rfl, hRest⟩ := eq_of_extra_append (hEntries.symm.trans hSplit) hAside hExtra
    (by simp [stacked]) (by simpa using (hWhole e (by simp)).1)
  obtain ⟨rfl, hBelow⟩ : _ ∧ (s.closeError.uncovered info).entries = rest ++ base := List.cons.inj hRest
  obtain ⟨-, hNode, hFirm⟩ := hWhole _ List.mem_cons_self
  obtain ⟨made, hParts, hSame⟩ := s.closeError.entries_split info.rhs.reverse
  obtain ⟨hMade, hUntouched⟩ := whole_of_reduced hTraced hErrors (by rw [hParts]; simp) hSame hNode hFirm
  rw [decidedLevel_closeError] at hUntouched
  have hTotal := total_reduced (sound_closeError hSound).1 hHidden hError info lookaheadStop
  rw [width_congr hSame] at hTotal
  refine ⟨made, rest, ?_, hBelow, hMade.append fun f hMem => hWhole f (List.mem_cons_of_mem _ hMem), ?_, ?_,
    hNone.mp⟩
  · rw [List.append_assoc made, ← hBelow, ← List.append_assoc]
    exact hParts
  · rwa [hDecided, Nat.min_eq_left hUntouched] at hLevel
  · rw [content_cons, content_append, width_append, width_append, width_cons, width_nil, hTotal,
      Nat.add_zero]

/-- Entries without a width end where those below them end. -/
theorem stop_of_narrow {kinds : Kinds} (hSound : s.Sound kinds) (hOpen : s.openError = #[])
    (hEntries : s.entries = es ++ fs) (hNarrow : width (content es) = 0) : topStop fs = s.stop := by
  have hStacked : Stacked fs := stacked_of_suffix (hEntries ▸ hSound.stacked)
  rw [stop, if_pos (by simp [hOpen]), topStop_eq hSound.stacked, hEntries, content_append, width_append,
    hNarrow, topStop_eq hStacked, Nat.add_zero]

/-- A stack reaches as far as its entries do. -/
theorem le_stop_of_split {kinds : Kinds} (hSound : s.Sound kinds) (hEntries : s.entries = es ++ (es' ++ fs)) :
    topStop fs + width (content es') ≤ s.stop := by
  have hStacked : Stacked (es' ++ fs) := stacked_of_suffix (hEntries ▸ hSound.stacked)
  rw [hSound.stop_eq_width, material, hEntries, topStop_eq (stacked_of_suffix hStacked)]
  simp only [content_append, width_append]
  omega

end ParseStack

namespace ParseJob
open ParseStack
variable {language : Language} {g : Grammar} {m : Automaton} {job : ParseJob} {s : ParseState}
  {lookahead : Lookahead}

/-- Whatever clean entries are on top of others, with nothing but skipped input above, have been built by
what comes up again, without skipping anything before what is above. If they have no width, the next token
was not shifted below them. -/
def Repeatable (language : Language) (job : ParseJob) (s : ParseState) (lookahead : Lookahead) : Prop :=
  ∀ trailing inner base, s.stack.entries = trailing ++ (inner ++ base) → (∀ e ∈ trailing, e.extra = true) →
    inner ≠ [] → Whole inner → s.stack.decidedLevel ≤ topLevel base →
    if 0 < width (content inner) then
      Echoes language job base (width (content inner)) (trailing = [] → s.stack.openError ≠ #[]) s lookahead
    else trailing = [] → s.stack.openError = #[] → job.Faces s lookahead →
      ∀ state, job.tables.action (topState base) lookahead.subtree.kind ≠ .shift state

/-- Skipping leaves no entries that recovery has not decided on. -/
theorem decided_pushSkipped (t : Tables) {stack : ParseStack} (hStacked : Stacked stack.entries)
    (hDecided : topLevel stack.entries ≤ stack.decidedLevel) (pieces : List Subtree) :
    topLevel (stack.pushSkipped t pieces).entries ≤ (stack.pushSkipped t pieces).decidedLevel := by
  obtain ⟨above, hEntries⟩ := entries_pushSkipped t stack pieces
  rw [decidedLevel_pushSkipped]
  rw [hEntries] at hStacked hDecided
  exact (topLevel_le_append hStacked).trans hDecided

theorem decided_cutAt {stack : ParseStack} {kinds : Kinds} (hSound : stack.Sound kinds) (depth : Nat)
    (ts : List Subtree) :
    topLevel (job.cutAt stack depth ts).entries ≤ (job.cutAt stack depth ts).decidedLevel := by
  have hPopped := (sound_pop hSound depth).1
  unfold cutAt
  split
  · exact Nat.le_refl _
  · exact @decided_pushSkipped job.tables (stack.pop depth).2.noteDecision hPopped.stacked (Nat.le_refl _) _

/-- If recovery has just decided, there is nothing to repeat. -/
theorem repeatable_of_decided (hStacked : Stacked s.stack.entries)
    (hDecided : topLevel s.stack.entries ≤ s.stack.decidedLevel) :
    Repeatable language job s lookahead := by
  intro trailing inner base hSplit _ hSome _ hLevel
  obtain ⟨e, es, rfl⟩ := List.exists_cons_of_ne_nil hSome
  rw [hSplit] at hStacked hDecided
  have hBelow := stacked_of_suffix hStacked
  have hOver : topLevel base < topLevel (e :: es ++ base) := by
    rw [List.cons_append, topLevel_cons, hBelow.1.2]
    exact Nat.lt_succ_of_le (topLevel_le_append hBelow.2)
  have hTop := topLevel_le_append hStacked
  omega

section Steps
variable (hFaithful : language.tables.Faithful g m) (hProper : g.Proper)
  (hEnd : job.isInvalid endSymbol = false) (hOrdinary : Ordinary language job s lookahead)
include hFaithful hProper hEnd hOrdinary

theorem Repeatable.shift (h : Repeatable language job s lookahead) {state : StateId}
    (hShift : job.tables.action s.stack.state lookahead.subtree.kind = .shift state) :
    Repeatable language job
      (job.nextInput { s with stack := s.stack.push state lookahead.subtree }).2
      (job.nextInput { s with stack := s.stack.push state lookahead.subtree }).1 := by
  have hKnown := hOrdinary.assured hFaithful hProper
  have hSound := hOrdinary.sound hFaithful hProper
  have hSupply := (hOrdinary.unaided hFaithful hProper).supply
  let pushed : ParseState := { s with stack := s.stack.push state lookahead.subtree }
  have hPushed : pushed.stack.stop = s.stack.stop + lookahead.subtree.total := stop_push hSound _ _
  obtain ⟨t, nextSerial, hNext, -⟩ := @exists_nextInput job pushed hOrdinary.queue
  have hAfter := @faces_nextInput job pushed hOrdinary.queue
  rw [hNext] at hAfter
  change Repeatable language job (job.nextInput pushed).2 (job.nextInput pushed).1
  rw [hNext]
  intro trailing inner base hSplit hExtra hSome hWhole hLevel
  obtain ⟨e, inner, rfl⟩ := List.exists_cons_of_ne_nil hSome
  obtain ⟨rfl, hEntries⟩ := @eq_of_extra_append [] trailing _ _ hSplit (by simp) hExtra
    (by simp) (by simpa using (hWhole e (by simp)).1)
  obtain ⟨rfl, hRest⟩ := List.cons.inj hEntries
  obtain ⟨-, hError, -⟩ := hWhole _ List.mem_cons_self
  -- The token has been read, so it has a width, and the next one has been read as well.
  have hRead := hSupply.readFrom (hSupply.isMissing_eq hError)
  have hFaces : job.Faces s lookahead := hRead.1
  have hStop : pushed.stack.stop = s.stack.stop + width (job.inputFrom s.stack.stop 1) := by
    rw [hPushed, hFaces.total_eq]
  have hWide := hFaces.wide_of_shift hKnown hShift
  have hNextFaces := hAfter (hPushed ▸ hRead.2)
  rw [if_pos (by rw [content_cons, width_append]; exact Nat.add_pos_right _ hWide)]
  cases inner with
  | nil =>
      obtain rfl : s.stack.closeError.entries = base := hRest
      exact echoes_of_shift hFaithful hProper hEnd hOrdinary hFaces hNextFaces hStop hShift rfl
  | cons e inner =>
      have hBelow : Whole (e :: inner) := fun f hMem => hWhole f (List.mem_cons_of_mem _ hMem)
      obtain ⟨top, hHere, -, hNone⟩ := @split_closeError s.stack [] (e :: inner ++ base) hRest (by simp)
        (by simpa using (hBelow e (by simp)).1)
      obtain ⟨rfl, hOpen⟩ := hNone rfl
      have hRepeats := h [] (e :: inner) base hHere (by simp) (List.cons_ne_nil _ _) hBelow
        ((decidedLevel_closeError s.stack).symm.trans_le hLevel)
      split at hRepeats
      · refine hRepeats.follow hFaithful hProper hEnd hOrdinary
          (fun hSkips => absurd hOpen (hSkips rfl)) hNextFaces hStop
          fun {other below r} hOther hPending hTables hShape hMirrors => ?_
        obtain ⟨u, hQuiet, hNothing, hSame⟩ := follow_shift hFaithful hProper hOther hPending hTables hShape
          hMirrors.closeError hShift
        exact ⟨u, hQuiet _, hNothing, hSame.withSerial nextSerial u.1.stack.nextSerial⟩
      · rename_i hNarrow
        exact echoes_of_blocked hFaithful hProper hEnd hOrdinary hFaces hNextFaces hStop
          (stop_of_narrow hSound hOpen hHere (Nat.eq_zero_of_not_pos hNarrow)) (hRepeats rfl hOpen hFaces)

theorem Repeatable.skip (h : Repeatable language job s lookahead)
    (hError : job.tables.action s.stack.state lookahead.subtree.kind = .error)
    (hDecision : job.decision s lookahead.subtree = .skipInvalid) :
    Repeatable language job (job.nextInput (job.skip s [lookahead.subtree])).2
      (job.nextInput (job.skip s [lookahead.subtree])).1 := by
  have hSound := hOrdinary.sound hFaithful hProper
  have hUnaided := hOrdinary.unaided hFaithful hProper
  have hToken : ∀ u ∈ [lookahead.subtree], All (Measured job.tables.widths) u := by
    simpa using measured_widths_of_isLeaf hUnaided.isLeaf
  have hSkipped : (job.skip s [lookahead.subtree]).stack.stop
      = s.stack.stop + lookahead.subtree.total :=
    stop_pushSkipped job.tables hSound hToken
  obtain ⟨t, nextSerial, hNext, -⟩ := @exists_nextInput job (job.skip s [lookahead.subtree]) hOrdinary.queue
  have hAfter := @faces_nextInput job (job.skip s [lookahead.subtree]) hOrdinary.queue
  rw [hNext] at hAfter ⊢
  intro trailing inner base hSplit hExtra hSome hWhole hLevel
  have hOpened : (job.skip s [lookahead.subtree]).stack.openError ≠ #[] :=
    openError_pushSkipped job.tables s.stack (List.cons_ne_nil _ _)
  split
  · rename_i hWide
    obtain ⟨top, hHere, hAside⟩ := @split_pushSkipped _ s.stack _ _ [lookahead.subtree] hSplit hExtra
    have hEchoes := h top inner base hHere hAside hSome hWhole
      ((decidedLevel_pushSkipped job.tables s.stack [lookahead.subtree]).symm.trans_le hLevel)
    rw [if_pos hWide] at hEchoes
    have hRead := hOrdinary.readFrom hFaithful hProper hEchoes.1
    have hAbove : s.stack.entries ≠ base := by
      intro hSame
      rw [hSame, ← List.append_assoc, List.self_eq_append_left, List.append_eq_nil_iff] at hHere
      exact hSome hHere.2
    refine hEchoes.follow hFaithful hProper hEnd hOrdinary (fun _ => ⟨fun _ => hOpened, Nat.le_refl _⟩)
      (hAfter (hSkipped ▸ hRead.2)) (hSkipped.trans (by rw [hEchoes.1.total_eq]))
      fun {other below r} hOther hPending hTables hShape hMirrors => ?_
    obtain ⟨w, hStop, hStop'⟩ := hMirrors.exists_stop hSound (hOther.sound hFaithful hProper)
    have hOver := le_stop_of_split hSound hHere
    obtain ⟨u, hQuiet, hNothing, hSame⟩ := @follow_skip _ _ _ job other lookahead _ _ r hFaithful hProper
      hOther hPending hTables hShape s hMirrors hAbove hError hDecision
      (fun position => (trailing = [] → _) ∧ topStop below + width (content inner) ≤ position)
      ⟨fun _ => hOpened, by omega⟩
    exact ⟨u, hQuiet, hNothing, hSame.withSerial nextSerial u.1.stack.nextSerial⟩
  · exact fun _ hNone => absurd hNone hOpened

omit hEnd in
/-- A reduction leaves all the entries that count but those of its rule. -/
theorem length_steps_uncovered {rule : RuleId} {info : Production}
    (hReduce : job.tables.action s.stack.state lookahead.subtree.kind = .reduce rule)
    (hRule : job.tables.rules[rule]? = some info) :
    (steps (s.stack.closeError.uncovered info).entries).length + info.rhs.length
      = (steps s.stack.entries).length := by
  have hKnown := hOrdinary.assured hFaithful hProper
  have hClosed := hKnown.legal.closeError hKnown.lasting
  rw [← state_closeError] at hReduce
  have hTaken := hClosed.taken hKnown.generated hKnown.proper hKnown.lasting hReduce hRule
  obtain ⟨info', -, hFound, hBound, -⟩ :=
    hClosed.leads_on hKnown.faithful hKnown.proper hKnown.lasting hReduce
  obtain rfl := Option.some.inj (hRule.symm.trans hFound)
  rw [hTaken.steps, List.length_drop, Nat.sub_add_cancel hBound, steps_closeError]

theorem Repeatable.reduce (h : Repeatable language job s lookahead)
    (hTraced : ∀ e ∈ s.stack.closeError.entries, All (Traced job.tables) e.subtree)
    (hErrors : ∀ e ∈ s.stack.closeError.entries, e.extra = true → e.subtree.hasError = true)
    {rule : RuleId} {info : Production}
    (hReduce : job.tables.action s.stack.state lookahead.subtree.kind = .reduce rule)
    (hRule : job.tables.rules[rule]? = some info) (lookaheadStop : Nat) :
    Repeatable language job
      { s with stack := (s.stack.reduce job.tables info lookaheadStop).2 } lookahead := by
  have hKnown := hOrdinary.assured hFaithful hProper
  have hSound := hOrdinary.sound hFaithful hProper
  obtain ⟨info', hFound, -, -, hReduced⟩ := hKnown.reducible.stack _ _ hReduce
  obtain rfl := Option.some.inj (hRule.symm.trans hFound)
  have hStop : (s.stack.reduce job.tables info lookaheadStop).2.stop = s.stack.stop :=
    hKnown.sized.stop_reduce hKnown.generated hKnown.proper info lookaheadStop
  have hSteps := length_steps_uncovered hFaithful hProper hOrdinary hReduce hRule
  intro trailing inner base hSplit hExtra hSome hWhole hLevel
  obtain ⟨made, rest, hParts, hBelow, hWholeBefore, hLevelBefore, hWidth, hNone⟩ := split_reduce hSound
    isHidden_widths (not_splices_errorSymbol hKnown.generated hKnown.proper).1 (hReduced lookaheadStop)
    hTraced hErrors hSplit hExtra hSome hWhole hLevel
  rw [hBelow, steps_append, List.length_append] at hSteps
  rw [hWidth]
  generalize made ++ rest = before at hParts hWholeBefore
  cases before with
  | nil =>
      rw [if_neg (by simp)]
      intro hTrailing _ _ state
      rw [hNone hTrailing, List.nil_append, List.nil_append] at hParts
      have hState : topState s.stack.closeError.entries = s.stack.state := state_closeError
      rw [← hParts, hState, hReduce]
      exact Action.noConfusion
  | cons e before =>
      have hTop := (hWholeBefore e (by simp)).1
      obtain ⟨above, hHere, hAside, hNothing⟩ := split_closeError hParts
        (fun f hMem => List.mem_takeWhile_imp hMem) (by simpa using hTop)
      have hRepeats := h above (e :: before) base hHere hAside (List.cons_ne_nil _ _) hWholeBefore
        hLevelBefore
      have hCount : (steps base).length < (steps s.stack.entries).length := by
        rw [hHere, steps_append, List.cons_append, steps_cons_of_not_extra hTop, steps_append,
          List.length_append, List.length_cons, List.length_append]
        omega
      split at hRepeats
      · rename_i hWide
        rw [if_pos hWide]
        refine @Echoes.follow _ _ _ job s lookahead base hFaithful hProper hEnd hOrdinary _ lookahead _ _ _ _
          0 hRepeats (fun hSkips => ⟨fun hTrailing => ?_, Nat.le_refl _⟩) ?_ hStop
          fun {other below r} hOther hPending hTables hShape hMirrors => ?_
        · obtain ⟨hAbove, hOpen⟩ := hNothing (hNone hTrailing)
          exact absurd hOpen (hSkips hAbove)
        · obtain ⟨serial, hRead⟩ := hRepeats.1
          exact ⟨serial, hStop.symm ▸ hRead⟩
        · obtain ⟨u, hQuiet, hNothing, hSame⟩ := follow_reduce hFaithful hProper hOther hPending hTables
            hShape hKnown hMirrors hReduce hRule hCount (by omega) lookaheadStop
          exact ⟨u, hQuiet _, hNothing, hSame⟩
      · rename_i hNarrow
        rw [if_neg hNarrow]
        intro hTrailing _ hFaces
        obtain ⟨rfl, hOpen⟩ := hNothing (hNone hTrailing)
        obtain ⟨serial, hRead⟩ := hFaces
        exact hRepeats rfl hOpen ⟨serial, hStop ▸ hRead⟩

end Steps

/-- The configurations that a parse comes to from one. -/
def Reaches (job : ParseJob) : ParseState × Lookahead → ParseState × Lookahead → Prop :=
  Relation.ReflTransGen fun a b => job.step a.1 a.2 = .next b.2 b.1

section Run
variable (hFaithful : language.tables.Faithful g m) (hProper : g.Proper)
  (hTokens : ∀ symbol, language.tables.isErrorToken symbol = true →
    errorSymbol < symbol ∧ language.tables.isTerminal symbol = true)
  (hOrdinary : Ordinary language job s lookahead)
include hFaithful hProper hTokens hOrdinary

theorem Ordinary.traced : ∀ e ∈ s.stack.closeError.entries, All (Traced job.tables) e.subtree := by
  have hTables := hOrdinary.arises.tables
  have hUpheld := @upheld_traced job g m (hTables.symm ▸ hFaithful) hProper (hTables.symm ▸ hTokens)
  have hLawful := hOrdinary.arises.lawful hFaithful hProper hUpheld hOrdinary.queue
  exact fun e hMem => ((hLawful.stack.closeError hUpheld.lasting).entries e hMem).nodes.imp
    fun _ hNode => hNode.2

/-- Extra entries are damage. -/
theorem Ordinary.damaged_of_extra :
    ∀ e ∈ s.stack.closeError.entries, e.extra = true → e.subtree.hasError = true := by
  have hTables := hOrdinary.arises.tables
  have hUpheld := @upheld_flagged job g m (hTables.symm ▸ hFaithful) hProper (hTables.symm ▸ hTokens)
  have hLawful := hOrdinary.arises.lawful hFaithful hProper hUpheld hOrdinary.queue
  have hClosed := hLawful.stack.closeError hUpheld.lasting
  intro e hMem hExtra
  have hKind := hClosed.aligned.kind_of_extra e hMem hExtra
  have hEntry := hClosed.entries e hMem
  exact hEntry.nodes.self.2.error hKind (hEntry.filled hKind)

omit hFaithful hProper in
theorem Ordinary.isInvalid_end : job.isInvalid endSymbol = false := by
  rw [isInvalid, hOrdinary.arises.tables]
  cases hIs : language.tables.isErrorToken endSymbol with
  | false => rfl
  | true => exact absurd (hTokens _ hIs).1 (by decide)

/-- Every step of a parse keeps what is clean on its stack repeatable. -/
theorem Repeatable.step {r : ParseState} {next : Lookahead} (h : Repeatable language job s lookahead)
    (hStep : job.step s lookahead = .next next r) : Repeatable language job r next := by
  have hEnd := hOrdinary.isInvalid_end hTokens
  have hSound := hOrdinary.sound hFaithful hProper
  have hAfter := (hOrdinary.step hFaithful hProper hStep).sound hFaithful hProper
  have hEffect := step_effect (hOrdinary.assured hFaithful hProper) (hOrdinary.unaided hFaithful hProper)
  rw [hStep] at hEffect
  generalize hOut : ParseStep.next next r = out at hEffect
  cases hEffect with
  | shift hShift =>
      obtain ⟨rfl, rfl⟩ := ParseStep.next.inj hOut
      exact h.shift hFaithful hProper hEnd hOrdinary hShift
  | reduce lookaheadStop hReduce hRule =>
      obtain ⟨rfl, rfl⟩ := ParseStep.next.inj hOut
      exact h.reduce hFaithful hProper hEnd hOrdinary (hOrdinary.traced hFaithful hProper hTokens)
        (hOrdinary.damaged_of_extra hFaithful hProper hTokens) hReduce hRule lookaheadStop
  | skip hError hDecision =>
      obtain ⟨rfl, rfl⟩ := ParseStep.next.inj hOut
      exact h.skip hFaithful hProper hEnd hOrdinary hError hDecision
  | overflow hHigh => exact absurd hOrdinary.roomy.here (Nat.not_lt.mpr hHigh)
  | insert hInput hInserted =>
      obtain ⟨rfl, rfl⟩ := ParseStep.next.inj hOut
      exact repeatable_of_decided hAfter.stacked (Nat.le_refl _)
  | cut depth nextSerial hNew hInput =>
      obtain ⟨rfl, rfl⟩ := ParseStep.next.inj hOut
      exact repeatable_of_decided hAfter.stacked (decided_cutAt (hSound.withSerial nextSerial) _ _)
  | @pass new nextSerial hNew =>
      obtain ⟨rfl, rfl⟩ := ParseStep.next.inj hOut
      let noted : ParseState := { s with
        stack := ({ s.stack with nextSerial } : ParseStack).noteDecision
        pending := s.pending ++ new }
      obtain ⟨t, serial, hNext, -⟩ :=
        @exists_nextInput job (job.skip noted [lookahead.subtree]) hOrdinary.queue
      refine repeatable_of_decided hAfter.stacked ?_
      rw [hNext]
      exact @decided_pushSkipped job.tables noted.stack hSound.stacked (Nat.le_refl _) [lookahead.subtree]
  | accept => simp at hOut
  | giveUp => simp at hOut

/-- What is clean on the stack stays repeatable along a run. -/
theorem Repeatable.reaches {r : ParseState × Lookahead} (h : Repeatable language job s lookahead)
    (hRun : job.Reaches (s, lookahead) r) :
    Ordinary language job r.1 r.2 ∧ Repeatable language job r.1 r.2 := by
  induction hRun with
  | refl => exact ⟨hOrdinary, h⟩
  | tail _ hStep ih =>
      exact ⟨ih.1.step hFaithful hProper hStep, ih.2.step hFaithful hProper hTokens ih.1 hStep⟩

end Run
end ParseJob
end IncrementalParsing
