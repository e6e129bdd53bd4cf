import IncrementalParsing.Parser.Stack
import IncrementalParsing.Proofs.Subtree.Leaves
import Mathlib.Data.List.TakeDrop

/-! The text on the stack. Every operation of the stack keeps the tokens that lie on it, in their
order, and the places where its entries end. -/
namespace IncrementalParsing

/-- The kinds whose nodes are replaced by their children somewhere: hidden ones, and the start
symbol in the root. -/
def Tables.splices (t : Tables) (kind : SymbolId) : Bool := t.isHidden kind || kind == t.start

/-- What the kinds of the tables mean for a tree. -/
def Tables.kinds (t : Tables) : Subtree.Kinds where
  spliced := t.splices
  invalid kind := kind == errorSymbol || t.isErrorToken kind

namespace ParseStack
open Subtree

/-- Without entries the parse is in the start state. -/
@[simp] theorem topState_nil : topState [] = 0 := rfl

@[simp] theorem topState_cons (e : StackEntry) (es : List StackEntry) :
    topState (e :: es) = e.state := rfl

@[simp] theorem topStop_nil : topStop [] = 0 := rfl

@[simp] theorem topStop_cons (e : StackEntry) (es : List StackEntry) :
    topStop (e :: es) = e.stop := rfl

@[simp] theorem topLevel_nil : topLevel [] = 0 := rfl

@[simp] theorem topLevel_cons (e : StackEntry) (es : List StackEntry) :
    topLevel (e :: es) = e.level := rfl

/-- The subtrees of some entries in the order of the text. -/
def content (entries : List StackEntry) : List Subtree := (entries.map (·.subtree)).reverse

@[simp] theorem content_nil : content [] = [] := rfl

/-- The top entry is the last one in the text. -/
@[simp] theorem content_cons (entry : StackEntry) (entries : List StackEntry) :
    content (entry :: entries) = content entries ++ [entry.subtree] := by
  simp [content]

/-- Entries further up are further on in the text. -/
theorem content_append (es fs : List StackEntry) : content (es ++ fs) = content fs ++ content es := by
  simp [content]

/-- The tokens on the stack. -/
def leaves (s : ParseStack) : List Token :=
  leavesAll (content s.entries) ++ leavesAll s.openError.toList

/-- Every entry ends where its subtree ends, and knows how many entries there are up to it. -/
def Stacked : List StackEntry → Prop
  | [] => True
  | entry :: entries =>
      (entry.stop = topStop entries + entry.subtree.total ∧ entry.level = topLevel entries + 1)
        ∧ Stacked entries

/-- What is under some entries is a stack as well. -/
theorem stacked_of_suffix {es fs : List StackEntry} (h : Stacked (es ++ fs)) : Stacked fs := by
  induction es with
  | nil => exact h
  | cons e es ih => exact ih h.2

/-- The top entry ends where the subtrees on the stack do, side by side. -/
theorem topStop_eq {entries : List StackEntry} (h : Stacked entries) :
    topStop entries = width (content entries) := by
  induction entries with
  | nil => rfl
  | cons e es ih => simp [h.1.1, ih h.2]

/-- What holds of the subtrees on the stack: their widths add up, and nothing on the way to a token
is lost when nodes are replaced by their children. -/
structure Sound (kinds : Kinds) (s : ParseStack) : Prop where
  stacked : Stacked s.entries
  openStop : s.openError.isEmpty = false →
    s.openStop = topStop s.entries + width s.openError.toList
  entries : ∀ e ∈ s.entries, All (Measured kinds) e.subtree ∧ Plain kinds e.subtree
  opened : ∀ t ∈ s.openError.toList, All (Measured kinds) t

section Sound
variable {kinds : Kinds} {s : ParseStack}

/-- The stack of a parse that has not begun is sound. -/
theorem sound_empty (nextSerial : Nat) : Sound kinds (empty nextSerial) where
  stacked := trivial
  openStop := by simp [empty]
  entries := by simp [empty]
  opened := by simp [empty]

theorem Sound.content_measured (h : s.Sound kinds) :
    ∀ t ∈ content s.entries, All (Measured kinds) t := by
  intro t hMem
  obtain ⟨e, hEntry, rfl⟩ : ∃ e ∈ s.entries, e.subtree = t := by simpa [content] using hMem
  exact (h.entries e hEntry).1

/-- The next token starts where the tokens on the stack end. -/
theorem Sound.stop_eq (h : s.Sound kinds) : s.stop = (s.leaves.map Token.width).sum := by
  rw [leaves, List.map_append, List.sum_append, width_leavesAll _ h.content_measured,
    width_leavesAll _ h.opened, ← topStop_eq h.stacked, stop]
  cases hOpen : s.openError.isEmpty with
  | true =>
      rw [Array.isEmpty_iff.mp hOpen]
      simp
  | false => simp [h.openStop hOpen]

/-- Without an open error node only the entries matter. -/
theorem Sound.of_entries {es : List StackEntry} (hStacked : Stacked es)
    (hEntries : ∀ e ∈ es, All (Measured kinds) e.subtree ∧ Plain kinds e.subtree)
    (hEntriesEq : s.entries = es) (hOpen : s.openError = #[]) : s.Sound kinds where
  stacked := hEntriesEq ▸ hStacked
  openStop := by simp [hOpen]
  entries := hEntriesEq ▸ hEntries
  opened := by simp [hOpen]

/-- An extra subtree that is put on top adds its tokens. -/
theorem sound_pushAside (h : s.Sound kinds) (hOpen : s.openError = #[]) {t : Subtree}
    (hMeasured : All (Measured kinds) t) (hPlain : Plain kinds t) :
    (s.pushAside t).Sound kinds ∧ (s.pushAside t).leaves = s.leaves ++ t.leaves
      ∧ (s.pushAside t).openError = #[] := by
  refine ⟨Sound.of_entries ?_ ?_ rfl hOpen, ?_, hOpen⟩
  · exact ⟨⟨rfl, rfl⟩, h.stacked⟩
  · intro e hMem
    rcases List.mem_cons.mp hMem with rfl | hMem
    · exact ⟨hMeasured, hPlain⟩
    · exact h.entries e hMem
  · simp [leaves, pushAside, stacked, hOpen]

/-- Closing the open error node keeps all tokens, and none is open afterwards. -/
theorem sound_closeError (h : s.Sound kinds) :
    s.closeError.Sound kinds ∧ s.closeError.leaves = s.leaves
      ∧ s.closeError.openError = #[] := by
  unfold closeError
  split
  · rename_i hEmpty
    exact ⟨h, rfl, Array.isEmpty_iff.mp hEmpty⟩
  · let bare : ParseStack := { s with openError := #[], nextSerial := s.nextSerial + 1 }
    have hBare : bare.Sound kinds := .of_entries h.stacked h.entries rfl rfl
    have hNode : All (Measured kinds)
        (branch s.nextSerial errorSymbol (some s.state) s.openError.toList 0 false) :=
      all_measured_branch _ _ _ _ _ _ (by simp) h.opened
    obtain ⟨hSound, hLeaves, hOpen⟩ := sound_pushAside hBare rfl hNode
      (plain_branch _ _ _ _ _ _)
    refine ⟨hSound, ?_, hOpen⟩
    rw [hLeaves, leaves_branch]
    simp [bare, leaves]

theorem openError_closeError : s.closeError.openError = #[] := by
  unfold closeError
  split
  · rename_i hEmpty
    exact Array.isEmpty_iff.mp hEmpty
  · rfl

/-- Where no error node is open, closing changes nothing. -/
theorem closeError_of_closed (hOpen : s.openError = #[]) : s.closeError = s := by
  rw [closeError, if_pos (by simp [hOpen])]

theorem stop_closeError (h : s.Sound kinds) : s.closeError.stop = s.stop := by
  rw [(sound_closeError h).1.stop_eq, (sound_closeError h).2.1, h.stop_eq]

/-- A subtree that is pushed adds its tokens, and closes the error node below. -/
theorem sound_push (h : s.Sound kinds) (state : StateId) {t : Subtree}
    (hMeasured : All (Measured kinds) t) (hPlain : Plain kinds t) :
    (s.push state t).Sound kinds ∧ (s.push state t).leaves = s.leaves ++ t.leaves
      ∧ (s.push state t).openError = #[] := by
  obtain ⟨hClosed, hLeaves, hOpen⟩ := sound_closeError h
  refine ⟨.of_entries ?_ ?_ rfl hOpen, ?_, hOpen⟩
  · exact ⟨⟨rfl, rfl⟩, hClosed.stacked⟩
  · intro e hMem
    rcases List.mem_cons.mp hMem with rfl | hMem
    · exact ⟨hMeasured, hPlain⟩
    · exact hClosed.entries e hMem
  · rw [← hLeaves]
    simp [leaves, push, stacked, hOpen]

theorem sound_noteDecision (h : s.Sound kinds) : s.noteDecision.Sound kinds :=
  ⟨h.stacked, h.openStop, h.entries, h.opened⟩

@[simp] theorem leaves_noteDecision : s.noteDecision.leaves = s.leaves := rfl

/-- The nodes that dissolve in an error node can be taken apart without loss. -/
theorem opener_dissolves (tables : Tables) : Opener kinds (dissolves tables) where
  field := by simp [dissolves]
  child := by
    intro t _ _ c _ hOpens hNone
    simp [dissolves, isLeaf, hNone] at hOpens

/-- Skipped subtrees become children of the open error node with all their tokens. -/
theorem sound_addToError (tables : Tables) (h : s.Sound kinds)
    (hStop : s.openStop = topStop s.entries + width s.openError.toList) {pieces : List Subtree}
    (hPieces : ∀ t ∈ pieces, All (Measured kinds) t) :
    (addToError tables s pieces).Sound kinds
      ∧ (addToError tables s pieces).leaves = s.leaves ++ leavesAll pieces
      ∧ (addToError tables s pieces).openStop
          = topStop s.entries + width (addToError tables s pieces).openError.toList := by
  have hConserves := unwrapped_conserves (opener_dissolves tables) pieces
    (by
      intro t _ hOpens hNone
      simp [dissolves, isLeaf, hNone] at hOpens) hPieces
  have hFound : ((unwrap (dissolves tables) pieces #[]).map (·.withField none)).toList
      = (unwrapped (dissolves tables) pieces).map fun t => t.withField none := by
    simp [unwrapped]
  have hWidth : (addToError tables s pieces).openStop
      = topStop s.entries + width (addToError tables s pieces).openError.toList := by
    simp only [addToError, Array.toList_append, width_append, hFound]
    omega
  refine ⟨⟨h.stacked, fun _ => hWidth, h.entries, ?_⟩, ?_, hWidth⟩
  · intro t hMem
    simp only [addToError, Array.toList_append, hFound, List.mem_append, List.mem_map] at hMem
    rcases hMem with hMem | ⟨u, hMem, rfl⟩
    · exact h.opened t hMem
    · exact (forall_all_unwrapped Measured.withField pieces hPieces u hMem).withField
        Measured.withField _
  · simp only [leaves, addToError, Array.toList_append, hFound, leavesAll_append,
      leavesAll_map_withField (fun _ => none), hConserves.1, List.append_assoc]

/-- Skipped input stays on the stack. -/
theorem sound_pushSkipped (tables : Tables) (h : s.Sound kinds) {pieces : List Subtree}
    (hPieces : ∀ t ∈ pieces, All (Measured kinds) t) :
    (s.pushSkipped tables pieces).Sound kinds
      ∧ (s.pushSkipped tables pieces).leaves = s.leaves ++ leavesAll pieces := by
  unfold pushSkipped
  cases hOpen : s.openError.isEmpty with
  | false =>
      obtain ⟨hSound, hLeaves, -⟩ := sound_addToError tables h (h.openStop hOpen) hPieces
      exact ⟨hSound, hLeaves⟩
  | true =>
      have hNone : s.openError = #[] := Array.isEmpty_iff.mp hOpen
      simp only [if_true]
      split
      · rename_i entry entries hEntries
        have hStacked : Stacked (entry :: entries) := hEntries ▸ h.stacked
        have hAll : ∀ e ∈ entry :: entries, All (Measured kinds) e.subtree ∧ Plain kinds e.subtree :=
          hEntries ▸ h.entries
        split
        · let lower : ParseStack := { s with entries, openStop := topStop entries }
          have hLower : lower.Sound kinds :=
            .of_entries hStacked.2 (fun e hMem => hAll e (by simp [hMem])) rfl hNone
          have hPiece : ∀ t ∈ [entry.subtree], All (Measured kinds) t := by
            simp [(hAll entry (by simp)).1]
          obtain ⟨hSound, hLeaves, hStop⟩ := sound_addToError tables hLower
            (by simp [lower, hNone]) hPiece
          obtain ⟨hSound', hLeaves', -⟩ := sound_addToError tables hSound hStop hPieces
          refine ⟨hSound', hLeaves'.trans ?_⟩
          rw [hLeaves]
          simp [lower, leaves, hEntries, hNone]
        · let raised : ParseStack := { s with openStop := entry.stop }
          have hRaised : raised.Sound kinds := .of_entries h.stacked h.entries rfl hNone
          obtain ⟨hSound, hLeaves, -⟩ := sound_addToError tables hRaised
            (by simp [raised, hNone, hEntries]) hPieces
          exact ⟨hSound, hLeaves⟩
      · rename_i hEntries
        let ground : ParseStack := { s with openStop := 0 }
        have hGround : ground.Sound kinds := .of_entries h.stacked h.entries rfl hNone
        obtain ⟨hSound, hLeaves, -⟩ := sound_addToError tables hGround
          (by simp [ground, hNone, hEntries]) hPieces
        exact ⟨hSound, hLeaves⟩

/-- Popping takes entries off the top, and gives their subtrees in order. -/
theorem popEntries_spec (depth : Nat) (es : List StackEntry) (popped : List Subtree) :
    ∃ top, es = top ++ (popEntries depth es popped).2
      ∧ (popEntries depth es popped).1 = content top ++ popped := by
  induction es generalizing depth popped with
  | nil => exact ⟨[], by cases depth <;> simp [popEntries], by cases depth <;> simp [popEntries]⟩
  | cons e es ih =>
      cases depth with
      | zero => exact ⟨[], rfl, rfl⟩
      | succ depth =>
          rw [popEntries]
          obtain ⟨top, hSplit, hPopped⟩ :=
            ih (if e.extra then depth + 1 else depth) (e.subtree :: popped)
          exact ⟨e :: top, by rw [List.cons_append, ← hSplit], by rw [hPopped]; simp⟩

/-- The tokens of entries that are taken off the top are the last ones. -/
theorem sound_withEntries (h : s.Sound kinds) (hOpen : s.openError = #[])
    {top es : List StackEntry} (hSplit : s.entries = top ++ es) :
    (s.withEntries es).Sound kinds
      ∧ s.leaves = (s.withEntries es).leaves ++ leavesAll (content top)
      ∧ (∀ t ∈ content top, All (Measured kinds) t ∧ Plain kinds t) := by
  refine ⟨.of_entries ?_ ?_ rfl hOpen, ?_, ?_⟩
  · exact stacked_of_suffix (hSplit ▸ h.stacked)
  · exact fun e hMem => h.entries e (hSplit ▸ List.mem_append_right top hMem)
  · simp [leaves, withEntries, hOpen, hSplit, content_append]
  · intro t hMem
    obtain ⟨e, hEntry, rfl⟩ : ∃ e ∈ top, e.subtree = t := by simpa [content] using hMem
    exact h.entries e (by simp [hSplit, hEntry])

/-- Popping gives the tokens that the stack loses. -/
theorem sound_pop (h : s.Sound kinds) (depth : Nat) :
    (s.pop depth).2.Sound kinds
      ∧ s.leaves = (s.pop depth).2.leaves ++ leavesAll (s.pop depth).1
      ∧ (∀ t ∈ (s.pop depth).1, All (Measured kinds) t)
      ∧ (s.pop depth).2.openError = #[] := by
  obtain ⟨hClosed, hLeaves, hOpen⟩ := sound_closeError h
  obtain ⟨top, hSplit, hPopped⟩ := popEntries_spec depth s.closeError.entries []
  obtain ⟨hSound, hRest, hTop⟩ := sound_withEntries hClosed hOpen hSplit
  have hPieces : (s.pop depth).1 = content top := by simpa [pop] using hPopped
  refine ⟨hSound, ?_, ?_, hOpen⟩
  · rw [hPieces, ← hLeaves]
    exact hRest
  · intro t hMem
    exact (hTop t (hPieces ▸ hMem)).1

/-- Popping everything gives all tokens. -/
theorem sound_popAll (h : s.Sound kinds) :
    s.popAll.2.Sound kinds ∧ s.leaves = leavesAll s.popAll.1
      ∧ (∀ t ∈ s.popAll.1, All (Measured kinds) t) ∧ s.popAll.2.leaves = [] := by
  obtain ⟨hClosed, hLeaves, hOpen⟩ := sound_closeError h
  obtain ⟨hSound, hRest, hTop⟩ :=
    sound_withEntries hClosed hOpen (List.append_nil s.closeError.entries).symm
  have hNone : (s.closeError.withEntries []).leaves = [] := by
    simp [leaves, withEntries, hOpen]
  refine ⟨hSound, ?_, fun t hMem => (hTop t hMem).1, hNone⟩
  rw [← hLeaves, hRest, hNone]
  rfl

/-- A reduction takes its children off the top in order, with the extra entries between them, and
changes the parts they play. -/
theorem takeChildren_spec (slots : List Slot) (es : List StackEntry) (taken : List Subtree) :
    ∃ top, es = top ++ (takeChildren slots es taken).2
      ∧ (takeChildren slots es taken).1.map (withField none)
          = (content top ++ taken).map (withField none) := by
  induction es generalizing slots taken with
  | nil => exact ⟨[], by cases slots <;> simp [takeChildren], by cases slots <;> simp [takeChildren]⟩
  | cons e es ih =>
      cases slots with
      | nil => exact ⟨[], rfl, rfl⟩
      | cons slot slots =>
          rw [takeChildren]
          split
          · obtain ⟨top, hSplit, hTaken⟩ := ih (slot :: slots) (e.subtree.withField none :: taken)
            exact ⟨e :: top, by rw [List.cons_append, ← hSplit], by rw [hTaken]; simp⟩
          · obtain ⟨top, hSplit, hTaken⟩ := ih slots (e.subtree.withField slot.field :: taken)
            exact ⟨e :: top, by rw [List.cons_append, ← hSplit], by rw [hTaken]; simp⟩

/-- What a reduction takes off the top are subtrees of entries. -/
theorem exists_of_mem_takeChildren {slots : List Slot} {es : List StackEntry} {u : Subtree}
    (hMem : u ∈ (takeChildren slots es []).1) : ∃ e ∈ es, ∃ field, u = e.subtree.withField field := by
  obtain ⟨top, hSplit, hTaken⟩ := takeChildren_spec slots es []
  have hFound := hTaken ▸ List.mem_map_of_mem (f := withField none) hMem
  obtain ⟨v, hContent, hSame⟩ := List.mem_map.mp hFound
  obtain ⟨e, hEntry, rfl⟩ : ∃ e ∈ top, e.subtree = v := by simpa [content] using hContent
  refine ⟨e, hSplit ▸ List.mem_append_left _ hEntry, u.field, ?_⟩
  rw [← withField_withField u.field none, hSame, withField_withField, withField_field]

/-- Extra entries on top of a reduction are put back in their order. -/
theorem sound_putBack (h : s.Sound kinds) (trailing : List StackEntry)
    (hTrailing : ∀ e ∈ trailing, All (Measured kinds) e.subtree ∧ Plain kinds e.subtree) :
    (trailing.foldr (fun entry s => s.closeError.pushAside entry.subtree) s).Sound kinds
      ∧ (trailing.foldr (fun entry s => s.closeError.pushAside entry.subtree) s).leaves
          = s.leaves ++ leavesAll (content trailing) := by
  induction trailing with
  | nil => simp [h]
  | cons e es ih =>
      obtain ⟨hSound, hLeaves⟩ := ih fun f hMem => hTrailing f (by simp [hMem])
      obtain ⟨hClosed, hSame, hOpen⟩ := sound_closeError hSound
      obtain ⟨hTop, hBottom⟩ := hTrailing e (by simp)
      obtain ⟨hAside, hAll, -⟩ := sound_pushAside hClosed hOpen hTop hBottom
      refine ⟨hAside, ?_⟩
      rw [List.foldr_cons, hAll, hSame, hLeaves]
      simp

variable {tables : Tables}

/-- The node that a reduction makes. -/
def reduced (tables : Tables) (s : ParseStack) (rule : Production) (lookaheadStop : Nat) : Subtree :=
  let entries := s.entries.dropWhile (·.extra)
  let taken := takeChildren rule.rhs.reverse entries []
  let children :=
    if tables.isHidden rule.lhs then taken.1
    else unwrapped (tables.isHidden ·.kind) taken.1
  branch s.nextSerial rule.lhs (some (topState taken.2)) children
    (lookaheadStop - topStop taken.2)
    (topLevel taken.2 < s.decidedLevel || taken.1.any Subtree.isFragile)

/-- The stack under the node that a reduction makes. -/
def uncovered (s : ParseStack) (rule : Production) : ParseStack :=
  { s.withEntries (takeChildren rule.rhs.reverse (s.entries.dropWhile (·.extra)) []).2 with
    nextSerial := s.nextSerial + 1 }

/-- A reduction in three moves: take the children off, push the node, put the extra entries back. -/
theorem reduce_eq (tables : Tables) (s : ParseStack) (rule : Production) (lookaheadStop : Nat) :
    s.reduce tables rule lookaheadStop =
      let closed := s.closeError
      let base := closed.uncovered rule
      let node := closed.reduced tables rule lookaheadStop
      let pushed := match tables.goto base.state rule.lhs with
        | some next => (true, base.push next node)
        | none => (false, base.pushSkipped tables [node])
      (pushed.1, (closed.entries.takeWhile (·.extra)).foldr
        (fun entry s => s.closeError.pushAside entry.subtree) pushed.2) := by
  unfold reduce
  dsimp only
  rw [List.span_eq_takeWhile_dropWhile]
  rfl

/-- What a reduction takes off the stack is measured like the entries were. -/
theorem Sound.taken (h : s.Sound kinds) (slots : List Slot) :
    ∀ t ∈ (takeChildren slots (s.entries.dropWhile (·.extra)) []).1,
      All (Measured kinds) t ∧ Plain kinds t := by
  intro t hMem
  obtain ⟨e, hEntry, field, rfl⟩ := exists_of_mem_takeChildren hMem
  obtain ⟨hMeasured, hPlain⟩ := h.entries e ((List.dropWhile_suffix _).subset hEntry)
  exact ⟨hMeasured.withField Measured.withField _, hPlain.withField _⟩

/-- The entries above those that a reduction leaves: the extra ones on top, and its children. -/
theorem entries_split (s : ParseStack) (slots : List Slot) :
    ∃ top, s.entries = s.entries.takeWhile (·.extra) ++ top
        ++ (takeChildren slots (s.entries.dropWhile (·.extra)) []).2
      ∧ (takeChildren slots (s.entries.dropWhile (·.extra)) []).1.map (withField none)
          = (content top).map (withField none) := by
  obtain ⟨top, hTop, hTaken⟩ := takeChildren_spec slots (s.entries.dropWhile (·.extra)) []
  refine ⟨top, ?_, by simpa using hTaken⟩
  rw [List.append_assoc, ← hTop, List.takeWhile_append_dropWhile]

/-- The node of a reduction has the tokens of what was taken off the stack for it. -/
theorem reduced_spec (h : s.Sound kinds) (hOpen : s.openError = #[])
    (hHidden : ∀ k, tables.isHidden k = true → kinds.spliced k = true)
    (hError : tables.isHidden errorSymbol = false) (rule : Production) (lookaheadStop : Nat) :
    (s.uncovered rule).Sound kinds
      ∧ All (Measured kinds) (s.reduced tables rule lookaheadStop)
      ∧ s.leaves = (s.uncovered rule).leaves ++ (s.reduced tables rule lookaheadStop).leaves
          ++ leavesAll (content (s.entries.takeWhile (·.extra))) := by
  obtain ⟨top, hSplit, hSame⟩ := s.entries_split rule.rhs.reverse
  obtain ⟨hSound, hRest, -⟩ := sound_withEntries h hOpen hSplit
  have hTaken := h.taken rule.rhs.reverse
  have hOpens : ∀ t : Subtree, tables.isHidden t.kind = true → t.kind ≠ errorSymbol := by
    intro t hOpens hKind
    simp [hKind, hError] at hOpens
  have hChildren := unwrapped_conserves (opener_kind hHidden hError) _
    (fun t hMem hOpens hNone => (hTaken t hMem).2 hNone (hHidden _ hOpens))
    fun t hMem => (hTaken t hMem).1
  refine ⟨⟨hSound.stacked, hSound.openStop, hSound.entries, hSound.opened⟩, ?_, ?_⟩
  · refine all_measured_branch _ _ _ _ _ _ (fun _ => ?_) ?_ <;> split
    · exact fun t hMem => (hTaken t hMem).2
    · exact plain_of_mem_unwrapped hOpens _ (fun t hMem => (hTaken t hMem).2)
        fun t hMem => (hTaken t hMem).1
    · exact fun t hMem => (hTaken t hMem).1
    · exact forall_all_unwrapped Measured.withField _ fun t hMem => (hTaken t hMem).1
  · have hNode : (s.reduced tables rule lookaheadStop).leaves = leavesAll (content top) := by
      rw [reduced, leaves_branch, ← leavesAll_congr hSame]
      split
      · rfl
      · exact hChildren.1
    rw [hNode, hRest, content_append, leavesAll_append, ← List.append_assoc]
    rfl

/-- A reduction keeps all tokens where they are, whether the node is pushed or skipped. -/
theorem sound_reduce (h : s.Sound kinds) (hHidden : ∀ k, tables.isHidden k = true → kinds.spliced k = true)
    (hError : tables.isHidden errorSymbol = false) (rule : Production) (lookaheadStop : Nat) :
    (s.reduce tables rule lookaheadStop).2.Sound kinds
      ∧ (s.reduce tables rule lookaheadStop).2.leaves = s.leaves := by
  obtain ⟨hClosed, hLeaves, hOpen⟩ := sound_closeError h
  obtain ⟨hBase, hNode, hSplit⟩ := reduced_spec hClosed hOpen hHidden hError rule lookaheadStop
  have hTrailing : ∀ e ∈ s.closeError.entries.takeWhile (·.extra),
      All (Measured kinds) e.subtree ∧ Plain kinds e.subtree :=
    fun e hMem => hClosed.entries e (List.takeWhile_subset _ hMem)
  rw [reduce_eq]
  dsimp only
  split
  · rename_i next _
    obtain ⟨hPushed, hAll, -⟩ := sound_push hBase next hNode (plain_branch _ _ _ _ _ _)
    obtain ⟨hSound, hDone⟩ := sound_putBack hPushed _ hTrailing
    exact ⟨hSound, by rw [hDone, hAll, ← hSplit, hLeaves]⟩
  · have hPiece : ∀ t ∈ [s.closeError.reduced tables rule lookaheadStop],
        All (Measured kinds) t := by
      simp [hNode]
    obtain ⟨hPushed, hAll⟩ := sound_pushSkipped tables hBase hPiece
    obtain ⟨hSound, hDone⟩ := sound_putBack hPushed _ hTrailing
    refine ⟨hSound, ?_⟩
    rw [hDone, hAll, ← hLeaves, hSplit]
    simp

/-- The children of the root before hidden nodes are taken apart. -/
def rootPieces (tables : Tables) (s : ParseStack) : List Subtree :=
  s.entries.reverse.flatMap fun entry =>
    if !entry.extra && entry.subtree.kind == tables.start then entry.subtree.children
    else [entry.subtree.withField none]

/-- The children of the root are what is left of the pieces on the stack when hidden nodes are taken apart.
-/
theorem children_toRoot (tables : Tables) (s : ParseStack) (length : Nat) (accepted : Bool) :
    (s.toRoot tables length accepted).1.children =
      unwrapped (tables.isHidden ·.kind) (s.closeError.rootPieces tables) := rfl

/-- The root is built like a node over its children. -/
theorem laid_toRoot (s : ParseStack) (tables : Tables) (length : Nat) (accepted : Bool) :
    Laid (s.toRoot tables length accepted).1 := fun _ => rfl

/-- Nodes of the start symbol are replaced by their children, with no token lost. -/
theorem rootPieces_spec (h : s.Sound kinds) (hSpliced : kinds.spliced = tables.splices)
    (hStart : tables.start ≠ errorSymbol) (hOpen : s.openError = #[]) :
    leavesAll (s.rootPieces tables) = s.leaves
      ∧ ∀ t ∈ s.rootPieces tables, All (Measured kinds) t ∧ Plain kinds t := by
  have hEntries : ∀ es : List StackEntry,
      (∀ e ∈ es, All (Measured kinds) e.subtree ∧ Plain kinds e.subtree) →
      leavesAll (es.reverse.flatMap fun entry =>
          if !entry.extra && entry.subtree.kind == tables.start then entry.subtree.children
          else [entry.subtree.withField none]) = leavesAll (content es)
        ∧ ∀ t ∈ es.reverse.flatMap fun entry =>
            if !entry.extra && entry.subtree.kind == tables.start then entry.subtree.children
            else [entry.subtree.withField none],
          All (Measured kinds) t ∧ Plain kinds t := by
    intro es hAll
    induction es with
    | nil => simp
    | cons e es ih =>
        obtain ⟨hLeaves, hPieces⟩ := ih fun f hMem => hAll f (by simp [hMem])
        obtain ⟨hMeasured, hPlain⟩ := hAll e (by simp)
        rw [List.reverse_cons, List.flatMap_append, leavesAll_append, hLeaves, content_cons,
          leavesAll_append, List.flatMap_cons, List.flatMap_nil, List.append_nil]
        split
        · rename_i hIs
          have hKind : e.subtree.kind = tables.start := by
            simp only [Bool.and_eq_true, beq_iff_eq] at hIs
            exact hIs.2
          refine ⟨?_, ?_⟩
          · congr 1
            by_cases hNone : e.subtree.children = []
            · rw [hNone, leavesAll_cons, leaves_of_no_children hNone,
                hPlain hNone (by simp [hSpliced, Tables.splices, hKind])]
              simp
            · simp [leaves_of_children hNone]
          · intro t hMem
            rcases List.mem_append.mp hMem with hMem | hMem
            · exact hPieces t hMem
            · exact ⟨hMeasured.child hMem, hMeasured.self.plain (hKind ▸ hStart) t hMem⟩
        · refine ⟨by simp, ?_⟩
          intro t hMem
          rcases List.mem_append.mp hMem with hMem | hMem
          · exact hPieces t hMem
          · obtain rfl := List.mem_singleton.mp hMem
            exact ⟨hMeasured.withField Measured.withField _, hPlain.withField _⟩
  obtain ⟨hLeaves, hPieces⟩ := hEntries s.entries h.entries
  refine ⟨?_, hPieces⟩
  rw [rootPieces, hLeaves, leaves, hOpen]
  simp

/-- The root holds the tokens of the stack. -/
theorem sound_toRoot (h : s.Sound kinds) (hSpliced : kinds.spliced = tables.splices)
    (hStart : tables.start ≠ errorSymbol) (hError : tables.isHidden errorSymbol = false)
    (length : Nat) (accepted : Bool) :
    leavesAll (s.toRoot tables length accepted).1.children = s.leaves
      ∧ ∀ t ∈ (s.toRoot tables length accepted).1.children, All (Measured kinds) t := by
  obtain ⟨hClosed, hLeaves, hOpen⟩ := sound_closeError h
  obtain ⟨hPieces, hAll⟩ := rootPieces_spec hClosed hSpliced hStart hOpen
  have hHidden : ∀ k, tables.isHidden k = true → kinds.spliced k = true := by
    intro k hKind
    simp [hSpliced, Tables.splices, hKind]
  have hConserves := unwrapped_conserves (opener_kind hHidden hError) _
    (fun t hMem hOpens hNone => (hAll t hMem).2 hNone (hHidden _ hOpens))
    fun t hMem => (hAll t hMem).1
  rw [children_toRoot]
  exact ⟨by rw [hConserves.1, hPieces, hLeaves],
    forall_all_unwrapped Measured.withField _ fun t hMem => (hAll t hMem).1⟩

end Sound
end ParseStack
end IncrementalParsing
