import IncrementalParsing.Proofs.Parser.Reading
import IncrementalParsing.Proofs.Text.Edit

/-! What a previous tree offers is what the lexer would find in the new text. A subtree is taken
over only if the edit has left alone everything that was read for its tokens. -/
namespace IncrementalParsing
open Subtree Text

/-- A token depends only on its own bytes and on those that were read behind it, and where nothing
was read behind it at the end of the text, on the text ending there. -/
def Lexer.Local (lexer : Lexer) (invalid : SymbolId → Bool) : Prop :=
  ∀ (old new : ByteArray) (a b : Nat) (t : Token), lexer.next old a = some t →
    invalid t.kind = false → 0 < t.width → a + t.width ≤ old.size →
    (∀ k < t.width + t.lookahead, byteAt? new (b + k) = byteAt? old (a + k)) →
    (t.lookahead = 0 → a + t.width = old.size → b + t.width = new.size) →
    lexer.next new b = some t

namespace Subtree
variable {kinds : Kinds}

/-- How far the building of subtrees side by side read, if the first one starts at `offset` and
what is in front of it read up to `bound`. -/
def reachFrom (offset bound : Nat) (ts : List Subtree) : Nat :=
  (ts.foldl (fun (offset, reach) t =>
    (offset + t.total, max reach (offset + t.total + t.lookahead))) (offset, bound)).2

theorem reachFrom_cons (offset bound : Nat) (t : Subtree) (ts : List Subtree) :
    reachFrom offset bound (t :: ts) =
      reachFrom (offset + t.total) (max bound (offset + t.total + t.lookahead)) ts := rfl

/-- Reading side by side goes no less far than it did in front. -/
theorem le_reachFrom (ts : List Subtree) (offset bound : Nat) : bound ≤ reachFrom offset bound ts := by
  induction ts generalizing offset bound with
  | nil => exact Nat.le_refl _
  | cons t ts ih => exact Nat.le_trans (Nat.le_max_left _ _) (ih _ _)

/-- Where a token lies in a range whose reading went up to `reach`. -/
structure Within (start stop reach : Nat) (x : Nat × Token) : Prop where
  start : start ≤ x.1
  stop : x.1 + x.2.width ≤ stop
  reach : x.1 + x.2.width + x.2.lookahead ≤ reach

/-- What was read for the tokens of subtrees side by side was read for these. -/
theorem within_placedLeavesAll (ts : List Subtree) (start offset bound : Nat)
    (h : ∀ t ∈ ts, ∀ start, ∀ x ∈ placedLeaves start t,
      Within start (start + t.total) (start + t.total + t.lookahead) x) :
    ∀ x ∈ placedLeavesAll (start + offset) ts, Within (start + offset)
      (start + offset + width ts) (start + reachFrom offset bound ts) x := by
  induction ts generalizing offset bound with
  | nil => simp [placedLeavesAll]
  | cons t ts ih =>
      intro x hMem
      rw [placedLeavesAll] at hMem
      rw [width_cons, reachFrom_cons]
      rcases List.mem_append.mp hMem with hMem | hMem
      · have hHead := h t (by simp) _ x hMem
        have hReach := le_reachFrom ts (offset + t.total) (max bound (offset + t.total + t.lookahead))
        refine ⟨hHead.start, ?_, ?_⟩
        · have hStop := hHead.stop
          omega
        · have hHeadReach := hHead.reach
          omega
      · rw [Nat.add_assoc] at hMem
        have hTail := ih (offset + t.total) (max bound (offset + t.total + t.lookahead))
          (fun u hRest => h u (by simp [hRest])) x hMem
        refine ⟨?_, ?_, hTail.reach⟩
        · have hStart := hTail.start
          omega
        · have hStop := hTail.stop
          omega

/-- What was read for the tokens of a subtree was read for the subtree. -/
theorem within_placedLeaves (t : Subtree) (h : All (Measured kinds) t) (start : Nat) :
    ∀ x ∈ placedLeaves start t,
      Within start (start + t.total) (start + t.total + t.lookahead) x := by
  induction t using children_induction generalizing start with
  | node t ih =>
      obtain ⟨info, field, _ | ⟨c, cs⟩⟩ := t
      · intro x hMem
        rw [placedLeaves] at hMem
        split at hMem
        · obtain rfl := List.mem_singleton.mp hMem
          exact ⟨Nat.le_refl _, Nat.le_refl _, Nat.le_refl _⟩
        · simp at hMem
      · intro x hMem
        rw [placedLeaves] at hMem
        have hTotal := h.self.total (by simp [children])
        have hReach := h.self.reach (by simp [children])
        have hInner := within_placedLeavesAll (c :: cs) start 0 0
          (fun d hChild start => ih d hChild (h.child hChild) start) x hMem
        refine ⟨hInner.start, ?_, ?_⟩
        · rw [hTotal]
          exact hInner.stop
        · refine Nat.le_trans hInner.reach ?_
          rw [Nat.add_assoc]
          exact Nat.add_le_add_left hReach start

/-- The tokens of a subtree without damage are valid. -/
theorem valid_of_mem_leaves (t : Subtree) (h : All (Measured kinds) t) (hError : t.hasError = false) :
    ∀ token ∈ t.leaves, kinds.invalid token.kind = false := by
  induction t using children_induction with
  | node t ih =>
      by_cases hNone : t.children = []
      · intro token hMem
        rw [leaves_of_no_children hNone] at hMem
        split at hMem
        · rename_i hWide
          obtain rfl := List.mem_singleton.mp hMem
          rcases Bool.eq_false_or_eq_true (kinds.invalid t.kind) with hInvalid | hValid
          · simp [h.self.marked hNone hWide hInvalid] at hError
          · exact hValid
        · simp at hMem
      · rw [leaves_of_children hNone]
        have hAll : ∀ ts : List Subtree, (∀ c ∈ ts, c ∈ t.children) →
            ∀ token ∈ leavesAll ts, kinds.invalid token.kind = false := by
          intro ts
          induction ts with
          | nil => simp
          | cons c cs ihs =>
              intro hSub token hMem
              have hChild := hSub c (by simp)
              have hWhole : c.hasError = false := by
                rcases Bool.eq_false_or_eq_true c.hasError with hDamaged | hWhole
                · simp [h.self.damaged c hChild hDamaged] at hError
                · exact hWhole
              rw [leavesAll_cons] at hMem
              rcases List.mem_append.mp hMem with hMem | hMem
              · exact ih c hChild (h.child hChild) hWhole token hMem
              · exact ihs (fun d hMem => hSub d (by simp [hMem])) token hMem
        exact hAll t.children fun _ hMem => hMem

end Subtree

/-- What is kept as an edit leads from one text to another. -/
def Edited (edit : Option Edit) (old new : ByteArray) : Prop :=
  match edit with
  | some edit => edit.Leads old new
  | none => new = old

/-- An edit that leads from one text to another resizes it accordingly. -/
theorem Edited.resized {edit : Option Edit} {old new : ByteArray} (h : Edited edit old new) :
    Edit.Resized edit old.size new.size := by
  cases edit with
  | some e => exact Edit.Leads.resizes h
  | none => exact congrArg ByteArray.size h

namespace ReuseQueue
variable {q r : ReuseQueue}

/-- What is ahead lies within a text of `size` bytes, and its widths add up. -/
structure Lies (kinds : Kinds) (size : Nat) (q : ReuseQueue) : Prop where
  measured : ∀ t ∈ q.ahead, All (Measured kinds) t
  bound : q.start + width q.ahead ≤ size

section Lies
variable {kinds : Kinds} {size : Nat}

theorem Lies.pass (h : q.Lies kinds size) : q.pass.Lies kinds size := by
  obtain ⟨_ | ⟨t, ts⟩, start, edit⟩ := q
  · exact h
  · obtain ⟨hMeasured, hBound⟩ := h
    refine ⟨fun u hMem => hMeasured u (List.mem_cons_of_mem _ hMem), ?_⟩
    simp only [width_cons] at hBound
    simp only [ReuseQueue.pass]
    omega

theorem Lies.enter (h : q.Lies kinds size) : q.enter.Lies kinds size := by
  obtain ⟨_ | ⟨t, ts⟩, start, edit⟩ := q
  · exact h
  · unfold ReuseQueue.enter
    dsimp only
    split
    · exact h.pass
    · rename_i hLeaf
      have hSome : t.children ≠ [] := children_of_not_isLeaf (by simpa using hLeaf)
      obtain ⟨hMeasured, hBound⟩ := h
      have hHead := hMeasured t (by simp)
      refine ⟨?_, ?_⟩
      · intro u hMem
        rcases List.mem_append.mp hMem with hMem | hMem
        · exact hHead.child hMem
        · exact hMeasured u (by simp [hMem])
      · simpa [hHead.self.total hSome] using hBound

/-- What is ahead stays within the text as the queue moves on. -/
theorem Lies.behind (h : q.Lies kinds size) (hBehind : q.Behind r) : r.Lies kinds size := by
  induction hBehind with
  | refl => exact h
  | pass _ ih => exact ih.pass
  | enter _ ih => exact ih.enter

end Lies

/-- The queue stands in front of tokens of the old text. -/
structure Stands (old : ParseJob) (q : ReuseQueue) : Prop where
  lexes : old.Lexes q.start (leavesAll q.ahead)
  lies : q.Lies old.tables.kinds old.text.size

/-- A subtree that is passed takes its tokens along. -/
theorem Stands.pass {old : ParseJob} (h : q.Stands old) : q.pass.Stands old := by
  obtain ⟨_ | ⟨t, ts⟩, start, edit⟩ := q
  · exact h
  · obtain ⟨hLexes, hLies⟩ := h
    have hHead := hLies.measured t (by simp)
    simp only [leavesAll_cons, ParseJob.lexes_append, width_leaves t hHead] at hLexes
    exact ⟨hLexes.2, hLies.pass⟩

/-- A node that is entered has the tokens of its children. -/
theorem Stands.enter {old : ParseJob} (h : q.Stands old) : q.enter.Stands old := by
  refine ⟨?_, h.lies.enter⟩
  obtain ⟨_ | ⟨t, ts⟩, start, edit⟩ := q
  · exact h.lexes
  · unfold ReuseQueue.enter
    dsimp only
    split
    · exact h.pass.lexes
    · rename_i hLeaf
      have hSome : t.children ≠ [] := children_of_not_isLeaf (by simpa using hLeaf)
      simpa [leaves_of_children hSome] using h.lexes

/-- However the queue moves on, it stands in front of tokens of the old text. -/
theorem Stands.behind {old : ParseJob} (h : q.Stands old) (hBehind : q.Behind r) :
    r.Stands old := by
  induction hBehind with
  | refl => exact h
  | pass _ ih => exact ih.pass
  | enter _ ih => exact ih.enter

theorem edit_pass (q : ReuseQueue) : q.pass.edit = q.edit := by
  obtain ⟨_ | ⟨t, ts⟩, start, edit⟩ := q <;> rfl

theorem edit_enter (q : ReuseQueue) : q.enter.edit = q.edit := by
  obtain ⟨_ | ⟨t, ts⟩, start, edit⟩ := q
  · rfl
  · unfold enter
    dsimp only
    split <;> rfl

/-- The edit stays with the queue. -/
theorem Behind.edit (hBehind : q.Behind r) : r.edit = q.edit := by
  induction hBehind with
  | refl => rfl
  | pass _ ih => rw [edit_pass, ih]
  | enter _ ih => rw [edit_enter, ih]

/-- Around a subtree that is not dirty the two texts are the same. -/
theorem agrees_of_not_dirty {old new : ByteArray} (hEdited : Edited q.edit old new)
    (hNew : new.size < Offset.bound) {start : Nat} {t : Subtree} (hBound : start + t.total ≤ old.size)
    (hClean : q.isDirty start t = false) :
    (∀ i, start ≤ i → i < start + t.total + t.lookahead →
        byteAt? new (q.map start + (i - start)) = byteAt? old i)
      ∧ ∀ i, start ≤ i → i ≤ start + t.total → i = old.size →
        q.map start + (i - start) = new.size := by
  unfold isDirty at hClean
  unfold map
  unfold Edited at hEdited
  cases hEdit : q.edit with
  | none =>
      rw [hEdit] at hEdited
      subst hEdited
      dsimp only
      refine ⟨fun i hFirst hLast => ?_, fun i hFirst hLast hEnd => ?_⟩
      · rw [Nat.add_sub_cancel' hFirst]
      · rw [Nat.add_sub_cancel' hFirst, hEnd]
  | some e =>
      rw [hEdit] at hEdited hClean
      dsimp only at hEdited hClean ⊢
      have hOld := hEdited.oldRange
      have hSizes := hEdited.sizes
      simp only [Edit.meets, Bool.and_eq_false_iff, decide_eq_false_iff_not, Nat.not_le] at hClean
      rcases hClean with hBehind | hBefore
      · rw [Edit.image_of_behind hEdited hNew hBehind (by omega)]
        refine ⟨fun i hFirst hLast => ?_, fun i hFirst hLast hEnd => by omega⟩
        have hByte := hEdited.behind (i - e.oldEnd)
        rw [Nat.add_sub_cancel' (by omega)] at hByte
        rw [← hByte]
        congr 1
        omega
      · rw [Edit.image_of_le (by omega)]
        refine ⟨fun i hFirst hLast => ?_, fun i hFirst hLast hEnd => by omega⟩
        rw [Nat.add_sub_cancel' hFirst]
        exact hEdited.before i (by omega)

end ReuseQueue

namespace ParseJob
variable {job : ParseJob}

/-- Tokens are found one behind the other if each one is found where it lies. -/
theorem lexes_iff (position : Nat) (ts : List Token) :
    job.Lexes position ts ↔ ∀ x ∈ inSequence position ts, job.token? x.1 = some x.2 := by
  induction ts generalizing position with
  | nil => simp [Lexes, inSequence]
  | cons t ts ih => simp [Lexes, inSequence, ih]

/-- Tokens in sequence lie behind where it starts. -/
theorem le_of_mem_inSequence {position : Nat} {ts : List Token} :
    ∀ x ∈ inSequence position ts, position ≤ x.1 := by
  induction ts generalizing position with
  | nil => simp [inSequence]
  | cons t ts ih =>
      intro x hMem
      rcases List.mem_cons.mp hMem with rfl | hMem
      · exact Nat.le_refl _
      · exact Nat.le_trans (Nat.le_add_right _ _) (ih x hMem)

theorem mem_of_mem_inSequence {position : Nat} {ts : List Token} :
    ∀ x ∈ inSequence position ts, x.2 ∈ ts := by
  induction ts generalizing position with
  | nil => simp [inSequence]
  | cons t ts ih =>
      intro x hMem
      rcases List.mem_cons.mp hMem with rfl | hMem
      · exact List.mem_cons_self
      · exact List.mem_cons_of_mem _ (ih x hMem)

/-- A sequence that is moved as a whole has the same tokens. -/
theorem inSequence_move (position target : Nat) (ts : List Token) :
    inSequence target ts
      = (inSequence position ts).map fun x => (target + (x.1 - position), x.2) := by
  induction ts generalizing position target with
  | nil => rfl
  | cons t ts ih =>
      rw [inSequence, inSequence, List.map_cons, ih (position + t.width) (target + t.width)]
      congr 1
      · simp
      · refine List.map_congr_left fun x hMem => ?_
        have hLe := le_of_mem_inSequence x hMem
        congr 1
        omega

/-- A token that both texts have the bytes of is found in both. -/
theorem token?_of_local {old : ParseJob} (hLexer : old.lexer = job.lexer)
    {invalid : SymbolId → Bool} (hLocal : job.lexer.Local invalid) (hInvalid : invalid errorSymbol = true)
    {a b : Nat} {t : Token} (hToken : old.token? a = some t) (hValid : invalid t.kind = false)
    (hSame : ∀ k < t.width + t.lookahead, byteAt? job.text (b + k) = byteAt? old.text (a + k))
    (hEnd : t.lookahead = 0 → a + t.width = old.text.size → b + t.width = job.text.size) :
    job.token? b = some t := by
  obtain ⟨hWide, hBound⟩ := token?_width hToken
  have hNext : old.lexer.next old.text a = some t := by
    unfold token? at hToken
    split at hToken
    · rename_i hFound
      split at hToken
      · rwa [← Option.some.inj hToken]
      · split at hToken
        · simp at hToken
        · obtain rfl := Option.some.inj hToken
          exact absurd (hInvalid.symm.trans hValid) (by simp)
    · simp at hToken
  rw [hLexer] at hNext
  have hFound := hLocal _ _ a b t hNext hValid hWide hBound hSame hEnd
  have hLast := hSame (t.width - 1) (by omega)
  have hInside : b + (t.width - 1) < job.text.size := by
    refine Nat.lt_of_not_le fun hOutside => ?_
    rw [byteAt?_eq_none_iff.mpr hOutside] at hLast
    have hOutside := byteAt?_eq_none_iff.mp hLast.symm
    omega
  unfold token?
  rw [hFound]
  exact if_pos ⟨hWide, by omega⟩

/-- A queue over the old tree offers what the lexer finds in the new text. -/
theorem faithful_of_stands {old : ParseJob} {q : ReuseQueue} (hOrderly : job.Orderly)
    (hTables : old.tables = job.tables) (hLexer : old.lexer = job.lexer)
    (hLocal : job.lexer.Local job.tables.kinds.invalid) (hStands : q.Stands old)
    (hEdited : Edited q.edit old.text job.text) (hNew : job.text.size < Offset.bound) :
    job.Faithful q := by
  intro r hBehind t ts hAhead hReusable
  obtain ⟨hLexes, hMeasured, hBound⟩ := hStands.behind hBehind
  rw [← hBehind.edit] at hEdited
  rw [hAhead] at hLexes hMeasured hBound
  rw [leavesAll_cons, lexes_append] at hLexes
  rw [width_cons] at hBound
  have hHead : All (Measured job.tables.kinds) t := hTables ▸ hMeasured t (by simp)
  obtain ⟨hClean, hWhole, -, hWide⟩ := (ReuseQueue.isReusable_iff _ _ _).mp hReusable
  obtain ⟨hSame, hEnd⟩ := ReuseQueue.agrees_of_not_dirty hEdited hNew (by omega) hClean
  have hFound : job.Lexes (r.map r.start) t.leaves := by
    rw [lexes_iff, inSequence_move r.start (r.map r.start)]
    intro y hMem
    obtain ⟨x, hPlace, rfl⟩ := List.mem_map.mp hMem
    have hToken := (lexes_iff _ _).mp hLexes.1 x hPlace
    have hValid := valid_of_mem_leaves t hHead hWhole x.2 (mem_of_mem_inSequence x hPlace)
    rw [← placedLeaves_eq t hHead] at hPlace
    obtain ⟨hFirst, hStop, hReach⟩ := within_placedLeaves t hHead r.start x hPlace
    refine token?_of_local hLexer hLocal rfl hToken hValid ?_ ?_
    · intro k hLess
      dsimp only at hLess ⊢
      rw [← hSame (x.1 + k) (by omega) (by omega)]
      congr 1
      omega
    · intro _ hLast
      dsimp only at hLast ⊢
      rw [← hEnd (x.1 + x.2.width) (by omega) (by omega) hLast]
      omega
  refine ⟨hHead, hFound, ?_, fun _ => hWide⟩
  intro hLeaf
  rw [leaves_of_no_children (children_of_isLeaf hLeaf), if_pos hWide] at hFound
  exact hOrderly.token_kind hFound.1

end ParseJob
end IncrementalParsing
