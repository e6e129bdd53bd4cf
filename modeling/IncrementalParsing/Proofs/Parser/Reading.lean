import IncrementalParsing.Proofs.Parser.Moves
import IncrementalParsing.Proofs.Parser.StackContent

/-! No token is lost, repeated or moved. Whatever a parse does, the tokens on its stack are those
that the lexer finds up to the end of the stack, and the pending input continues them. -/
namespace IncrementalParsing
open Subtree

/-- Only terminals have actions. -/
theorem Tables.isTerminal_of_action (t : Tables) {state : StateId} {symbol : SymbolId}
    {action : Action} (hAction : t.action state symbol = action) (hSome : action ≠ .error) :
    t.isTerminal symbol = true := by
  unfold Tables.action at hAction
  split at hAction
  · assumption
  · exact absurd hAction.symm hSome

namespace ParseJob

/-- The token at a position, if any input is left there. A token that has no width or runs past
the text makes all that is left one error. -/
def token? (job : ParseJob) (position : Nat) : Option Token :=
  match job.lexer.next job.text position with
  | some token =>
      if 0 < token.width ∧ position + token.width ≤ job.text.size then some token
      else if job.text.size ≤ position then none
      else some ⟨errorSymbol, 0, job.text.size - position, 0⟩
  | none => none

/-- The lexer finds the tokens one behind the other from a position on. -/
def Lexes (job : ParseJob) : (position : Nat) → List Token → Prop
  | _, [] => True
  | position, t :: ts => job.token? position = some t ∧ job.Lexes (position + t.width) ts

variable {job : ParseJob}

theorem lexes_append (position : Nat) (ts us : List Token) :
    job.Lexes position (ts ++ us) ↔
      job.Lexes position ts ∧ job.Lexes (position + (ts.map Token.width).sum) us := by
  induction ts generalizing position with
  | nil => simp [Lexes]
  | cons t ts ih => simp [Lexes, ih, and_assoc, Nat.add_assoc]

/-- A token that is found has a width and lies within the text. -/
theorem token?_width {position : Nat} {t : Token} (hToken : job.token? position = some t) :
    0 < t.width ∧ position + t.width ≤ job.text.size := by
  unfold token? at hToken
  split at hToken
  · split at hToken
    · rename_i hUsable
      obtain rfl := Option.some.inj hToken
      exact hUsable
    · split at hToken
      · simp at hToken
      · obtain rfl := Option.some.inj hToken
        simp only [Token.width]
        omega
  · simp at hToken

/-- Tokens do not run past the text. -/
theorem lexes_le_size {position : Nat} {ts : List Token} (hLexes : job.Lexes position ts)
    (hStart : position ≤ job.text.size) :
    position + (ts.map Token.width).sum ≤ job.text.size := by
  induction ts generalizing position with
  | nil => simpa using hStart
  | cons t ts ih =>
      have hToken := token?_width hLexes.1
      have hRest := ih hLexes.2 hToken.2
      simp only [List.map_cons, List.sum_cons]
      omega

/-- The input that is left where there is no token is what the lexer calls the end, or nothing. -/
theorem end_of_token?_eq_none {position : Nat} (hNone : job.token? position = none) :
    job.lexer.next job.text position = none ∨ job.text.size ≤ position := by
  unfold token? at hNone
  split at hNone
  · split at hNone
    · simp at hNone
    · split at hNone
      · rename_i hEnd
        exact .inr hEnd
      · simp at hNone
  · rename_i hLexer
    exact .inl hLexer

end ParseJob

/-- The contract of a lexer: a token occupies the bytes from one offset to another. So where it ends is an
offset, even if it runs past the text. -/
def Lexer.InRange (l : Lexer) : Prop :=
  ∀ text offset t, l.next text offset = some t → offset + t.width < Offset.range text.size

namespace ParseJob
variable {job : ParseJob}

theorem locate_of_le {position : Nat} (hLe : position ≤ job.text.size) : job.locate position = position :=
  Offset.wrap_of_le hLe

/-- The new token is the one at its place, and the end of the input if there is none. -/
theorem readAt_eq (hRange : job.lexer.InRange) (serial position : Nat) :
    (∃ t, job.token? (job.locate position) = some t ∧ job.readAt serial position
        = .leaf serial t.kind t.padding t.size t.lookahead (job.isInvalid t.kind))
      ∨ job.token? (job.locate position) = none
        ∧ job.readAt serial position = endLeaf serial (job.text.size - job.locate position) := by
  unfold token? readAt
  dsimp only
  cases hNext : job.lexer.next job.text (job.locate position) with
  | none => exact .inr ⟨rfl, rfl⟩
  | some t =>
      have hEnd := hRange _ _ _ hNext
      have hWidth : job.locate t.width = t.width :=
        Offset.wrap_eq (Nat.lt_of_le_of_lt (Nat.le_add_left ..) hEnd)
      have hStop : job.locate (job.locate position + t.width) = job.locate position + t.width :=
        Offset.wrap_eq hEnd
      dsimp only
      rw [hWidth, hStop]
      by_cases hUsable : 0 < t.width ∧ job.locate position + t.width ≤ job.text.size
      · rw [if_pos hUsable, if_pos hUsable]
        exact .inl ⟨t, rfl, rfl⟩
      · rw [if_neg hUsable, if_neg hUsable]
        by_cases hEnd : job.text.size ≤ job.locate position
        · rw [if_pos hEnd, if_pos hEnd, Nat.sub_eq_zero_of_le hEnd]
          exact .inr ⟨rfl, rfl⟩
        · rw [if_neg hEnd, if_neg hEnd]
          exact .inl ⟨_, rfl, by simp [isInvalid]⟩

/-- At a position in the text it is the token there, or the end of the input. -/
theorem readAt_of_le (hRange : job.lexer.InRange) (serial : Nat) {position : Nat}
    (hLe : position ≤ job.text.size) :
    (∃ t, job.token? position = some t ∧ job.readAt serial position
        = .leaf serial t.kind t.padding t.size t.lookahead (job.isInvalid t.kind))
      ∨ job.token? position = none
        ∧ job.readAt serial position = endLeaf serial (job.text.size - position) := by
  have hCases := readAt_eq hRange serial position
  rwa [locate_of_le hLe] at hCases

/-- What a parse relies on: where a token ends is an offset, the lexer never finds an end, terminals stay
whole in a tree, and the end of the input is accepted where nothing else is, but never shifted. -/
structure Orderly (job : ParseJob) : Prop where
  range : job.lexer.InRange
  lexer : ∀ position t, job.lexer.next job.text position = some t → t.kind ≠ endSymbol
  reserved : job.tables.isTerminal errorSymbol = true
  plain : ∀ kind, job.tables.isTerminal kind = true → job.tables.splices kind = false
  stops : job.StopsAtEnd
  accepts : ∀ state kind, job.tables.action state kind = .accept → kind = endSymbol

/-- `ERROR` nodes are never flattened. -/
theorem Orderly.isHidden_errorSymbol (h : job.Orderly) :
    job.tables.isHidden errorSymbol = false := by
  have hPlain := h.plain errorSymbol h.reserved
  simp only [Tables.splices, Bool.or_eq_false_iff] at hPlain
  exact hPlain.1

theorem Orderly.start_ne_errorSymbol (h : job.Orderly) : job.tables.start ≠ errorSymbol := by
  intro hStart
  have hPlain := h.plain errorSymbol h.reserved
  simp [Tables.splices, hStart] at hPlain

/-- No token is of the kind that ends the input. -/
theorem Orderly.token_kind (h : job.Orderly) {position : Nat} {t : Token}
    (hToken : job.token? position = some t) : t.kind ≠ endSymbol := by
  unfold token? at hToken
  split at hToken
  · rename_i hLexer
    split at hToken
    · obtain rfl := Option.some.inj hToken
      exact h.lexer _ _ hLexer
    · split at hToken
      · simp at hToken
      · obtain rfl := Option.some.inj hToken
        simp [errorSymbol, endSymbol]
  · simp at hToken

end ParseJob

namespace Subtree
variable {kinds : Kinds}

theorem children_of_isLeaf {t : Subtree} (hLeaf : t.isLeaf = true) : t.children = [] := by
  simpa [isLeaf] using hLeaf

theorem not_isLeaf_of_mem {t c : Subtree} (hMem : c ∈ t.children) : t.isLeaf = false := by
  rw [isLeaf, List.isEmpty_eq_false_iff]
  exact List.ne_nil_of_mem hMem

theorem children_of_not_isLeaf {t : Subtree} (hLeaf : t.isLeaf = false) : t.children ≠ [] := by
  simpa [isLeaf] using hLeaf

theorem all_of_isLeaf {P : Subtree → Prop} {t : Subtree} (hLeaf : t.isLeaf = true) (hSelf : P t) :
    All P t :=
  all_iff.mpr ⟨hSelf, by simp [children_of_isLeaf hLeaf]⟩

theorem measured_of_isLeaf {t : Subtree} (hLeaf : t.isLeaf = true)
    (hMarked : kinds.invalid t.kind = true → t.hasError = true) : Measured kinds t :=
  have hNone := children_of_isLeaf hLeaf
  ⟨fun hSome => absurd hNone hSome, fun hSome => absurd hNone hSome, fun hSome => absurd hNone hSome,
    fun hSome => absurd hNone hSome, by simp [hNone], by simp [hNone], fun _ _ => hMarked⟩

theorem leaves_leaf (serial : Nat) (kind : SymbolId) (padding size lookahead : Nat)
    (invalid : Bool) : (leaf serial kind padding size lookahead invalid).leaves =
      if 0 < padding + size then [⟨kind, padding, size, lookahead⟩] else [] := rfl

theorem eq_zero_of_width_eq_zero {ts : List Subtree} (hWidth : width ts = 0) :
    ∀ t ∈ ts, t.total = 0 := by
  induction ts with
  | nil => simp
  | cons t ts ih =>
      rw [width_cons] at hWidth
      intro u hMem
      rcases List.mem_cons.mp hMem with rfl | hMem
      · omega
      · exact ih (by omega) u hMem

/-- A subtree without a width has no tokens. -/
theorem leaves_eq_nil (t : Subtree) (hMeasured : All (Measured kinds) t) (hWidth : t.total = 0) :
    t.leaves = [] := by
  induction t using children_induction with
  | node t ih =>
      by_cases hNone : t.children = []
      · rw [leaves_of_no_children hNone, if_neg (by omega)]
      · rw [leaves_of_children hNone]
        rw [hMeasured.self.total hNone] at hWidth
        have hChildren := eq_zero_of_width_eq_zero hWidth
        have hAll : ∀ ts : List Subtree, (∀ c ∈ ts, c ∈ t.children) → leavesAll ts = [] := by
          intro ts
          induction ts with
          | nil => simp
          | cons c cs ihs =>
              intro hSub
              have hMem := hSub c (by simp)
              rw [leavesAll_cons, ih c hMem (hMeasured.child hMem) (hChildren c hMem),
                ihs fun d hMem => hSub d (by simp [hMem])]
              rfl
        exact hAll t.children fun _ hMem => hMem

/-- The first leaf with a width is the one the parser takes for its lookahead. -/
theorem leavesAll_eq_leftmostAmong (ts : List Subtree) (offset : Nat) (offsets : List Nat)
    (hMeasured : ∀ t ∈ ts, All (Measured kinds) t)
    (hEach : ∀ t ∈ ts, 0 < t.total → ∀ offset, ∃ rest,
      t.leaves = token (t.leftmost offset).1 :: rest) (hWidth : 0 < width ts) :
    ∃ found rest, leftmostAmong offset offsets ts = some found
      ∧ leavesAll ts = token found.1 :: rest := by
  induction ts generalizing offsets with
  | nil => simp at hWidth
  | cons t ts ih =>
      rw [leftmostAmong]
      split
      · rename_i hWide
        obtain ⟨rest, hLeaves⟩ := hEach t (by simp) hWide (offset + offsets.headD 0)
        exact ⟨_, rest ++ leavesAll ts, rfl, by rw [leavesAll_cons, hLeaves]; rfl⟩
      · rename_i hNarrow
        have hNone := leaves_eq_nil t (hMeasured t (by simp)) (by omega)
        obtain ⟨found, rest, hFound, hLeaves⟩ := ih offsets.tail
          (fun u hMem => hMeasured u (by simp [hMem])) (fun u hMem => hEach u (by simp [hMem]))
          (by rw [width_cons] at hWidth; omega)
        exact ⟨found, rest, hFound, by rw [leavesAll_cons, hNone, hLeaves]; rfl⟩

/-- The leftmost token of a subtree with a width is its first one. -/
theorem leaves_eq_leftmost (t : Subtree) (hMeasured : All (Measured kinds) t)
    (hWidth : 0 < t.total) (offset : Nat) :
    ∃ rest, t.leaves = token (t.leftmost offset).1 :: rest := by
  induction t using children_induction generalizing offset with
  | node t ih =>
      obtain ⟨info, field, _ | ⟨c, cs⟩⟩ := t
      · refine ⟨[], ?_⟩
        rw [leaves_of_no_children rfl, if_pos hWidth]
        rfl
      · have hSome : 0 < width (c :: cs) := by
          rw [hMeasured.self.total (by simp [children])] at hWidth
          exact hWidth
        obtain ⟨found, rest, hFound, hLeaves⟩ := leavesAll_eq_leftmostAmong (c :: cs) offset info.offsets
          (fun d hMem => hMeasured.child hMem) (fun d hMem => ih d hMem (hMeasured.child hMem)) hSome
        rw [leaves, leftmost, hFound]
        exact ⟨rest, hLeaves⟩

end Subtree

namespace ParseJob
variable {job : ParseJob}

/-- A subtree fits at a position: it is made of the tokens that the lexer finds there. -/
structure Fits (job : ParseJob) (position : Nat) (t : Subtree) : Prop where
  measured : All (Measured job.tables.kinds) t
  lexes : job.Lexes position t.leaves
  kind : t.isLeaf = true → t.kind ≠ endSymbol
  wide : t.isLeaf = false → 0 < t.total

/-- The input that has been read fits from a position on, up to the end if that is reached. -/
def Ahead (job : ParseJob) : (position : Nat) → List Subtree → Prop
  | _, [] => True
  | position, t :: ts =>
      (t.kind = endSymbol ∧ t.isLeaf = true ∧ job.token? position = none ∧ ts = [])
        ∨ (job.Fits position t ∧ job.Ahead (position + t.total) ts)

theorem Ahead.of_kind {position : Nat} {t : Subtree} {ts : List Subtree}
    (h : job.Ahead position (t :: ts)) (hKind : t.kind ≠ endSymbol) :
    job.Fits position t ∧ job.Ahead (position + t.total) ts := by
  rcases h with ⟨hEnd, -⟩ | h
  · exact absurd hEnd hKind
  · exact h

theorem mem_getLast?_cons {t u : Subtree} {ts : List Subtree} (hMem : u ∈ ts.getLast?) :
    u ∈ (t :: ts).getLast? := by
  cases ts with
  | nil => simp at hMem
  | cons v vs => simpa using hMem

/-- Input in front of input is input, unless it ends the text. -/
theorem Ahead.append {position : Nat} {ts us : List Subtree} (h : job.Ahead position ts)
    (hLast : ∀ t ∈ ts.getLast?, t.kind ≠ endSymbol)
    (hRest : job.Ahead (position + width ts) us) : job.Ahead position (ts ++ us) := by
  induction ts generalizing position with
  | nil => simpa using hRest
  | cons t ts ih =>
      rcases h with ⟨hKind, -, -, rfl⟩ | ⟨hFits, hAhead⟩
      · exact absurd hKind (hLast t (by simp))
      · exact .inr ⟨hFits, ih hAhead (fun u hMem => hLast u (mem_getLast?_cons hMem))
          (by simpa [Nat.add_assoc] using hRest)⟩

/-- What fits ends in the text. -/
theorem Ahead.front_le {position : Nat} {ts : List Subtree} (h : job.Ahead position ts)
    (hLast : ∀ t ∈ ts.getLast?, t.kind ≠ endSymbol) (hStart : position ≤ job.text.size) :
    position + width ts ≤ job.text.size := by
  induction ts generalizing position with
  | nil => exact hStart
  | cons t ts ih =>
      rcases h with ⟨hKind, -, -, rfl⟩ | ⟨hFits, hAhead⟩
      · exact absurd hKind (hLast t (by simp))
      · have hEnd := lexes_le_size hFits.lexes hStart
        rw [width_leaves t hFits.measured] at hEnd
        rw [width_cons, ← Nat.add_assoc]
        exact ih hAhead (fun u hMem => hLast u (mem_getLast?_cons hMem)) hEnd

/-- What stands in front of more input is no end, and fits. -/
theorem Ahead.split {position : Nat} {ts : List Subtree} {u : Subtree} {us : List Subtree}
    (h : job.Ahead position (ts ++ u :: us)) :
    job.Lexes position (leavesAll ts) ∧ (∀ t ∈ ts, All (Measured job.tables.kinds) t)
      ∧ job.Ahead (position + width ts) (u :: us) := by
  induction ts generalizing position with
  | nil => simpa [Lexes] using h
  | cons t ts ih =>
      rcases h with ⟨-, -, -, hNone⟩ | ⟨hFits, hAhead⟩
      · simp at hNone
      · obtain ⟨hLexes, hMeasured, hRest⟩ := ih hAhead
        refine ⟨?_, ?_, ?_⟩
        · rw [leavesAll_cons, lexes_append, width_leaves t hFits.measured]
          exact ⟨hFits.lexes, hLexes⟩
        · intro v hMem
          rcases List.mem_cons.mp hMem with rfl | hMem
          · exact hFits.measured
          · exact hMeasured v hMem
        · rwa [width_cons, ← Nat.add_assoc]

/-- A token that is read is a piece of input. -/
theorem ahead_readAt (hOrderly : job.Orderly) (serial : Nat) {position : Nat}
    (hLe : position ≤ job.text.size) : job.Ahead position [job.readAt serial position] := by
  rcases readAt_of_le hOrderly.range serial hLe with ⟨t, hToken, hRead⟩ | ⟨hNone, hRead⟩
  · rw [hRead]
    refine .inr ⟨⟨all_of_isLeaf rfl (measured_of_isLeaf rfl id), ?_,
      fun _ => hOrderly.token_kind hToken, ?_⟩,
      trivial⟩
    · have hWide : 0 < t.padding + t.size := (token?_width hToken).1
      rw [leaves_leaf, if_pos hWide]
      exact ⟨hToken, trivial⟩
    · intro hInner
      cases hInner
  · rw [hRead]
    exact .inl ⟨rfl, rfl, hNone, rfl⟩

theorem fits_inserted (position serial : Nat) {terminal : SymbolId}
    (hInsertable : terminal ∈ job.tables.insertable) :
    job.Fits position (.inserted serial terminal) where
  measured := all_of_isLeaf rfl (measured_of_isLeaf rfl fun _ => rfl)
  lexes := by
    rw [leaves_of_no_children rfl, if_neg (by simp [Subtree.inserted, total, info])]
    trivial
  kind _ := by
    simp only [Tables.insertable, List.mem_filter, List.mem_range'_1] at hInsertable
    exact Nat.ne_of_gt (Nat.lt_of_lt_of_le Nat.two_pos hInsertable.1.1)
  wide := by simp [isLeaf_inserted]

/-- Inserted tokens stand in front of input without taking any room. -/
theorem ahead_inserted (position : Nat) (ts us : List Subtree)
    (hInserted : ∀ t ∈ ts, ∃ serial, ∃ terminal ∈ job.tables.insertable,
      t = .inserted serial terminal) (h : job.Ahead position us) :
    job.Ahead position (ts ++ us) := by
  induction ts with
  | nil => exact h
  | cons t ts ih =>
      obtain ⟨serial, terminal, hInsertable, rfl⟩ := hInserted t (by simp)
      exact .inr ⟨fits_inserted position serial hInsertable,
        ih fun u hMem => hInserted u (by simp [hMem])⟩

/-- The first token of what fits is no end. -/
theorem Fits.leftmost_kind (hOrderly : job.Orderly) {position : Nat} {t : Subtree}
    (h : job.Fits position t) : (t.leftmost 0).1.kind ≠ endSymbol := by
  cases hLeaf : t.isLeaf with
  | true =>
      rw [leftmost_of_isLeaf hLeaf]
      exact h.kind hLeaf
  | false =>
      obtain ⟨rest, hLeaves⟩ := leaves_eq_leftmost t h.measured (h.wide hLeaf) 0
      have hLexes := h.lexes
      rw [hLeaves] at hLexes
      exact hOrderly.token_kind hLexes.1

/-- Everything that a queue will offer fits where it is offered. -/
def Faithful (job : ParseJob) (q : ReuseQueue) : Prop :=
  ∀ r, q.Behind r → ∀ t ts, r.ahead = t :: ts → r.isReusable r.start t = true →
    job.Fits (r.map r.start) t

theorem Faithful.behind {q r : ReuseQueue} (h : job.Faithful q) (hBehind : q.Behind r) :
    job.Faithful r :=
  fun p hLater => h p (hBehind.trans hLater)

/-- The tokens on the stack and the pending input are those of the text. -/
structure Reading (job : ParseJob) (s : ParseState) : Prop where
  sound : s.stack.Sound job.tables.kinds
  lexes : job.Lexes 0 s.stack.leaves
  ahead : job.Ahead s.stack.stop s.pending
  queue : ∀ q, s.queue = some q → job.Faithful q

theorem Reading.stop_eq {s : ParseState} (h : job.Reading s) :
    s.stack.stop = (s.stack.leaves.map Token.width).sum := h.sound.stop_eq

/-- The stack takes up what fits behind it. -/
theorem Reading.stacked {s r : ParseState} (h : job.Reading s)
    (hSound : r.stack.Sound job.tables.kinds) (ts : List Subtree)
    (hLeaves : r.stack.leaves = s.stack.leaves ++ leavesAll ts)
    (hMeasured : ∀ t ∈ ts, All (Measured job.tables.kinds) t)
    (hLexes : job.Lexes s.stack.stop (leavesAll ts))
    (hAhead : job.Ahead (s.stack.stop + width ts) r.pending)
    (hQueue : ∀ q, r.queue = some q → job.Faithful q) : job.Reading r where
  sound := hSound
  lexes := by
    rw [hLeaves, lexes_append, ← h.stop_eq, Nat.zero_add]
    exact ⟨h.lexes, hLexes⟩
  ahead := by
    rw [hSound.stop_eq, hLeaves, List.map_append, List.sum_append, ← h.stop_eq,
      width_leavesAll ts hMeasured]
    exact hAhead
  queue := hQueue

/-- The tokens that are pending end in the text, if the end of the input is not among them. -/
theorem Reading.front_le {s : ParseState} (h : job.Reading s)
    (hLast : ∀ t ∈ s.pending.getLast?, t.kind ≠ endSymbol) :
    s.stack.stop + width s.pending ≤ job.text.size := by
  have hStack := lexes_le_size h.lexes (Nat.zero_le _)
  rw [Nat.zero_add, ← h.stop_eq] at hStack
  exact h.ahead.front_le hLast hStack

/-- One move keeps all tokens in order. -/
theorem Reading.move (hOrderly : job.Orderly) {s r : ParseState} (hMove : job.Move s r)
    (h : job.Reading s) : job.Reading r := by
  cases hMove with
  | note => exact ⟨ParseStack.sound_noteDecision h.sound, h.lexes, h.ahead, h.queue⟩
  | read hLeaves hLast =>
      refine ⟨⟨h.sound.stacked, h.sound.openStop, h.sound.entries, h.sound.opened⟩, h.lexes, ?_,
        h.queue⟩
      exact h.ahead.append hLast (ahead_readAt hOrderly _ (h.front_le hLast))
  | offer q t ts hPending hQueue hAhead hStart hReusable =>
      refine ⟨h.sound, h.lexes, .inr ⟨?_, trivial⟩, ?_⟩
      · rw [← hStart]
        exact h.queue q hQueue q (.refl q) t ts hAhead hReusable
      · intro p hSome
        obtain rfl := Option.some.inj hSome
        exact (h.queue q hQueue).behind (q.behind_of_offer t)
  | advance q p hPending hQueue hBehind =>
      refine ⟨h.sound, h.lexes, h.ahead, ?_⟩
      intro p' hSome
      obtain rfl := Option.some.inj hSome
      exact (h.queue q hQueue).behind hBehind
  | drop t hPending hLeaf => exact ⟨h.sound, h.lexes, trivial, h.queue⟩
  | insert ts nextSerial hLeaves hInserted =>
      refine ⟨⟨h.sound.stacked, h.sound.openStop, h.sound.entries, h.sound.opened⟩, h.lexes, ?_,
        h.queue⟩
      exact ahead_inserted _ ts _ hInserted h.ahead
  | shift t ts next hPending hLeaf hShift =>
      have hKind : t.kind ≠ endSymbol := by
        intro hEnd
        exact hOrderly.stops s.stack.state next (hEnd ▸ hShift)
      obtain ⟨hFits, hAhead⟩ := Ahead.of_kind (hPending ▸ h.ahead) hKind
      have hPlain : Plain job.tables.kinds t := by
        intro _ hSplices
        have hWhole := hOrderly.plain t.kind (job.tables.isTerminal_of_action hShift (by simp))
        exact absurd (hWhole.symm.trans hSplices) (by simp)
      obtain ⟨hSound, hLeaves, -⟩ := ParseStack.sound_push h.sound next hFits.measured hPlain
      exact h.stacked hSound [t] (by simpa using hLeaves) (by simpa using hFits.measured)
        (by simpa using hFits.lexes) (by simpa using hAhead) h.queue
  | reuse t ts next hPending hLeaf hState hGoto =>
      have hFits : job.Fits s.stack.stop t ∧ job.Ahead (s.stack.stop + t.total) ts := by
        rcases hPending ▸ h.ahead with ⟨-, hIs, -⟩ | hFits
        · simp [hLeaf] at hIs
        · exact hFits
      have hPlain : Plain job.tables.kinds t := fun hNone =>
        absurd hNone (children_of_not_isLeaf hLeaf)
      obtain ⟨hSound, hLeaves, -⟩ := ParseStack.sound_push h.sound next hFits.1.measured hPlain
      exact h.stacked hSound [t] (by simpa using hLeaves) (by simpa using hFits.1.measured)
        (by simpa using hFits.1.lexes) (by simpa using hFits.2) fun p hSome => by
          obtain ⟨q, hQueue, rfl⟩ := Option.map_eq_some_iff.mp hSome
          exact (h.queue q hQueue).behind (.pass (.refl q))
  | reduce t ts rule info lookaheadStop hPending hReduce hRule =>
      obtain ⟨hSound, hLeaves⟩ := ParseStack.sound_reduce h.sound
        (fun k hKind => by simp [Tables.kinds, Tables.splices, hKind]) hOrderly.isHidden_errorSymbol info
        lookaheadStop
      exact h.stacked hSound [] (by simpa using hLeaves) (by simp) trivial
        (by simpa using h.ahead) h.queue
  | skip t ts hPending hLeaf hKind =>
      obtain ⟨hFits, hAhead⟩ := Ahead.of_kind (hPending ▸ h.ahead) hKind
      have hMeasured : ∀ u ∈ [t], All (Measured job.tables.kinds) u := by
        simpa using hFits.measured
      obtain ⟨hSound, hLeaves⟩ := ParseStack.sound_pushSkipped job.tables h.sound hMeasured
      exact h.stacked hSound [t] hLeaves hMeasured (by simpa using hFits.lexes)
        (by simpa using hAhead) h.queue
  | cut depth ts u us hPending =>
      obtain ⟨hLexes, hMeasured, hAhead⟩ := Ahead.split (hPending ▸ h.ahead)
      obtain ⟨hPopped, hSplit, hPieces, hOpen⟩ := ParseStack.sound_pop h.sound depth
      have hNoted := ParseStack.sound_noteDecision hPopped
      have hAll : ∀ u ∈ (s.stack.pop depth).1 ++ ts, All (Measured job.tables.kinds) u := by
        simpa [or_imp, forall_and] using And.intro hPieces hMeasured
      refine h.stacked ?_ ts ?_ hMeasured hLexes hAhead h.queue
      · dsimp only
        split
        · exact hNoted
        · exact (ParseStack.sound_pushSkipped job.tables hNoted hAll).1
      · dsimp only
        split
        · rename_i hNone
          obtain ⟨hFirst, rfl⟩ : (s.stack.pop depth).1 = [] ∧ ts = [] := by simpa using hNone
          rw [hSplit, hFirst]
          simp
        · obtain ⟨-, hLeaves⟩ := ParseStack.sound_pushSkipped job.tables hNoted hAll
          rw [hLeaves, ParseStack.leaves_noteDecision, hSplit, leavesAll_append, List.append_assoc]

/-- Moves keep the parser reading: the leaves on the stack are those of the text so far. -/
theorem Reading.moves (hOrderly : job.Orderly) {s r : ParseState} (hMoves : job.Moves s r)
    (h : job.Reading s) : job.Reading r :=
  keep_of_moves (fun hMove hBefore => hBefore.move hOrderly hMove) hMoves h

/-- It starts with nothing read. -/
theorem reading_start {queue : Option ReuseQueue} (hQueue : ∀ q, queue = some q → job.Faithful q)
    (nextSerial : Nat) : job.Reading (start queue nextSerial) where
  sound := ParseStack.sound_empty nextSerial
  lexes := trivial
  ahead := trivial
  queue := hQueue

/-- However a parse ends, all tokens of the text are on its stack. -/
theorem Reading.outcome (hOrderly : job.Orderly) {s : ParseState} (h : job.Reading s)
    {accepted : Bool} {stack : ParseStack} (hOutcome : job.Outcome s accepted stack) :
    stack.Sound job.tables.kinds ∧ stack.leaves = s.stack.leaves
      ∧ job.token? s.stack.stop = none := by
  cases hOutcome with
  | accepted t ts hPending hAccept =>
      refine ⟨h.sound, rfl, ?_⟩
      have hKind := hOrderly.accepts _ _ hAccept
      rcases hPending ▸ h.ahead with ⟨-, -, hNone, -⟩ | ⟨hFits, -⟩
      · exact hNone
      · exact absurd hKind (hFits.leftmost_kind hOrderly)
  | abandoned t ts hPending hLeaf hKind =>
      obtain ⟨hSound, hLeaves, hPieces, hNone⟩ := ParseStack.sound_popAll h.sound
      obtain ⟨hSkipped, hAll⟩ := ParseStack.sound_pushSkipped job.tables hSound hPieces
      refine ⟨?_, ?_, ?_⟩
      · split
        · exact hSound
        · exact hSkipped
      · split
        · rename_i hEmpty
          rw [hNone, hLeaves, List.isEmpty_iff.mp hEmpty]
          rfl
        · rw [hAll, hNone, hLeaves]
          rfl
      · rcases hPending ▸ h.ahead with ⟨-, -, hEnd, -⟩ | ⟨hFits, -⟩
        · exact hEnd
        · exact absurd hKind (hFits.kind hLeaf)

/-- The tokens below the root of a parse are those of the text. -/
theorem reading_parseWithin (hOrderly : job.Orderly) {limit : Nat} {queue : Option ReuseQueue}
    (hQueue : ∀ q, queue = some q → job.Faithful q) {nextSerial : Nat} {made : Subtree × Nat}
    (hParse : job.parseWithin limit queue nextSerial = some made) :
    job.Lexes 0 (leavesAll made.1.children)
      ∧ job.token? (width made.1.children) = none
      ∧ ∀ t ∈ made.1.children, All (Measured job.tables.kinds) t := by
  obtain ⟨r, accepted, stack, -, hMoves, hOutcome, rfl⟩ := parseWithin_moves hOrderly.stops hParse
  have hReading := (reading_start hQueue nextSerial).moves hOrderly hMoves
  obtain ⟨hSound, hLeaves, hEnd⟩ := hReading.outcome hOrderly hOutcome
  obtain ⟨hRoot, hMeasured⟩ := ParseStack.sound_toRoot hSound rfl hOrderly.start_ne_errorSymbol
    hOrderly.isHidden_errorSymbol job.text.size accepted
  rw [← width_leavesAll _ hMeasured, hRoot, hLeaves, ← hReading.stop_eq]
  exact ⟨hReading.lexes, hEnd, hMeasured⟩

end ParseJob
end IncrementalParsing
