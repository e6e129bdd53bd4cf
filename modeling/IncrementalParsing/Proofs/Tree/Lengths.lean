import IncrementalParsing.Proofs.Tree.Edits
import IncrementalParsing.Proofs.Tree.Extents

/-! Trees by the lengths of their texts. What a tree says of its text's length and of its offsets is
exact as long as every text on the way is one that offsets reach. Nothing is asked of the bytes: an edit
may be recorded that is not the one that was made. -/
namespace IncrementalParsing
open Subtree

namespace Tree
variable {tree edited next : Tree} {text old : ByteArray} {e : Edit} {es : List Edit}

/-- The trees whose texts offsets reach: what parsers with such lexers make of any texts, edited in any
way and parsed again any number of times. -/
inductive SizedWith (lexers : Lexer → Prop) : Tree → Prop
  | parse (p : Parser) (hLexer : lexers p.language.lexer) {text : ByteArray} {tree : Tree}
      (hParse : p.parse text = some tree) (hSize : text.size < Offset.bound) : SizedWith lexers tree
  | edit {tree edited : Tree} (h : SizedWith lexers tree) {e : Edit}
      (hEdit : tree.applyEdit e = .ok edited)
      (hSize : Edit.exactLength tree.length [e] < Offset.bound) : SizedWith lexers edited
  | reparse {edited tree : Tree} (h : SizedWith lexers edited) (p : Parser)
      (hLexer : lexers p.language.lexer) {text : ByteArray}
      (hReparse : p.reparse edited text = .ok tree) : SizedWith lexers tree

/-- The trees whose texts offsets reach, whatever the lexers find. -/
abbrev Sized : Tree → Prop := SizedWith fun _ => True

theorem SizedWith.sized {lexers : Lexer → Prop} (h : tree.SizedWith lexers) : tree.Sized := by
  induction h with
  | parse p _ hParse hSize => exact .parse p trivial hParse hSize
  | edit _ hEdit hSize ih => exact .edit ih hEdit hSize
  | reparse _ p _ hReparse ih => exact .reparse ih p trivial hReparse

/-- The nodes of the tree are those of a tree of the text `old`, and its edit leads on from there. -/
structure Stems (tree : Tree) (old : ByteArray) : Prop where
  spans : ({ tree with edit := none } : Tree).Spans old
  bounded : old.size < Offset.bound
  reached : tree.length < Offset.bound
  resized : Edit.Resized tree.edit old.size tree.length

/-- Where an offset of the parsed text lies now, as long as no sum and no difference on the way leaves
the range of offsets. -/
def image? (t : Tree) (offset : Nat) : Option Nat :=
  match t.edit with
  | some edit => edit.image? offset
  | none => some offset

/-- What is pending on a tree does not bear on where its nodes start. -/
theorem Stems.laid (h : tree.Stems old) : tree.Laid := h.spans.all_laid

theorem Stems.image?_eq (h : tree.Stems old) {a : Nat} (hEnd : a ≤ old.size) :
    tree.image? a = some (tree.image a) := by
  have hResized := h.resized
  rw [image?, image]
  cases hEdit : tree.edit with
  | none => rfl
  | some e =>
      rw [hEdit] at hResized
      exact Edit.Resizes.image?_eq hResized h.reached hEnd

/-- The tree records the edit, and nothing that is computed on the way leaves the range of offsets: not
the length, not the edit that is kept, and not the place of any offset of the text that is edited or of
the one that was parsed. -/
structure Records (tree : Tree) (e : Edit) (next : Tree) : Prop where
  accepted : tree.applyEdit e = .ok next
  length : e.lengthAfter? tree.length = some next.length
  kept : tree.edit.elim (some e) (·.andThen? e) = next.edit
  moved : ∀ a ≤ tree.length, e.image? a = some (e.image a)
  image : ∀ a ≤ tree.root.total, next.image? a = some (next.image a)

/-- An edit whose text offsets reach is recorded as it is. -/
theorem Stems.applyEdit (h : tree.Stems old) (hEdit : tree.applyEdit e = .ok next)
    (hFits : Edit.exactLength tree.length [e] < Offset.bound) :
    next.Stems old ∧ tree.Records e next ∧ e.Resizes tree.length next.length := by
  obtain ⟨hCheck, hNext⟩ := applyEdit_eq_ok_iff.mp hEdit
  have hResizes := Edit.resizes_of_check hCheck
  have hReached : tree.length - e.oldEnd + e.newEnd < Offset.bound := by
    rw [hResizes.exactLength_cons, Edit.exactLength_nil] at hFits
    exact Int.ofNat_lt.mp hFits
  have hLength : next.length = tree.length - e.oldEnd + e.newEnd := by
    rw [hNext]
    exact hResizes.lengthAfter_eq hReached
  rw [← hLength] at hResizes hReached
  have hKept : next.edit = some (tree.edit.elim e (·.andThen e)) := by rw [hNext]
  -- From here on everything is about three lengths: of the parsed text, before the edit and behind it.
  have hStems : next.Stems old := by
    refine ⟨?_, h.bounded, hReached, ?_⟩
    · obtain ⟨hParsed, hPadding, hTotal, hLaid, hMeasured⟩ := h.spans
      rw [hNext]
      exact ⟨rfl, hPadding, hTotal, hLaid, hMeasured⟩
    · rw [hKept]
      exact h.resized.andThen hResizes h.bounded hReached
  refine ⟨hStems, ⟨hEdit, hResizes.lengthAfter?_eq hReached, ?_, ?_, ?_⟩, hResizes⟩
  · rw [hKept]
    exact h.resized.andThen?_eq hResizes h.bounded hReached
  · intro a hEnd
    exact hResizes.image?_eq hReached hEnd
  · intro a hEnd
    exact hStems.image?_eq (hEnd.trans h.spans.total.le)

end Tree

/-- A run over a text that offsets reach makes a tree of this text. -/
theorem Parser.stems_of_runWith {p : Parser} {text : ByteArray} {tree : Tree} {queue : Option ReuseQueue}
    {nextSerial : Nat} (hSize : text.size < Offset.bound)
    (hQueue : ∀ q, queue = some q → ∀ u ∈ q.ahead, All (Measured bare) u)
    (hMade : p.runWith text queue nextSerial = some tree) : tree.Stems text := by
  have hSpans := p.spans_of_runWith hQueue hMade
  obtain ⟨made, -, rfl⟩ := runWith_eq_some hMade
  exact ⟨hSpans, hSize, hSize, rfl⟩

namespace Tree
variable {tree edited next : Tree} {text old : ByteArray} {e : Edit} {es : List Edit}

/-- Trees whose texts offsets reach have nodes of such a text, and if tokens end where offsets are, these
lie in it. -/
theorem SizedWith.stems {lexers : Lexer → Prop} (h : tree.SizedWith lexers) :
    ∃ old, tree.Stems old
      ∧ ((∀ l, lexers l → l.InRange) → width tree.root.children ≤ old.size) := by
  induction h with
  | @parse p hLexer text tree hParse hSize =>
      refine ⟨text, p.stems_of_runWith hSize (by simp) hParse, fun hAll => ?_⟩
      obtain ⟨made, hMade, rfl⟩ := Parser.runWith_eq_some hParse
      exact (p.job text).suits_bare.width_parseWithin (hAll _ hLexer) (by simp) hMade
  | edit _ hEdit hSize ih =>
      obtain ⟨old, hStems, hInside⟩ := ih
      exact ⟨old, (hStems.applyEdit hEdit hSize).1, (root_applyEdit hEdit).1 ▸ hInside⟩
  | @reparse edited tree _ p hLexer text hReparse ih =>
      obtain ⟨old, hStems, hInside⟩ := ih
      obtain ⟨hLength, hRun⟩ := Parser.reparse_eq_ok hReparse
      have hResized := hStems.resized
      have hSize := hStems.reached
      rw [hLength] at hResized hSize
      have hMeasured : ∀ u ∈ edited.root.children, All (Measured bare) u := hStems.spans.measured
      refine ⟨text, p.stems_of_runWith hSize (p.ahead_queueOf hMeasured) hRun, fun hAll => ?_⟩
      -- The new text has the length that the edited tree says, so nothing is offered that ends behind it.
      have hLies : (ReuseQueue.ofRoot edited.root edited.edit).Lies bare old.size :=
        ⟨hMeasured, (Nat.zero_add _).trans_le (hInside hAll)⟩
      obtain ⟨made, hMade, rfl⟩ := Parser.runWith_eq_some hRun
      refine (p.job text).suits_bare.width_parseWithin (hAll _ hLexer) (fun q hQueue => ?_) hMade
      obtain rfl := Parser.queueOf_eq_some hQueue
      exact ⟨hMeasured, hLies.offers hResized hSize⟩

/-- The tree records the edits one after the other, and nothing that is computed on the way leaves the
range of offsets. -/
inductive RecordsAll : Tree → List Edit → Tree → Prop
  | nil {tree : Tree} : RecordsAll tree [] tree
  | cons {tree next edited : Tree} {e : Edit} {es : List Edit} (hFirst : tree.Records e next)
      (hRest : RecordsAll next es edited) : RecordsAll tree (e :: es) edited

/-- Edits whose texts offsets reach are recorded as they are. -/
theorem Stems.applyEdits (h : tree.Stems old) (hAccepted : tree.applyEdits es = .ok edited)
    (hFits : ∀ front, front <+: es → Edit.exactLength tree.length front < Offset.bound) :
    edited.Stems old ∧ tree.RecordsAll es edited
      ∧ (edited.length : Int) = Edit.exactLength tree.length es := by
  induction es generalizing tree with
  | nil =>
      obtain rfl := Except.ok.inj hAccepted
      exact ⟨h, .nil, (Edit.exactLength_nil _).symm⟩
  | cons e es ih =>
      obtain ⟨next, hEdit, hRest⟩ := applyEdits_cons_eq_ok.mp hAccepted
      obtain ⟨hNext, hFirst, hResizes⟩ := h.applyEdit hEdit (hFits [e] (by simp))
      obtain ⟨hLast, hRecords, hLength⟩ := ih hNext hRest fun front hFront => by
        rw [← hResizes.exactLength_cons]
        exact hFits _ (List.cons_prefix_cons.mpr ⟨rfl, hFront⟩)
      exact ⟨hLast, .cons hFirst hRecords, hLength.trans (hResizes.exactLength_cons es).symm⟩

/-- What is recorded without leaving the range of offsets are edits whose texts offsets reach. -/
theorem RecordsAll.exactLength_lt (h : tree.RecordsAll es edited) (hLength : tree.length < Offset.bound) :
    ∀ front, front <+: es → Edit.exactLength tree.length front < Offset.bound := by
  induction h with
  | nil =>
      intro front hFront
      rw [List.prefix_nil.mp hFront, Edit.exactLength_nil]
      exact Int.ofNat_lt.mpr hLength
  | @cons tree next edited e es hFirst _ ih =>
      intro front hFront
      cases front with
      | nil =>
          rw [Edit.exactLength_nil]
          exact Int.ofNat_lt.mpr hLength
      | cons f front =>
          obtain ⟨rfl, hRest⟩ := List.cons_prefix_cons.mp hFront
          have hResizes := Edit.resizes_of_check (applyEdit_eq_ok_iff.mp hFirst.accepted).1
          obtain ⟨-, hReached, hSame⟩ := Offset.shift?_eq_some_iff.mp hFirst.length
          rw [hResizes.exactLength_cons, hSame]
          exact ih (hSame ▸ hReached) front hRest

/-- Accepted edits are recorded as they are if and only if offsets reach every text on the way. Then
the length is that of the parsed text without what the edits take out and with what they put in. -/
theorem records_exactly_iff (h : tree.Sized) (hAccepted : tree.applyEdits es = .ok edited) :
    (∀ front, front <+: es → Edit.exactLength tree.length front < Offset.bound) ↔
      tree.RecordsAll es edited ∧ edited.length < Offset.bound
        ∧ (edited.length : Int) = Edit.exactLength tree.length es := by
  obtain ⟨old, hStems, -⟩ := h.stems
  constructor
  · intro hFits
    obtain ⟨hLast, hRecords, hLength⟩ := hStems.applyEdits hAccepted hFits
    exact ⟨hRecords, hLast.reached, hLength⟩
  · rintro ⟨hRecords, -⟩
    exact hRecords.exactLength_lt hStems.reached

/-- A label and damage, in a text of five bytes. -/
theorem exists_sized : ∃ tree : Tree, tree.SizedWith Lexer.InRange ∧ tree.length = 5 ∧ tree.edit = none := by
  have hSome : (Labels.parser.parse "a5:x5".toUTF8).isSome = true := by decide +kernel
  have hSize : "a5:x5".toUTF8.size = 5 := by decide +kernel
  obtain ⟨tree, hParse⟩ := Option.isSome_iff_exists.mp hSome
  refine ⟨tree, .parse Labels.parser Labels.inRange_lexer hParse (by decide +kernel), ?_,
    Parser.edit_of_runWith hParse⟩
  obtain ⟨made, -, rfl⟩ := Parser.runWith_eq_some hParse
  exact hSize

/-- Three edits of such a text. The second one changes what the first one put in and a byte in front of
it. -/
theorem exists_edited : ∃ tree edited : Tree, tree.SizedWith Lexer.InRange ∧ tree.edit = none ∧ tree.length = 5
    ∧ tree.applyEdits [⟨5, 5, 7⟩, ⟨4, 6, 5⟩, ⟨0, 1, 2⟩] = .ok edited
    ∧ ∀ front, front <+: [⟨5, 5, 7⟩, ⟨4, 6, 5⟩, ⟨0, 1, 2⟩] →
      Edit.exactLength tree.length front < Offset.bound := by
  obtain ⟨tree, hSized, hLength, hParsed⟩ := exists_sized
  obtain ⟨first, hFirst, hNext⟩ := @exists_applyEdit _ ⟨5, 5, 7⟩ _ hLength rfl
  obtain ⟨second, hSecond, hNext⟩ := @exists_applyEdit _ ⟨4, 6, 5⟩ _ hNext rfl
  obtain ⟨third, hThird, -⟩ := @exists_applyEdit _ ⟨0, 1, 2⟩ _ hNext rfl
  have hAccepted : tree.applyEdits [⟨5, 5, 7⟩, ⟨4, 6, 5⟩, ⟨0, 1, 2⟩] = .ok third :=
    applyEdits_cons_eq_ok.mpr ⟨first, hFirst, applyEdits_cons_eq_ok.mpr ⟨second, hSecond,
      applyEdits_cons_eq_ok.mpr ⟨third, hThird, rfl⟩⟩⟩
  have hAll : ∀ front ∈ ([⟨5, 5, 7⟩, ⟨4, 6, 5⟩, ⟨0, 1, 2⟩] : List Edit).inits,
      Edit.exactLength 5 front < Offset.bound := by decide
  refine ⟨tree, third, hSized, hParsed, hLength, hAccepted, fun front hFront => ?_⟩
  rw [hLength]
  exact hAll front ((List.mem_inits _ _).mpr hFront)

/-- Two bytes are put in at the end, then two of the last three are taken out, and one in front. -/
theorem records_exactly_three : ∃ tree edited : Tree,
    tree.Sized ∧ tree.applyEdits [⟨5, 5, 7⟩, ⟨4, 6, 5⟩, ⟨0, 1, 2⟩] = .ok edited
      ∧ tree.RecordsAll [⟨5, 5, 7⟩, ⟨4, 6, 5⟩, ⟨0, 1, 2⟩] edited ∧ edited.length = 7 := by
  obtain ⟨tree, edited, hSized, -, hLength, hAccepted, hFits⟩ := exists_edited
  obtain ⟨hRecords, -, hExact⟩ := (records_exactly_iff hSized.sized hAccepted).mp hFits
  have hSeven : Edit.exactLength 5 [⟨5, 5, 7⟩, ⟨4, 6, 5⟩, ⟨0, 1, 2⟩] = 7 := by decide
  rw [hLength, hSeven] at hExact
  exact ⟨tree, edited, hSized.sized, hAccepted, hRecords, Int.ofNat_inj.mp hExact⟩

/-- An insertion of as many bytes as an offset can count is accepted, and the length goes around. -/
theorem length_wraps_of_insertion : ∃ tree edited : Tree,
    tree.Sized ∧ tree.length = 5 ∧ tree.applyEdit ⟨0, 0, Offset.bound - 1⟩ = .ok edited
      ∧ edited.length = 4 ∧ Edit.exactLength tree.length [⟨0, 0, Offset.bound - 1⟩] = Offset.bound + 4
      ∧ Edit.lengthAfter? ⟨0, 0, Offset.bound - 1⟩ tree.length = none := by
  obtain ⟨tree, hSized, hLength, -⟩ := exists_sized
  obtain ⟨edited, hEdit, hAfter⟩ := @exists_applyEdit _ ⟨0, 0, Offset.bound - 1⟩ _ hLength rfl
  have hExact : Edit.exactLength 5 [⟨0, 0, Offset.bound - 1⟩] = Offset.bound + 4 := by decide
  have hNone : Edit.lengthAfter? ⟨0, 0, Offset.bound - 1⟩ 5 = none := by decide
  rw [← hLength] at hExact hNone
  exact ⟨tree, edited, hSized.sized, hLength, hEdit, hAfter, hExact, hNone⟩

end Tree
end IncrementalParsing
