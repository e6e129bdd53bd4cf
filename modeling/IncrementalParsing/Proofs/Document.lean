import IncrementalParsing.Document
import IncrementalParsing.Proofs.Text.Edit
import IncrementalParsing.Proofs.Tree.Grammatical

/-! Documents through any calls. Text, lines and tree always go together, so an edit that fits the
text fits the tree as well. A call answers and leaves a document behind, whatever its answer is, and one
that is refused has written nothing. -/
namespace IncrementalParsing
open Text

/-- The tree of a text that has not been edited since. Its root covers the text. -/
structure Tree.Describes (t : Tree) (language : Language) (text : ByteArray) : Prop where
  language : t.language = language
  length : t.length = text.size
  edit : t.edit = none
  first : t.rootNode.startOffset = 0
  last : t.rootNode.endOffset = text.size

theorem Edit.check_of_apply {e : Edit} {old replacement new : ByteArray}
    (hApply : e.apply old replacement = .ok new) : e.check old.size = .ok () := by
  unfold apply at hApply
  cases hCheck : e.check old.size with
  | error cause => simp [hCheck, bind, Except.bind] at hApply
  | ok done => rfl

/-- An edit that is applied puts its replacement in the place of its range. -/
theorem Edit.eq_of_apply {e : Edit} {old replacement new : ByteArray}
    (hApply : e.apply old replacement = .ok new) :
    new = old.extract 0 e.start ++ replacement ++ old.extract e.oldEnd old.size := by
  have hCheck := check_of_apply hApply
  unfold apply at hApply
  simp only [hCheck, bind, Except.bind] at hApply
  split at hApply
  · simp [throw, throwThe, MonadExceptOf.throw] at hApply
  · exact (Except.ok.inj hApply).symm

/-- Whatever a parse makes describes its text. -/
theorem Parser.describes_of_runWith {p : Parser} {text : ByteArray} {queue : Option ReuseQueue}
    {nextSerial : Nat} {tree : Tree} (hRun : p.runWith text queue nextSerial = some tree) :
    tree.Describes p.language text := by
  obtain ⟨made, hMade, rfl⟩ := runWith_eq_some hRun
  simp only [ParseJob.parseWithin] at hMade
  obtain ⟨⟨accepted, stack⟩, -, rfl⟩ := Option.map_eq_some_iff.mp hMade
  refine ⟨rfl, rfl, rfl, rfl, ?_⟩
  change 0 + (0 + text.size) = text.size
  omega

/-- A tree takes an edit that its text takes, and is as long as the new text then. -/
theorem Tree.Describes.applyEdit {t : Tree} {language : Language} {old replacement new : ByteArray}
    (h : t.Describes language old) {edit : Edit} (hApply : edit.apply old replacement = .ok new)
    (hFits : new.size < Offset.bound) :
    ∃ edited, t.applyEdit edit = .ok edited ∧ edited.language = language
      ∧ edited.length = new.size := by
  have hLeads := Edit.leads_of_apply hApply
  have hSizes := hLeads.sizes
  have hOld := hLeads.oldRange
  have hCheck : edit.check t.length = .ok () := by
    rw [h.length]
    exact Edit.check_of_apply hApply
  have hLength : edit.lengthAfter t.length = new.size := by
    rw [h.length, Edit.lengthAfter, Offset.shift_eq hOld.2 (by omega)]
    omega
  rw [Tree.applyEdit, hCheck]
  exact ⟨_, rfl, h.language, hLength⟩

/-- Once an edit fits the text, the next tree is only missing if its parse does not come to an end. -/
theorem Parser.parseIncremental_cases {p : Parser} {t : Tree} {old replacement new : ByteArray}
    (h : t.Describes p.language old) {edit : Edit} (hApply : edit.apply old replacement = .ok new)
    (hFits : new.size < Offset.bound) :
    p.parseIncremental t edit new = .error .unfinished
      ∨ ∃ tree, p.parseIncremental t edit new = .ok tree ∧ tree.Describes p.language new := by
  obtain ⟨edited, hEdited, hLanguage, hLength⟩ := h.applyEdit hApply hFits
  cases hRun : p.runWith new (p.queueOf edited) (max p.nextSerial edited.nextSerial) with
  | none =>
      left
      rw [parseIncremental, hEdited]
      dsimp only
      unfold reparse
      rw [if_neg (by simp [hLanguage]), if_neg (by simp [hLength])]
      unfold queueOf at hRun
      dsimp only
      rw [hRun]
  | some tree =>
      right
      refine ⟨tree, ?_, describes_of_runWith hRun⟩
      rw [parseIncremental, hEdited]
      exact reparse_eq_of_run hLanguage hLength hRun

namespace Document

/-- An edit is refused by the text or by the tree, or it writes all that a document has. -/
theorem edit_run (d : Document) (edit : Edit) (replacement : ByteArray) :
    (Document.edit edit replacement).run.run d = match edit.apply d.text replacement with
      | .error cause => (.error (.invalidEdit cause), d)
      | .ok text =>
          match d.parser.parseIncremental d.tree edit text with
          | .error (.invalidEdit cause) => (.error (.invalidEdit cause), d)
          | .error .unfinished => (.error .unfinished, d)
          | .ok tree => (.ok (), ⟨text, .ofText text, tree, d.parser.after tree⟩) := by
  rw [Document.edit, run_bind, run_get]
  dsimp only
  cases edit.apply d.text replacement with
  | error cause => rfl
  | ok text =>
      dsimp only
      cases d.parser.parseIncremental d.tree edit text with
      | ok tree => rfl
      | error cause => cases cause <;> rfl

/-- A change is refused for its points, or it is an edit. -/
theorem change_run (d : Document) (start stop : Point) (replacement : String) :
    (change start stop replacement).run.run d = match d.lines.offset start, d.lines.offset stop with
      | none, _ => (.error (.pointOutOfRange start), d)
      | some _, none => (.error (.pointOutOfRange stop), d)
      | some first, some last =>
          if last < first then (.error (.invertedRange start stop), d)
          else (Document.edit (.replace first last replacement.toUTF8.size)
            replacement.toUTF8).run.run d := by
  rw [change, run_bind, run_get]
  dsimp only
  cases d.lines.offset start with
  | none => rfl
  | some first =>
      dsimp only
      rw [run_bind, run_get]
      dsimp only
      cases d.lines.offset stop with
      | none => rfl
      | some last =>
          dsimp only
          split <;> rfl

/-- A text that is not parsed to its end has been written, and so have its lines. -/
theorem replace_run (d : Document) (text : ByteArray) :
    (replace text).run.run d = match d.parser.parse text with
      | none => (.error .unfinished, { d with text, lines := .ofText text })
      | some tree => (.ok (), ⟨text, .ofText text, tree, d.parser.after tree⟩) := by
  rw [replace, run_bind, run_modify]
  dsimp only
  rw [run_bind, run_modify]
  dsimp only
  rw [run_bind, run_get]
  dsimp only
  cases d.parser.parse text <;> rfl

theorem outcome_eq_ok {d next : Document} {m : Revise Unit} :
    d.outcome m = .ok next ↔ m.run.run d = (.ok (), next) := by
  rw [outcome]
  rcases m.run.run d with ⟨cause | ⟨⟩, e⟩
  · constructor <;> (intro h; cases h)
  · constructor <;> (intro h; cases h; rfl)

/-- What users do to a document. -/
inductive Call where
  | change (start stop : Point) (replacement : String)
  | edit (edit : Edit) (replacement : ByteArray)
  | replace (text : ByteArray)

/-- The call, step by step. -/
def Call.steps : Call → Revise Unit
  | .change start stop replacement => Document.change start stop replacement
  | .edit e replacement => Document.edit e replacement
  | .replace text => Document.replace text

/-- The answer to a call, with the document that it leaves behind. -/
def call (d : Document) (c : Call) : Except ChangeError Unit × Document := c.steps.run.run d

/-- The document after a call, whatever its answer is. -/
def after (d : Document) (c : Call) : Document := (d.call c).2

/-- The text that an edit would make. -/
def edited? (d : Document) (edit : Edit) (replacement : ByteArray) : Option ByteArray :=
  (edit.apply d.text replacement).toOption

/-- The text that a call would make by an edit. -/
def spliced? (d : Document) : Call → Option ByteArray
  | .change start stop replacement =>
      match d.lines.offset start, d.lines.offset stop with
      | some first, some last =>
          let bytes := replacement.toUTF8
          d.edited? (.replace first last bytes.size) bytes
      | _, _ => none
  | .edit edit replacement => d.edited? edit replacement
  | .replace _ => none

/-- The parse of a call comes to an end. -/
def ends (d : Document) (c : Call) : Bool :=
  match (d.call c).1 with
  | .error .unfinished => false
  | _ => true

/-- Calls one after the other, on which parsing comes to an end. The texts that are spliced are no
longer than offsets can count. -/
def Runs : Document → List Call → Prop
  | _, [] => True
  | d, c :: cs =>
      (∀ text ∈ d.spliced? c, text.size < Offset.bound) ∧ d.ends c = true ∧ Runs (d.after c) cs

instance decidableRuns : (d : Document) → (calls : List Call) → Decidable (d.Runs calls)
  | _, [] => .isTrue trivial
  | d, c :: cs =>
      haveI := decidableRuns (d.after c) cs
      inferInstanceAs (Decidable (_ ∧ _ ∧ _))

/-- Text, lines and tree of a document go together. -/
structure Consistent (d : Document) : Prop where
  lines : d.lines = .ofText d.text
  tree : d.tree.Describes d.parser.language d.text

variable {d : Document}

theorem consistent_openText {p : Parser} {text : ByteArray} (hOpen : openText p text = some d) :
    d.Consistent ∧ d.text = text := by
  rw [openText] at hOpen
  obtain ⟨tree, hParse, rfl⟩ := Option.map_eq_some_iff.mp hOpen
  have hTree : tree.Describes p.language text := Parser.describes_of_runWith hParse
  exact ⟨⟨rfl, hTree⟩, rfl⟩

/-- How a document answers an edit. -/
structure Edits (d : Document) (edit : Edit) (replacement : ByteArray) : Prop where
  /-- An edit is refused just for the fault that applying it to the text shows. -/
  refused : ∀ fault, d.applyEdit edit replacement = .error (.invalidEdit fault)
    ↔ edit.apply d.text replacement = .error fault
  /-- Otherwise there is only no answer when the parse does not come to an end. -/
  unfinished : ∀ cause, d.applyEdit edit replacement = .error cause →
    cause = .unfinished ∨ ∃ fault, cause = .invalidEdit fault
  /-- An edit that is not refused replaces its range. -/
  spliced : ∀ next, d.applyEdit edit replacement = .ok next →
    next.text = d.text.extract 0 edit.start ++ replacement ++ d.text.extract edit.oldEnd d.text.size

/-- A document takes an edit just when its text does, and stays consistent. -/
theorem Consistent.applyEdit (h : d.Consistent) {edit : Edit} {replacement : ByteArray}
    (hFits : ∀ text ∈ d.edited? edit replacement, text.size < Offset.bound) :
    d.Edits edit replacement
      ∧ ∀ next, d.applyEdit edit replacement = .ok next → next.Consistent := by
  cases hApply : edit.apply d.text replacement with
  | error fault =>
      have hAnswer : d.applyEdit edit replacement = .error (.invalidEdit fault) := by
        rw [Document.applyEdit, outcome, edit_run, hApply]
      exact ⟨⟨by simp [hAnswer, hApply], by simp [hAnswer], by simp [hAnswer]⟩, by simp [hAnswer]⟩
  | ok text =>
      have hSize : text.size < Offset.bound := hFits text (by simp [edited?, hApply, Except.toOption])
      rcases Parser.parseIncremental_cases h.tree hApply hSize with hNone | ⟨tree, hSome, hTree⟩
      · have hAnswer : d.applyEdit edit replacement = .error .unfinished := by
          simp only [Document.applyEdit, outcome, edit_run, hApply, hNone]
        exact ⟨⟨by simp [hAnswer, hApply], by simp [hAnswer], by simp [hAnswer]⟩, by simp [hAnswer]⟩
      · have hAnswer : d.applyEdit edit replacement
            = .ok ⟨text, .ofText text, tree, d.parser.after tree⟩ := by
          simp only [Document.applyEdit, outcome, edit_run, hApply, hSome]
        have hNext : (⟨text, .ofText text, tree, d.parser.after tree⟩ : Document).Consistent :=
          ⟨rfl, hTree⟩
        refine ⟨⟨by simp [hAnswer, hApply], by simp [hAnswer], ?_⟩, ?_⟩
        · intro next hIs
          obtain rfl := Except.ok.inj (hAnswer.symm.trans hIs)
          exact Edit.eq_of_apply hApply
        · intro next hIs
          obtain rfl := Except.ok.inj (hAnswer.symm.trans hIs)
          exact hNext

/-- A change between two points is refused and nothing is written, or it is an edit. -/
theorem change_cases (d : Document) (start stop : Point) (replacement : String) :
    (∃ cause, (change start stop replacement).run.run d = (.error cause, d))
      ∨ ∃ first last, d.lines.offset start = some first ∧ d.lines.offset stop = some last
        ∧ (change start stop replacement).run.run d
          = (Document.edit (.replace first last replacement.toUTF8.size) replacement.toUTF8).run.run d := by
  rw [change_run]
  split
  · exact .inl ⟨_, rfl⟩
  · exact .inl ⟨_, rfl⟩
  · rename_i first last hFirst hLast
    split
    · exact .inl ⟨_, rfl⟩
    · exact .inr ⟨first, last, hFirst, hLast, rfl⟩

/-- A call that is answered has made an edit, the one that it was to splice by, or opened another text. -/
theorem call_eq_ok {next : Document} {c : Call} (hNext : d.call c = (.ok (), next)) :
    (∃ edit replacement, d.applyEdit edit replacement = .ok next
        ∧ d.spliced? c = d.edited? edit replacement)
      ∨ ∃ text, openText d.parser text = some next := by
  cases c with
  | change start stop replacement =>
      rw [call, Call.steps] at hNext
      rcases d.change_cases start stop replacement with ⟨cause, hRefused⟩ | ⟨first, last, hFirst, hLast, hSame⟩
      · rw [hRefused] at hNext
        cases hNext
      · exact .inl ⟨_, _, outcome_eq_ok.mpr (hSame.symm.trans hNext), by simp only [spliced?, hFirst, hLast]⟩
  | edit edit replacement => exact .inl ⟨edit, replacement, outcome_eq_ok.mpr hNext, rfl⟩
  | replace text =>
      rw [call, Call.steps, replace_run] at hNext
      cases hParse : d.parser.parse text with
      | none =>
          rw [hParse] at hNext
          cases hNext
      | some tree =>
          rw [hParse] at hNext
          obtain rfl := congrArg Prod.snd hNext
          exact .inr ⟨text, by rw [openText, hParse]; rfl⟩

/-- An edit that fails has written nothing. -/
theorem edit_refused {edit : Edit} {replacement : ByteArray} {cause : ChangeError}
    (hRefused : ((Document.edit edit replacement).run.run d).1 = .error cause) :
    ((Document.edit edit replacement).run.run d).2 = d := by
  rw [edit_run] at hRefused ⊢
  split at hRefused
  · rfl
  · split at hRefused
    · rfl
    · rfl
    · cases hRefused

/-- A call that is refused has written nothing. Only a text whose parse does not come to an end has been
written by then. -/
theorem after_of_refused {c : Call} {cause : ChangeError} (hRefused : (d.call c).1 = .error cause)
    (hCause : cause ≠ .unfinished) : d.after c = d := by
  rw [call] at hRefused
  rw [after, call]
  cases c with
  | change start stop replacement =>
      rw [Call.steps] at hRefused ⊢
      rcases d.change_cases start stop replacement with ⟨other, hSame⟩ | ⟨first, last, -, -, hSame⟩
      · rw [hSame]
      · rw [hSame] at hRefused ⊢
        exact edit_refused hRefused
  | edit edit replacement => exact edit_refused hRefused
  | replace text =>
      rw [Call.steps, replace_run] at hRefused
      split at hRefused
      · exact absurd (Except.error.inj hRefused).symm hCause
      · cases hRefused

/-- After a call whose parse comes to an end, the document is the same or it is the answer. -/
theorem after_cases {c : Call} (hEnds : d.ends c = true) :
    d.after c = d ∨ d.call c = (.ok (), d.after c) := by
  cases hAnswer : (d.call c).1 with
  | ok done => exact .inr (Prod.ext hAnswer rfl)
  | error cause =>
      refine .inl (after_of_refused hAnswer ?_)
      rintro rfl
      rw [ends, hAnswer] at hEnds
      cases hEnds

/-- One call keeps a document consistent. -/
theorem Consistent.after (h : d.Consistent) {c : Call}
    (hFits : ∀ text ∈ d.spliced? c, text.size < Offset.bound) (hEnds : d.ends c = true) :
    (d.after c).Consistent := by
  rcases after_cases hEnds with hSame | hNext
  · rwa [hSame]
  · rcases call_eq_ok hNext with ⟨edit, replacement, hEdit, hSame⟩ | ⟨text, hOpen⟩
    · rw [hSame] at hFits
      exact (h.applyEdit hFits).2 _ hEdit
    · exact (consistent_openText hOpen).1

/-- Any calls on which parsing comes to an end keep a document consistent. -/
theorem Consistent.runs {calls : List Call} (h : d.Consistent) (hRuns : d.Runs calls) :
    (calls.foldl Document.after d).Consistent := by
  induction calls generalizing d with
  | nil => exact h
  | cons c cs ih => exact ih (h.after hRuns.1 hRuns.2.1) hRuns.2.2

/-- After any calls the lines and the tree of a document are those of its text, a call that is refused
leaves the document as it was, and an edit is refused only if it does not fit the text. -/
theorem documents_stay_consistent {p : Parser} {text : ByteArray} (hOpen : openText p text = some d)
    {calls : List Call} (hRuns : d.Runs calls) :
    let e := calls.foldl Document.after d
    e.Consistent
      ∧ (∀ c cause, (e.call c).1 = .error cause → cause ≠ .unfinished → (e.call c).2 = e)
      ∧ ∀ edit replacement, (∀ text ∈ e.edited? edit replacement, text.size < Offset.bound) →
        e.Edits edit replacement := by
  have hConsistent := (consistent_openText hOpen).1.runs hRuns
  exact ⟨hConsistent, fun c cause hRefused hCause => after_of_refused hRefused hCause,
    fun edit replacement hFits => (hConsistent.applyEdit hFits).1⟩

end Document

namespace Labels

/-- A parser of labels by tables that have not been given a fingerprint. -/
def draftParser : Parser := .ofLanguage { language with fingerprint := 0 }

/-- Something is added behind the first entry, an edit does not fit, and an entry is taken away. -/
def calls : List Document.Call :=
  [.change ⟨0, 2⟩ ⟨0, 2⟩ "x:", .edit ⟨9, 9, 9⟩ .empty, .edit ⟨0, 2, 0⟩ .empty]

theorem run_calls : ∃ d, Document.openText draftParser "a5".toUTF8 = some d ∧ d.Runs calls
    ∧ (calls.foldl Document.after d).text = "x:".toUTF8 := by
  have hAll : (Document.openText draftParser "a5".toUTF8).elim false (fun d =>
      decide (d.Runs calls ∧ (calls.foldl Document.after d).text = "x:".toUTF8)) = true := by
    decide +kernel
  cases hOpen : Document.openText draftParser "a5".toUTF8 with
  | none =>
      rw [hOpen] at hAll
      exact absurd hAll Bool.false_ne_true
  | some d =>
      rw [hOpen] at hAll
      exact ⟨d, rfl, of_decide_eq_true hAll⟩

theorem stays_consistent_through_calls : ∃ d,
    Document.openText draftParser "a5".toUTF8 = some d ∧ d.Runs calls
      ∧ let e := calls.foldl Document.after d
        e.text = "x:".toUTF8 ∧ e.Consistent
          ∧ (∀ c cause, (e.call c).1 = .error cause → cause ≠ .unfinished → (e.call c).2 = e)
          ∧ ∀ edit replacement, (∀ text ∈ e.edited? edit replacement, text.size < Offset.bound) →
            e.Edits edit replacement := by
  obtain ⟨d, hOpen, hRuns, hText⟩ := run_calls
  exact ⟨d, hOpen, hRuns, hText, Document.documents_stay_consistent hOpen hRuns⟩

end Labels
end IncrementalParsing
