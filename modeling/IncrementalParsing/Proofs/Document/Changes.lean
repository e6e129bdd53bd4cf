import IncrementalParsing.Proofs.Document
import IncrementalParsing.Proofs.Parser.Finishing
import IncrementalParsing.Proofs.Text.Lines

/-! Changes between two points. A column past the end of its line names the end of the line, as long
as its sum with the start of the line is exact, and a change alters nothing but the bytes between the
offsets that its points name. -/
namespace IncrementalParsing
open Text

/-- An edit that replaces a range of a text is made, if its new end can be told. -/
theorem Edit.apply_replace {old replacement : ByteArray} {first last : Nat} (hOrder : first ≤ last)
    (hInside : last ≤ old.size) (hRoom : first + replacement.size < Offset.bound) :
    (Edit.replace first last replacement.size).apply old replacement
      = .ok (old.extract 0 first ++ replacement ++ old.extract last old.size) := by
  have hCheck : (Edit.replace first last replacement.size).check old.size = .ok () := by
    rw [Edit.replace, Offset.add_eq hRoom, Edit.check, if_neg (Nat.not_lt.mpr hOrder),
      if_neg (Nat.not_lt.mpr (Nat.le_add_right _ _)), if_neg (Nat.not_lt.mpr hInside)]
  have hLength : replacement.size = (Edit.replace first last replacement.size).newEnd
      - (Edit.replace first last replacement.size).start := by
    rw [Edit.replace, Offset.add_eq hRoom, Nat.add_sub_cancel_left]
  unfold Edit.apply
  simp only [hCheck, bind, Except.bind]
  rw [if_neg (not_not.mpr hLength)]
  rfl

namespace LineMap
variable {text : ByteArray} {row start stop column : Nat}

/-- A point names its column cut at the end of the line. Only where the sum with the start of the
line cannot be told, it names an offset in front of the line. -/
theorem offset_cases (h : IsLine text row start stop) (hFits : text.size < Offset.bound)
    (hColumn : column < Offset.bound) :
    start + column < Offset.bound
        ∧ (ofText text).offset ⟨row, column⟩ = some (start + min column (stop - start))
      ∨ Offset.bound ≤ start + column ∧ ∃ a < start, (ofText text).offset ⟨row, column⟩ = some a := by
  have hOrder := h.order
  have hInside := h.inside
  rw [offset_of_isLine h]
  rcases Nat.lt_or_ge (start + column) Offset.bound with hExact | hWraps
  · refine .inl ⟨hExact, ?_⟩
    rw [Offset.add_eq hExact, show min (start + column) stop = start + min column (stop - start) by omega]
  · -- A column has less than the bound, so the sum wraps once and falls short of the start.
    have hSum : Offset.add start column = start + column - Offset.bound := by
      rw [Offset.add, Nat.mod_eq_sub_mod hWraps, Nat.mod_eq_of_lt (by omega)]
    refine .inr ⟨hWraps, start + column - Offset.bound, by omega, ?_⟩
    rw [hSum, Nat.min_eq_left (by omega)]

theorem offset_eq_iff (h : IsLine text row start stop) (hFits : text.size < Offset.bound)
    (hColumn : column < Offset.bound) :
    (ofText text).offset ⟨row, column⟩ = some (start + min column (stop - start))
      ↔ start + column < Offset.bound := by
  rcases offset_cases h hFits hColumn with ⟨hExact, hOffset⟩ | ⟨hWraps, a, hBefore, hOffset⟩
  · simp [hExact, hOffset]
  · rw [hOffset, Option.some.injEq]
    omega

/-- Every column of a row of the text names an offset of the text. -/
theorem exists_offset {p : Point} (hRow : p.row < (ofText text).lineCount) :
    ∃ a ≤ text.size, (ofText text).offset p = some a := by
  obtain ⟨start, stop, hLine⟩ := lt_lineCount_iff.mp hRow
  exact ⟨_, Nat.le_trans (Nat.min_le_right _ _) hLine.inside, offset_of_isLine hLine p.column⟩

end LineMap

/-- A tree that is parsed again after an edit has been told to its tree. -/
theorem Parser.parseIncremental_eq_ok {p : Parser} {t tree : Tree} {edit : Edit} {text : ByteArray}
    (hParse : p.parseIncremental t edit text = .ok tree) :
    ∃ edited, t.applyEdit edit = .ok edited ∧ p.reparse edited text = .ok tree := by
  unfold parseIncremental at hParse
  split at hParse
  · rename_i edited hEdit
    exact ⟨edited, hEdit, hParse⟩
  · cases hParse

/-- Where reductions end and tokens do at offsets, there is a next tree for every edit that fits the text. -/
theorem Parser.exists_parseIncremental {p : Parser} (hBuilt : p.language.tables.Built)
    (hEnds : p.language.ReductionsEnd) (hRange : p.language.lexer.InRange) {t : Tree} {accepted : Bool}
    (hGrown : Grown p.language t accepted)
    {old replacement new : ByteArray} (h : t.Describes p.language old) {edit : Edit}
    (hApply : edit.apply old replacement = .ok new) (hFits : new.size < Offset.bound) :
    ∃ tree, p.parseIncremental t edit new = .ok tree := by
  obtain ⟨g, m, hGenerated, hProper⟩ := hBuilt.generated
  obtain ⟨edited, hEdited, hLanguage, hLength⟩ := h.applyEdit hApply hFits
  obtain ⟨tree, hRun⟩ := Parser.exists_runWith hGenerated hProper hEnds hRange rfl
    (.reparse p rfl new (hGrown.edit hEdited) (max p.nextSerial edited.nextSerial))
  refine ⟨tree, ?_⟩
  rw [parseIncremental, hEdited]
  exact reparse_eq_of_run hLanguage hLength hRun

namespace Document
variable {d next : Document} {language : Language}

/-- Documents that go on with trees of one language. -/
structure Speaks (d : Document) (language : Language) : Prop where
  parser : d.parser.language = language
  tree : ∃ accepted, Grown language d.tree accepted

theorem speaks_openText {p : Parser} {text : ByteArray} (hOpen : openText p text = some d) :
    d.Speaks p.language := by
  rw [openText] at hOpen
  obtain ⟨tree, hParse, rfl⟩ := Option.map_eq_some_iff.mp hOpen
  obtain ⟨accepted, hVerdict⟩ := Parser.exists_verdict? hParse
  exact ⟨rfl, accepted, .parse p rfl hParse hVerdict⟩

/-- What an edit that is not refused leaves is the new text and its tree. -/
theorem applyEdit_eq_ok {edit : Edit} {replacement : ByteArray}
    (hNext : d.applyEdit edit replacement = .ok next) :
    ∃ tree, d.parser.parseIncremental d.tree edit next.text = .ok tree
      ∧ next = ⟨next.text, .ofText next.text, tree, d.parser.after tree⟩ := by
  have hRun := outcome_eq_ok.mp hNext
  rw [edit_run] at hRun
  split at hRun
  · cases hRun
  · rename_i text hApply
    split at hRun
    · cases hRun
    · cases hRun
    · rename_i tree hParse
      obtain rfl := congrArg Prod.snd hRun
      exact ⟨tree, hParse, rfl⟩

theorem Speaks.applyEdit (h : d.Speaks language) {edit : Edit} {replacement : ByteArray}
    (hNext : d.applyEdit edit replacement = .ok next) : next.Speaks language := by
  obtain ⟨tree, hParse, hSame⟩ := applyEdit_eq_ok hNext
  obtain ⟨edited, hEdit, hReparse⟩ := Parser.parseIncremental_eq_ok hParse
  obtain ⟨before, hGrown⟩ := h.tree
  obtain ⟨accepted, hVerdict⟩ := Parser.exists_verdict? (Parser.reparse_eq_ok hReparse).2
  rw [hSame]
  exact ⟨h.parser, accepted, .reparse (hGrown.edit hEdit) d.parser h.parser hReparse hVerdict⟩

theorem Speaks.after (h : d.Speaks language) {c : Call} (hEnds : d.ends c = true) :
    (d.after c).Speaks language := by
  rcases after_cases hEnds with hSame | hNext
  · rwa [hSame]
  · rcases call_eq_ok hNext with ⟨edit, replacement, hEdit, -⟩ | ⟨text, hOpen⟩
    · exact h.applyEdit hEdit
    · exact h.parser ▸ speaks_openText hOpen

theorem Speaks.runs {calls : List Call} (h : d.Speaks language) (hRuns : d.Runs calls) :
    (calls.foldl Document.after d).Speaks language := by
  induction calls generalizing d with
  | nil => exact h
  | cons c cs ih => exact ih (h.after hRuns.2.1) hRuns.2.2

/-- How a document answers a change between two points that name these offsets. -/
structure Changes (d : Document) (start stop : Point) (replacement : String) (first last : Nat) :
    Prop where
  /-- The index makes an edit of the points, unless they are in the wrong order. -/
  edit : d.lines.edit? start stop replacement.toUTF8.size
    = if last < first then none else some (.replace first last replacement.toUTF8.size)
  /-- In the wrong order they are refused. -/
  refused : last < first →
    d.applyChange start stop replacement = .error (.invertedRange start stop)
  /-- Otherwise the document takes that edit. -/
  applied : first ≤ last → d.applyChange start stop replacement
    = d.applyEdit (.replace first last replacement.toUTF8.size) replacement.toUTF8
  /-- There is a next document just if the order is right, or the parse does not come to an end. -/
  answered : first ≤ last ↔ (∃ next, d.applyChange start stop replacement = .ok next)
    ∨ d.applyChange start stop replacement = .error .unfinished
  /-- It does where reductions end, and tokens do at offsets. -/
  finished : d.parser.language.tables.Built → d.parser.language.ReductionsEnd →
    d.parser.language.lexer.InRange → (first ≤ last ↔ ∃ next, d.applyChange start stop replacement = .ok next)
  /-- Only the bytes between the offsets are altered. -/
  spliced : ∀ next, d.applyChange start stop replacement = .ok next →
    next.text = d.text.extract 0 first ++ replacement.toUTF8 ++ d.text.extract last d.text.size

/-- An edit that the text takes is answered, if the parse comes to an end. -/
theorem Consistent.answered (h : d.Consistent) {edit : Edit} {replacement text : ByteArray}
    (hApply : edit.apply d.text replacement = .ok text) (hFits : text.size < Offset.bound) :
    d.Edits edit replacement ∧ ((∃ next, d.applyEdit edit replacement = .ok next)
      ∨ d.applyEdit edit replacement = .error .unfinished) := by
  have hEdits : d.Edits edit replacement :=
    (h.applyEdit fun made hMade => by
      rw [edited?, hApply] at hMade
      exact Option.some.inj hMade ▸ hFits).1
  refine ⟨hEdits, ?_⟩
  cases hAnswer : d.applyEdit edit replacement with
  | ok next => exact .inl ⟨next, rfl⟩
  | error cause =>
      rcases hEdits.unfinished cause hAnswer with rfl | ⟨fault, rfl⟩
      · exact .inr rfl
      · rw [(hEdits.refused fault).mp hAnswer] at hApply
        cases hApply

/-- Where reductions end and tokens do at offsets, so does the parse. -/
theorem Consistent.finished (h : d.Consistent) (hSpeaks : d.Speaks language)
    (hBuilt : d.parser.language.tables.Built) (hEnds : d.parser.language.ReductionsEnd)
    (hRange : d.parser.language.lexer.InRange) {edit : Edit} {replacement text : ByteArray}
    (hApply : edit.apply d.text replacement = .ok text)
    (hFits : text.size < Offset.bound) : ∃ next, d.applyEdit edit replacement = .ok next := by
  obtain ⟨accepted, hGrown⟩ := hSpeaks.tree
  rw [← hSpeaks.parser] at hGrown
  obtain ⟨tree, hParse⟩ := Parser.exists_parseIncremental hBuilt hEnds hRange hGrown h.tree hApply hFits
  refine ⟨⟨text, .ofText text, tree, d.parser.after tree⟩, ?_⟩
  simp only [Document.applyEdit, outcome, edit_run, hApply, hParse]

section
variable {start stop : Point} {replacement : String} {first last : Nat}

theorem edit?_eq (hFirst : d.lines.offset start = some first) (hLast : d.lines.offset stop = some last)
    (inserted : Nat) : d.lines.edit? start stop inserted
      = if last < first then none else some (.replace first last inserted) := by
  rw [LineMap.edit?, hFirst, hLast]
  rfl

theorem changes_of_inverted (hFirst : d.lines.offset start = some first)
    (hLast : d.lines.offset stop = some last) (hWrong : last < first) :
    d.Changes start stop replacement first last := by
  have hRefused : d.applyChange start stop replacement = .error (.invertedRange start stop) := by
    simp only [applyChange, outcome, change_run, hFirst, hLast, if_pos hWrong]
  have hNot : ¬first ≤ last := Nat.not_le.mpr hWrong
  exact {
    edit := edit?_eq hFirst hLast _
    refused := fun _ => hRefused
    applied := fun hOrder => absurd hOrder hNot
    answered := by simp [hRefused, hNot]
    finished := by simp [hRefused, hNot]
    spliced := by simp [hRefused] }

theorem changes_of_ordered (h : d.Consistent) (hSpeaks : d.Speaks language)
    (hFirst : d.lines.offset start = some first) (hLast : d.lines.offset stop = some last)
    (hOrder : first ≤ last) (hInside : last ≤ d.text.size)
    (hRoom : d.text.size + replacement.toUTF8.size < Offset.bound) :
    d.Changes start stop replacement first last := by
  have hApplied : d.applyChange start stop replacement
      = d.applyEdit (.replace first last replacement.toUTF8.size) replacement.toUTF8 := by
    simp only [applyChange, applyEdit, outcome, change_run, hFirst, hLast, if_neg (Nat.not_lt.mpr hOrder)]
  have hApply : (Edit.replace first last replacement.toUTF8.size).apply d.text replacement.toUTF8
      = .ok _ := Edit.apply_replace hOrder hInside (by omega)
  have hFits : (d.text.extract 0 first ++ replacement.toUTF8
      ++ d.text.extract last d.text.size).size < Offset.bound := by
    rw [ByteArray.size_append, ByteArray.size_append, ByteArray.size_extract, ByteArray.size_extract]
    omega
  obtain ⟨hEdits, hAnswered⟩ := h.answered hApply hFits
  exact {
    edit := edit?_eq hFirst hLast _
    refused := fun hWrong => absurd hOrder (Nat.not_le.mpr hWrong)
    applied := fun _ => hApplied
    answered := iff_of_true hOrder (hApplied ▸ hAnswered)
    finished := fun hBuilt hEnds hRange =>
      iff_of_true hOrder (hApplied ▸ h.finished hSpeaks hBuilt hEnds hRange hApply hFits)
    spliced := fun next hNext => hEdits.spliced next (hApplied ▸ hNext) }

end

/-- A point names its column cut at the end of its line just if its sum with the start of the line can
be told. In every document that calls lead to, a change between two points of the text succeeds just if
the offsets that they name are in order, alters only the bytes between them, and is the edit that the
index makes of the points. -/
theorem changes_stay_between_points {p : Parser} {text : ByteArray} (hOpen : openText p text = some d)
    {calls : List Call} (hRuns : d.Runs calls) :
    (∀ other : ByteArray, other.size < Offset.bound → ∀ row < (LineMap.ofText other).lineCount,
        ∃ start stop, IsLine other row start stop ∧ ∀ column < Offset.bound,
          (start + column < Offset.bound
            ↔ (LineMap.ofText other).offset ⟨row, column⟩ = some (start + min column (stop - start))))
      ∧ let e := calls.foldl Document.after d
        e.lines = .ofText e.text
          ∧ ∀ start stop replacement, start.row < e.lines.lineCount → stop.row < e.lines.lineCount →
            e.text.size + replacement.toUTF8.size < Offset.bound →
              ∃ first last, e.lines.offset start = some first ∧ e.lines.offset stop = some last
                ∧ e.Changes start stop replacement first last := by
  have hConsistent := (consistent_openText hOpen).1.runs hRuns
  have hSpeaks := (speaks_openText hOpen).runs hRuns
  refine ⟨fun other hFits row hRow => ?_, hConsistent.lines, ?_⟩
  · obtain ⟨start, stop, hLine⟩ := LineMap.lt_lineCount_iff.mp hRow
    exact ⟨start, stop, hLine, fun column hColumn => (LineMap.offset_eq_iff hLine hFits hColumn).symm⟩
  · intro start stop replacement hStart hStop hRoom
    rw [hConsistent.lines] at hStart hStop
    obtain ⟨first, -, hFirst⟩ := LineMap.exists_offset hStart
    obtain ⟨last, hInside, hLast⟩ := LineMap.exists_offset hStop
    rw [← hConsistent.lines] at hFirst hLast
    refine ⟨first, last, hFirst, hLast, ?_⟩
    rcases Nat.lt_or_ge last first with hWrong | hOrder
    · exact changes_of_inverted hFirst hLast hWrong
    · exact changes_of_ordered hConsistent hSpeaks hFirst hLast hOrder hInside hRoom

/-- On the second line, the largest column names an offset on the first one. -/
theorem largest_column_names_line_before :
    IsLine "a\nb".toUTF8 1 2 3 ∧ (LineMap.ofText "a\nb".toUTF8).offset ⟨1, Offset.bound - 1⟩ = some 1
      ∧ (LineMap.ofText "a\nb".toUTF8).offset ⟨1, Offset.bound - 1⟩
        ≠ some (2 + min (Offset.bound - 1) (3 - 2)) := by
  have hLine : IsLine "a\nb".toUTF8 1 2 3 :=
    LineMap.isLine_of_starts (show (LineMap.ofText "a\nb".toUTF8).starts[1]? = some 2 by decide +kernel)
  exact ⟨hLine, by decide +kernel, by decide +kernel⟩

end Document

namespace Labels

theorem reductionsEnd_draftParser : draftParser.language.ReductionsEnd := by
  obtain ⟨b, hDescribed, hBuild⟩ := plain_grammar.described
  obtain ⟨m, hFaithful⟩ := Tables.faithful_ofGrammar ofGrammar_eq_ok fits_rules
  exact Language.reductionsEnd_of_grounded hFaithful (hDescribed.proper hBuild) grounded

/-- The largest column names the end of the first line, and what is changed goes up to there. -/
theorem change_up_to_line_end : ∃ d, Document.openText draftParser "a5".toUTF8 = some d ∧ d.Runs calls
    ∧ (calls.foldl Document.after d).text = "x:".toUTF8
    ∧ ∃ next, (calls.foldl Document.after d).applyChange ⟨0, 1⟩ ⟨0, Offset.bound - 1⟩ "5" = .ok next
        ∧ next.text = "x5".toUTF8 := by
  obtain ⟨d, hOpen, hRuns, hText⟩ := run_calls
  obtain ⟨-, hLines, hChanges⟩ := Document.changes_stay_between_points hOpen hRuns
  have hLanguage := ((Document.speaks_openText hOpen).runs hRuns).parser
  rw [hText] at hLines hChanges
  obtain ⟨first, last, hFirst, hLast, h⟩ := hChanges ⟨0, 1⟩ ⟨0, Offset.bound - 1⟩ "5"
    (by rw [hLines]; decide +kernel) (by rw [hLines]; decide +kernel) (by decide +kernel)
  rw [hLines] at hFirst hLast
  obtain rfl : 1 = first := Option.some.inj (.trans (by decide +kernel) hFirst)
  obtain rfl : 2 = last := Option.some.inj (.trans (by decide +kernel) hLast)
  obtain ⟨next, hNext⟩ := (h.finished (hLanguage ▸ built_tables)
    (hLanguage ▸ reductionsEnd_draftParser) (hLanguage ▸ inRange_lexer)).mp (by decide)
  refine ⟨d, hOpen, hRuns, hText, next, hNext, (h.spliced next hNext).trans ?_⟩
  rw [hText]
  decide +kernel

end Labels
end IncrementalParsing
