import IncrementalParsing.Proofs.Parser.Reuse
import IncrementalParsing.Proofs.Tables.Generated
import IncrementalParsing.Proofs.Tree.Grammatical

/-! Every tree holds the tokens of its text, whatever recovery has done and however often the text
has been edited and parsed again. -/
namespace IncrementalParsing
open Subtree Text

/-- The tokens from a position on, each at the end of the one before it. -/
def ParseJob.tokensFrom (job : ParseJob) (position : Nat) : List Token :=
  match _hToken : job.token? position with
  | some t => t :: job.tokensFrom (position + t.width)
  | none => []
termination_by job.text.size - position
decreasing_by
  have := ParseJob.token?_width _hToken
  omega

/-- The tokens of a text. -/
def Language.tokens (l : Language) (text : ByteArray) : List Token :=
  ((Parser.ofLanguage l).job text).tokensFrom 0

/-- The tokens of the tree are those of the text, without a gap, and nothing but the end of the
input is behind them. The widths of the nodes add up. -/
structure Tree.Reads (t : Tree) (text : ByteArray) : Prop where
  tokens : t.tokens = inSequence 0 (t.language.tokens text)
  rest : t.language.lexer.next text ((t.language.tokens text).map Token.width).sum = none
    ∨ text.size ≤ ((t.language.tokens text).map Token.width).sum
  total : ∀ n ∈ t.inner, n.subtree.children ≠ [] → n.subtree.total = width n.subtree.children
  starts : ∀ n ∈ t.rootNode :: t.inner, ∀ i child, n.children[i]? = some child →
    child.start = n.start + width (n.subtree.children.take i)

/-- Trees that go along with a text: a text is parsed, it is changed and its tree is told so, and it
is parsed again. Texts are short enough for an offset. -/
inductive Follows (language : Language) : Tree → ByteArray → Prop
  | parse (p : Parser) (hLanguage : p.language = language) {text : ByteArray} {tree : Tree}
      (hParse : p.parse text = some tree) (hSize : text.size < Offset.bound) : Follows language tree text
  | edit {tree edited : Tree} {text replacement new : ByteArray} (h : Follows language tree text)
      {edit : Edit} (hApply : edit.apply text replacement = .ok new)
      (hEdit : tree.applyEdit edit = .ok edited) (hSize : new.size < Offset.bound) :
      Follows language edited new
  | reparse {edited tree : Tree} {text : ByteArray} (h : Follows language edited text) (p : Parser)
      (hLanguage : p.language = language) (hReparse : p.reparse edited text = .ok tree) :
      Follows language tree text

namespace ParseJob
variable {job : ParseJob}

theorem eq_tokensFrom {position : Nat} {ts : List Token} (hLexes : job.Lexes position ts)
    (hEnd : job.token? (position + (ts.map Token.width).sum) = none) :
    ts = job.tokensFrom position := by
  induction ts generalizing position with
  | nil =>
      rw [tokensFrom]
      split
      · rename_i t hToken
        simp [hToken] at hEnd
      · rfl
  | cons t ts ih =>
      rw [tokensFrom]
      split
      · rename_i u hToken
        obtain rfl := Option.some.inj (hLexes.1.symm.trans hToken)
        rw [← ih hLexes.2 (by simpa [Nat.add_assoc] using hEnd)]
      · rename_i hNone
        simp [hLexes.1] at hNone

/-- What the lexer finds does not depend on the limits of a parser. -/
theorem Lexes.of_same {other : ParseJob} {position : Nat} {ts : List Token}
    (h : other.Lexes position ts) (hSame : ∀ position, other.token? position = job.token? position) :
    job.Lexes position ts := by
  rw [lexes_iff] at h ⊢
  exact fun x hMem => (hSame x.1).symm.trans (h x hMem)

theorem orderly_of_generated {g : Grammar} {m : Automaton} (hGenerated : job.tables.Generated g m)
    (hProper : g.Proper) (hRange : job.lexer.InRange)
    (hLexer : ∀ position t, job.lexer.next job.text position = some t → t.kind ≠ endSymbol) :
    job.Orderly where
  range := hRange
  lexer := hLexer
  reserved := by
    rw [hGenerated.isTerminal_iff]
    exact decide_eq_true (Nat.lt_of_lt_of_le Nat.one_lt_two hProper.reserved)
  plain := by
    intro kind hTerminal
    obtain ⟨hShown, hStart⟩ := hGenerated.splices_of_isTerminal hProper hTerminal
    simpa [Tables.splices, hShown] using hStart
  stops := hGenerated.stops hProper
  accepts := fun _ _ hAccept => (hGenerated.accept hAccept).1

end ParseJob

section
variable {language : Language} {tree : Tree} {text : ByteArray}

/-- What a root holds of a text. -/
structure Subtree.Holds (root : Subtree) (job : ParseJob) : Prop where
  lexes : job.Lexes 0 (leavesAll root.children)
  ends : job.token? (width root.children) = none
  measured : ∀ t ∈ root.children, All (Measured job.tables.kinds) t
  laid : Laid root

/-- The nodes of a root that holds a text say where their children start. -/
theorem Subtree.Holds.all_laid {job : ParseJob} {root : Subtree} (h : root.Holds job) : All Laid root :=
  all_iff.mpr ⟨h.laid, fun u hMem => (h.measured u hMem).imp fun _ hMeasured => hMeasured.laid⟩

theorem Subtree.Holds.reads (h : tree.root.Holds ((Parser.ofLanguage tree.language).job text)) :
    tree.Reads text := by
  have hWidth := width_leavesAll _ h.measured
  have hSame : leavesAll tree.root.children = tree.language.tokens text :=
    ParseJob.eq_tokensFrom h.lexes (by rw [Nat.zero_add, hWidth]; exact h.ends)
  refine ⟨?_, ?_, ?_, ?_⟩
  · rw [tokens_eq _ h.all_laid, placedLeavesAll_eq _ h.measured, hSame]
  · rw [← hSame, hWidth]
    exact ParseJob.end_of_token?_eq_none h.ends
  · intro n hMem hSome
    exact (of_mem_inner tree h.measured n hMem).2.total hSome
  · intro n hMem i child hChild
    have hLaid : Laid n.subtree := by
      rcases List.mem_cons.mp hMem with rfl | hMem
      · exact h.laid
      · exact (of_mem_inner tree h.measured n hMem).2.laid
    obtain ⟨-, hAt, hStart⟩ := Node.child?_spec hChild
    rw [hStart, hLaid.getD hAt]

theorem holds_of_runWith {p : Parser} {queue : Option ReuseQueue} {nextSerial : Nat}
    (hOrderly : (p.job text).Orderly) (hQueue : ∀ q, queue = some q → (p.job text).Faithful q)
    (hRun : p.runWith text queue nextSerial = some tree) :
    tree.language = p.language ∧ tree.edit = none
      ∧ tree.root.Holds ((Parser.ofLanguage tree.language).job text) := by
  obtain ⟨made, hMade, rfl⟩ := Parser.runWith_eq_some hRun
  obtain ⟨hLexes, hEnd, hMeasured⟩ := ParseJob.reading_parseWithin hOrderly hQueue hMade
  exact ⟨rfl, rfl, hLexes.of_same fun _ => rfl, hEnd, hMeasured, ParseJob.laid_parseWithin hMade⟩

/-- The tree holds the tokens of the text that it was made from, and its edit leads on from there. -/
structure Tree.Tracks (language : Language) (tree : Tree) (text : ByteArray) : Prop where
  sameLanguage : tree.language = language
  bounded : text.size < Offset.bound
  holds : ∃ old : ByteArray, old.size < Offset.bound ∧ Edited tree.edit old text
    ∧ tree.root.Holds ((Parser.ofLanguage language).job old)

/-- The edit that is kept goes on with the text. -/
theorem Edited.applyEdit {edited : Tree} {old replacement new : ByteArray} {edit : Edit}
    (h : Edited tree.edit old text) (hOld : old.size < Offset.bound)
    (hApply : edit.apply text replacement = .ok new) (hEdit : tree.applyEdit edit = .ok edited)
    (hNew : new.size < Offset.bound) : Edited edited.edit old new := by
  have hLeads := Edit.leads_of_apply hApply
  rw [(Tree.applyEdit_eq_ok_iff.mp hEdit).2]
  unfold Edited at h ⊢
  cases hEarlier : tree.edit with
  | none =>
      rw [hEarlier] at h
      obtain rfl : text = old := h
      exact hLeads
  | some earlier =>
      rw [hEarlier] at h
      exact h.andThen hLeads hOld hNew

theorem Follows.tracks (hOrderly : ∀ text, ((Parser.ofLanguage language).job text).Orderly)
    (hLocal : language.lexer.Local language.tables.kinds.invalid) (h : Follows language tree text) :
    tree.Tracks language text := by
  have hAny : ∀ (p : Parser) text, p.language = language → (p.job text).Orderly := by
    rintro p text rfl
    obtain ⟨hRange, hLexer, hReserved, hPlain, hStops, hAccepts⟩ := hOrderly text
    exact ⟨hRange, hLexer, hReserved, hPlain, hStops, hAccepts⟩
  induction h with
  | parse p hLanguage hParse hSize =>
      obtain ⟨hSame, hEdit, hHolds⟩ := holds_of_runWith (hAny p _ hLanguage) (by simp) hParse
      rw [hSame.trans hLanguage] at hHolds
      refine ⟨hSame.trans hLanguage, hSize, _, hSize, ?_, hHolds⟩
      rw [hEdit, Edited]
  | @edit tree edited text replacement new _ edit hApply hEdit hSize ih =>
      obtain ⟨hSame, hBounded, old, hOld, hEdited, hHolds⟩ := ih
      obtain ⟨hRoot, hKept⟩ := Tree.root_applyEdit hEdit
      exact ⟨hKept.trans hSame, hSize, old, hOld, hEdited.applyEdit hOld hApply hEdit hSize,
        hRoot ▸ hHolds⟩
  | @reparse edited tree text _ p hLanguage hReparse ih =>
      obtain ⟨hSame, hBounded, old, hOld, hEdited, hHolds⟩ := ih
      obtain ⟨-, hRun⟩ := Parser.reparse_eq_ok hReparse
      have hQueue : ∀ q, p.queueOf edited = some q → (p.job text).Faithful q := by
        intro q hQueue
        obtain rfl := Parser.queueOf_eq_some hQueue
        subst hLanguage
        have hLexes : (p.job old).Lexes 0 (leavesAll edited.root.children) :=
          hHolds.lexes.of_same fun _ => rfl
        have hStands : (ReuseQueue.ofRoot edited.root edited.edit).Stands (p.job old) := by
          refine ⟨hLexes, hHolds.measured, ?_⟩
          have hBound := ParseJob.lexes_le_size hLexes (Nat.zero_le _)
          rwa [width_leavesAll _ hHolds.measured] at hBound
        exact @ParseJob.faithful_of_stands (p.job text) (p.job old) _ (hAny p text rfl) rfl rfl
          hLocal hStands hEdited hBounded
      obtain ⟨hMade, hEdit, hRoot⟩ := holds_of_runWith (hAny p text hLanguage) hQueue hRun
      rw [hMade.trans hLanguage] at hRoot
      refine ⟨hMade.trans hLanguage, hBounded, text, hBounded, ?_, hRoot⟩
      rw [hEdit, Edited]

/-- After a parse or a reparse the tree holds the tokens of the text. -/
theorem Follows.reads (hOrderly : ∀ text, ((Parser.ofLanguage language).job text).Orderly)
    (hLocal : language.lexer.Local language.tables.kinds.invalid) (h : Follows language tree text)
    (hEdit : tree.edit = none) : tree.Reads text := by
  obtain ⟨hSame, -, old, -, hEdited, hHolds⟩ := h.tracks hOrderly hLocal
  rw [hEdit] at hEdited
  obtain rfl : text = old := hEdited
  exact Subtree.Holds.reads (hSame ▸ hHolds)

end
/-- Text is appended behind damage and parsed again. -/
theorem Labels.follows_damaged : ∃ tree, Follows Labels.language tree "a5:x5b:".toUTF8
    ∧ tree.edit = none ∧ tree.hasError = true := by
  obtain ⟨first, edited, tree, hParse, -, hEdit, hReparse, -, hDamaged⟩ := Labels.reparse_damaged
  have hApply : (⟨5, 5, 7⟩ : Edit).apply "a5:x5".toUTF8 "b:".toUTF8 = .ok "a5:x5b:".toUTF8 := by
    decide +kernel
  have hFollows : Follows Labels.language tree "a5:x5b:".toUTF8 :=
    .reparse (.edit (.parse Labels.parser rfl hParse (by decide +kernel)) hApply hEdit
      (by decide +kernel)) Labels.parser rfl hReparse
  refine ⟨tree, hFollows, ?_, hDamaged⟩
  obtain ⟨made, -, rfl⟩ := Parser.runWith_eq_some (Parser.reparse_eq_ok hReparse).2
  rfl

end IncrementalParsing
