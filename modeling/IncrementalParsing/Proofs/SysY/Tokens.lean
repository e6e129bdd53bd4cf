import IncrementalParsing.Proofs.SysY.Loading
import IncrementalParsing.Proofs.SysY.Scanning
import IncrementalParsing.Proofs.Tree.Tokens

/-! Trees of SysY hold what the scanner makes of their text as a whole. -/
namespace IncrementalParsing
namespace SysY
open Subtree Text

/-- A token where it stands, without its padding. -/
def placed (x : Nat × Token) : PlacedToken :=
  ⟨(Terminal.ofKind? x.2.kind).getD .unexpectedCharacter, x.1 + x.2.padding, x.1 + x.2.width⟩

section
variable {l : Language} {text : ByteArray}

theorem token?_eq (hLexer : l.lexer = lexer) (text : ByteArray) (position : Nat) :
    ((Parser.ofLanguage l).job text).token? position = nextToken text position := by
  have hNext : ((Parser.ofLanguage l).job text).lexer.next ((Parser.ofLanguage l).job text).text position
      = nextToken text position := by
    change l.lexer.next text position = _
    rw [hLexer]
    rfl
  rw [ParseJob.token?, hNext]
  cases hToken : nextToken text position with
  | none => rfl
  | some t =>
      obtain ⟨hSize, hBound⟩ := usable_nextToken hToken
      dsimp only
      exact if_pos ⟨Nat.lt_of_lt_of_le hSize (Nat.le_add_left _ _), hBound⟩

theorem toList_tokensFrom (hLexer : l.lexer = lexer) (text : ByteArray) (limit offset : Nat)
    (found : Array PlacedToken) (hLimit : text.size ≤ offset + limit) :
    (tokensFrom text limit offset found).toList = found.toList
      ++ (inSequence offset (((Parser.ofLanguage l).job text).tokensFrom offset)).map placed := by
  induction limit generalizing offset found with
  | zero =>
      rw [tokensFrom, ParseJob.tokensFrom]
      split
      · rename_i t hToken
        rw [token?_eq hLexer] at hToken
        have hUsable := usable_nextToken hToken
        simp only [Token.width] at hUsable
        omega
      · simp [inSequence]
  | succ limit ih =>
      rw [tokensFrom, ParseJob.tokensFrom]
      split
      · rename_i hNone
        split
        · rename_i t hToken
          rw [token?_eq hLexer, hNone] at hToken
          simp at hToken
        · simp [inSequence]
      · rename_i token hNext
        have hUsable := usable_nextToken hNext
        simp only [Token.width] at hUsable
        have hStop : offset + token.padding + token.size = offset + token.width := by
          rw [Token.width, Nat.add_assoc]
        dsimp only
        rw [ih _ _ (by omega), hStop]
        split
        · rename_i t hToken
          rw [token?_eq hLexer, hNext] at hToken
          obtain rfl := Option.some.inj hToken
          simp [inSequence, placed]
        · rename_i hNone
          rw [token?_eq hLexer, hNext] at hNone
          simp at hNone

/-- The scanner finds the same tokens in the text as a whole. -/
theorem tokenize_eq (hLexer : l.lexer = lexer) (text : ByteArray) :
    (tokenize text).toList = (inSequence 0 (l.tokens text)).map placed := by
  rw [tokenize, toList_tokensFrom hLexer text _ _ _ (by omega)]
  rfl

/-- The language in terms of its grammar. -/
theorem orderly_language (hLanguage : language = .ok l) (text : ByteArray) :
    ((Parser.ofLanguage l).job text).Orderly := by
  obtain ⟨hTables, hLexer⟩ := language_eq_ok hLanguage
  obtain ⟨m, hGenerated⟩ := Tables.generated_ofGrammar hTables
  refine ParseJob.orderly_of_generated hGenerated proper_theGrammar ?_ ?_
  · change l.lexer.InRange
    exact hLexer ▸ inRange_lexer
  intro position t hNext
  change l.lexer.next text position = some t at hNext
  rw [hLexer] at hNext
  exact ne_end_of_nextToken hNext

theorem invalid_kind (hLanguage : language = .ok l) (t : Terminal) :
    l.tables.kinds.invalid t.kind = (t.kind == errorSymbol || t.isInvalid) := by
  rw [← isErrorToken_kind (language_eq_ok hLanguage).1]
  rfl

theorem local_language (hLanguage : language = .ok l) : l.lexer.Local l.tables.kinds.invalid := by
  rw [(language_eq_ok hLanguage).2]
  refine local_lexer fun t hInvalid => ?_
  rw [invalid_kind hLanguage, hInvalid, Bool.or_true]

end
end SysY

/-- No token is lost, repeated or moved, whatever recovery has done: a tree holds the tokens of its
text, if tokens end where offsets are. It still does after edits and reparses if the lexer looks at a
token and the bytes behind it only. The scanner of SysY is such a lexer, and the tokens are those of the
text as a whole. -/
theorem trees_read_text (language : Language) :
    (language.tables.Built → language.lexer.InRange →
      (∀ text position t, language.lexer.next text position = some t → t.kind ≠ endSymbol) →
      (∀ (p : Parser) (text : ByteArray) (tree : Tree), p.language = language →
        p.parse text = some tree → tree.Reads text)
      ∧ (language.lexer.Local language.tables.kinds.invalid → ∀ (tree : Tree) (text : ByteArray),
        Follows language tree text → tree.edit = none → tree.Reads text))
    ∧ (SysY.language = .ok language → ∀ (tree : Tree) (text : ByteArray),
      Follows language tree text → tree.edit = none →
        tree.Reads text ∧ (SysY.tokenize text).toList = tree.tokens.map SysY.placed) := by
  refine ⟨fun hBuilt hRange hLexer => ?_, fun hLanguage tree text h hEdit => ?_⟩
  · obtain ⟨g, m, hGenerated, hProper⟩ := hBuilt.generated
    have hOrderly : ∀ (p : Parser) text, p.language = language → (p.job text).Orderly := by
      rintro p text rfl
      exact ParseJob.orderly_of_generated hGenerated hProper hRange (hLexer text)
    refine ⟨?_, fun hLocal tree text h hEdit => h.reads (fun text => hOrderly _ text rfl) hLocal hEdit⟩
    intro p text tree hLanguage hParse
    obtain ⟨-, -, hHolds⟩ := holds_of_runWith (hOrderly p text hLanguage) (by simp) hParse
    exact hHolds.reads
  · have hReads := h.reads (SysY.orderly_language hLanguage) (SysY.local_language hLanguage) hEdit
    obtain ⟨hSame, -⟩ := h.tracks (SysY.orderly_language hLanguage) (SysY.local_language hLanguage)
    refine ⟨hReads, ?_⟩
    rw [hReads.tokens, hSame]
    exact SysY.tokenize_eq (SysY.language_eq_ok hLanguage).2 text

/-- Text is appended behind damage and parsed again, and the scanner of SysY can be loaded. -/
theorem read_text_of_damaged :
    (∃ tree, Follows Labels.language tree "a5:x5b:".toUTF8 ∧ tree.edit = none ∧ tree.hasError = true
      ∧ tree.Reads "a5:x5b:".toUTF8)
    ∧ ∃ language, SysY.language = .ok language ∧ ∀ (tree : Tree) (text : ByteArray),
      Follows language tree text → tree.edit = none →
        tree.Reads text ∧ (SysY.tokenize text).toList = tree.tokens.map SysY.placed := by
  obtain ⟨language, hLanguage⟩ := SysY.exists_language
  refine ⟨?_, language, hLanguage, (trees_read_text language).2 hLanguage⟩
  obtain ⟨tree, hFollows, hNone, hDamaged⟩ := Labels.follows_damaged
  exact ⟨tree, hFollows, hNone, hDamaged, ((trees_read_text Labels.language).1 Labels.built_tables
    Labels.inRange_lexer (fun _ _ _ hNext => (Labels.lexer_kind hNext).2)).2
      Labels.local_lexer tree _ hFollows hNone⟩

end IncrementalParsing
