import IncrementalParsing.Proofs.Parser.Undamaged
import IncrementalParsing.Proofs.SysY.Guiding
import IncrementalParsing.Proofs.SysY.Rules
import IncrementalParsing.Proofs.SysY.Tokens
import IncrementalParsing.Proofs.Tree.Sentences

/-! The parser of SysY accepts the sentences of its grammar and nothing else, although the grammar is
ambiguous and its tables are made by leaving actions out. -/
namespace IncrementalParsing
open Subtree

namespace ParseJob
variable {job : ParseJob}

theorem exists_token?_of_mem {position : Nat} {token : Token} (h : token ∈ job.tokensFrom position) :
    ∃ position, job.token? position = some token := by
  fun_induction job.tokensFrom position with
  | case1 position found hFound ih =>
      rcases List.mem_cons.mp h with rfl | hMem
      · exact ⟨position, hFound⟩
      · exact ih hMem
  | case2 => simp at h

end ParseJob

namespace SysY
variable {l : Language} {text : ByteArray}

/-- A token of a text is of a terminal that is not reserved. -/
theorem exists_kind_of_mem (hLanguage : language = .ok l) {token : Token}
    (hMem : token ∈ l.tokens text) : ∃ t : Terminal, token.kind = t.kind ∧ 1 < t.kind := by
  obtain ⟨position, hToken⟩ := ParseJob.exists_token?_of_mem hMem
  rw [token?_eq (language_eq_ok hLanguage).2] at hToken
  exact exists_kind_of_nextToken hToken

theorem map_kind_tokenize (hLanguage : language = .ok l) (text : ByteArray) :
    (tokenize text).toList.map (·.terminal.kind) = (l.tokens text).map Token.kind := by
  have hAll : ∀ (start : Nat) (ts : List Token), (∀ token ∈ ts, ∃ t : Terminal, token.kind = t.kind) →
      ((inSequence start ts).map placed).map (·.terminal.kind) = ts.map Token.kind := by
    intro start ts hKinds
    induction ts generalizing start with
    | nil => rfl
    | cons token ts ih =>
        obtain ⟨t, hKind⟩ := hKinds token (by simp)
        rw [inSequence, List.map_cons, List.map_cons, List.map_cons,
          ih _ fun other hMem => hKinds other (by simp [hMem]), placed, hKind, Terminal.ofKind?_kind]
        rfl
  rw [tokenize_eq (language_eq_ok hLanguage).2]
  exact hAll 0 _ fun token hMem => (exists_kind_of_mem hLanguage hMem).imp fun _ h => h.1

/-- The scanner and the tables agree on the tokens of a text that are invalid. -/
theorem valid_tokenize (hLanguage : language = .ok l) (text : ByteArray) :
    (∀ token ∈ tokenize text, token.terminal.isInvalid = false)
      ↔ ∀ token ∈ l.tokens text, l.tables.kinds.invalid token.kind = false := by
  have hKinds := map_kind_tokenize hLanguage text
  -- Every kind of the one is a kind of the other, and none of them is reserved.
  have hInvalid : ∀ {found : PlacedToken} {token : Token}, token ∈ l.tokens text →
      found.terminal.kind = token.kind →
      l.tables.kinds.invalid token.kind = found.terminal.isInvalid := by
    intro found token hMem hSame
    obtain ⟨t, hKind, hReal⟩ := exists_kind_of_mem hLanguage hMem
    have hError : (found.terminal.kind == errorSymbol) = false := by
      rw [hSame, hKind]
      exact beq_false_of_ne (Nat.ne_of_gt hReal)
    rw [← hSame, invalid_kind hLanguage, hError, Bool.false_or]
  constructor
  · intro h token hMem
    have hKind : token.kind ∈ (tokenize text).toList.map (·.terminal.kind) :=
      hKinds ▸ List.mem_map_of_mem hMem
    obtain ⟨found, hFound, hSame⟩ := List.mem_map.mp hKind
    rw [hInvalid hMem hSame]
    exact h found (by simpa using hFound)
  · intro h found hFound
    have hKind : found.terminal.kind ∈ (l.tokens text).map Token.kind :=
      hKinds ▸ List.mem_map_of_mem (by simpa using hFound)
    obtain ⟨token, hMem, hSame⟩ := List.mem_map.mp hKind
    rw [← hInvalid hMem hSame.symm]
    exact h token hMem

/-- Tokens that are marked as invalid are terminals, and not reserved. -/
theorem of_isErrorToken {t : Tables} (hTables : Tables.ofGrammar theGrammar = .ok t) {symbol : SymbolId}
    (hToken : t.isErrorToken symbol = true) : errorSymbol < symbol ∧ t.isTerminal symbol = true := by
  obtain ⟨m, h⟩ := Tables.generated_ofGrammar hTables
  rw [Tables.isErrorToken, symbolTraits_eq h] at hToken
  rw [h.isTerminal_iff]
  exact isTerminal_of_errorToken hToken

theorem standsFor_iff {tokens : List SymbolId}
    (hTokens : ∀ symbol ∈ tokens, theGrammar.isTerminal symbol = true) :
    theGrammar.StandsFor [theGrammar.start] tokens ↔ theGrammar.Derives [theGrammar.start] tokens :=
  ⟨fun ⟨_, hYields⟩ => hYields.derives, fun hDerives => hDerives.yields hTokens⟩

end SysY

/-- The tree of a text is without damage just when the scanner finds no invalid token in it and its
terminals are derived from a source file by the rules of the grammar, whatever their precedences are.
The stack may be as high as the text is long, so it is never cut off. -/
theorem SysY.undamaged_iff_sentence {language : Language} (hLanguage : SysY.language = .ok language)
    {g : Grammar} (hGrammar : SysY.grammar = .ok g) (p : Parser) (hParser : p.language = language)
    (text : ByteArray) (hHeight : text.size ≤ p.limits.maxHeight) :
    ∃ tree, p.parse text = some tree ∧ (tree.hasError = false ↔
      (∀ token ∈ SysY.tokenize text, token.terminal.isInvalid = false)
        ∧ g.Derives [Nonterminal.sourceFile.id]
          ((SysY.tokenize text).toList.map (·.terminal.kind))) := by
  subst hParser
  obtain rfl := Except.ok.inj (grammar_eq_ok.symm.trans hGrammar)
  obtain ⟨hTables, hLexer⟩ := language_eq_ok hLanguage
  obtain ⟨m, hFaithful⟩ := Tables.faithful_ofGrammar hTables fits_theGrammar
  have hEnds := Language.reductionsEnd_of_grounded hFaithful proper_theGrammar grounded_theGrammar
  have hRange : p.language.lexer.InRange := hLexer ▸ inRange_lexer
  obtain ⟨tree, hParse⟩ := Parser.exists_runWith hFaithful.toGenerated proper_theGrammar hEnds hRange rfl
    (.parse p rfl text p.nextSerial)
  obtain ⟨hEmpty, hAbsent⟩ := start_theGrammar
  have hKinds := map_kind_tokenize hLanguage text
  have hTerminals : ∀ symbol ∈ (p.language.tokens text).map Token.kind,
      theGrammar.isTerminal symbol = true := by
    intro symbol hMem
    obtain ⟨token, hToken, rfl⟩ := List.mem_map.mp hMem
    obtain ⟨t, hKind, -⟩ := exists_kind_of_mem hLanguage hToken
    rw [hKind]
    exact isTerminal_kind t
  refine ⟨tree, hParse, ?_⟩
  rw [valid_tokenize hLanguage, hKinds]
  change _ ↔ _ ∧ theGrammar.Derives [theGrammar.start] _
  rw [← standsFor_iff hTerminals]
  constructor
  · refine fun hWhole => Parser.sentence_of_parse hFaithful proper_theGrammar hRange
      (fun _ => of_isErrorToken hTables) ?_ hParse hWhole
    intro text position token hNext
    rw [hLexer] at hNext
    obtain ⟨t, hKind, hReal⟩ := exists_kind_of_nextToken hNext
    rw [hKind, hFaithful.isTerminal_iff]
    exact ⟨isTerminal_kind t, Nat.ne_of_gt (Nat.lt_trans Nat.one_pos hReal)⟩
  · rintro ⟨hValid, hSentence⟩
    exact Parser.undamaged_of_sentence hFaithful proper_theGrammar
      (fun _ _ hPath hContinues => guided hFaithful hPath hContinues) hRange hEmpty hAbsent hHeight hParse
      hValid hSentence

namespace SysY

/-- A declaration is parsed without damage, and a stray character damages it. -/
theorem damaged_by_stray_character : ∃ language, SysY.language = .ok language
    ∧ (∃ tree, (Parser.ofLanguage language).parse "int a;".toUTF8 = some tree ∧ tree.hasError = false)
    ∧ ∃ tree, (Parser.ofLanguage language).parse "int a@".toUTF8 = some tree ∧ tree.hasError = true := by
  obtain ⟨language, hLanguage⟩ := exists_language
  refine ⟨language, hLanguage, ?_, ?_⟩
  · obtain ⟨tree, hParse, hIff⟩ := undamaged_iff_sentence hLanguage grammar_eq_ok
      (Parser.ofLanguage language) rfl "int a;".toUTF8
      (show "int a;".toUTF8.size ≤ ({} : ParserLimits).maxHeight by decide +kernel)
    refine ⟨tree, hParse, hIff.mpr ⟨by decide +kernel, ?_⟩⟩
    have hKinds : (tokenize "int a;".toUTF8).toList.map (·.terminal.kind)
        = [Terminal.intKeyword.kind, Terminal.identifier.kind, Terminal.semicolon.kind] := by
      decide +kernel
    rw [hKinds]
    exact derives_declaration
  · obtain ⟨tree, hParse, hIff⟩ := undamaged_iff_sentence hLanguage grammar_eq_ok
      (Parser.ofLanguage language) rfl "int a@".toUTF8
      (show "int a@".toUTF8.size ≤ ({} : ParserLimits).maxHeight by decide +kernel)
    refine ⟨tree, hParse, Bool.eq_true_of_not_eq_false fun hWhole => ?_⟩
    exact absurd (hIff.mp hWhole).1 (by decide +kernel)

end SysY
end IncrementalParsing
