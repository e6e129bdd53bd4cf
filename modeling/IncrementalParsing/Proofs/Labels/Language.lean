import IncrementalParsing.Proofs.Automaton.Search
import IncrementalParsing.Proofs.Grammar.Writing
import IncrementalParsing.Proofs.Parser.Reuse
import IncrementalParsing.Proofs.Tables.Generated

/-! A small language, on which general statements about languages are tried. A file is a list of
entries. An entry is a label and a number, or a letter and a colon, and a label is a letter. So one
token behind a letter decides whether the letter is a label. -/
namespace IncrementalParsing.Labels
open Text

/-- The terminals behind the reserved ones. -/
def terminals : List SymbolEntry := [
  ⟨"letter", ⟨true, true, false, false⟩⟩, ⟨"number", ⟨true, true, false, false⟩⟩,
  ⟨"malformed", ⟨true, true, false, true⟩⟩, ⟨":", ⟨true, false, false, false⟩⟩]

/-- The nonterminals. Lists of entries are hidden. -/
def nonterminals : List SymbolEntry := [
  ⟨"file", ⟨false, true, false, false⟩⟩, ⟨"_entries", ⟨false, false, true, false⟩⟩,
  ⟨"entry", ⟨false, true, false, false⟩⟩, ⟨"label", ⟨false, true, false, false⟩⟩]

def letter : SymbolId := 2
def number : SymbolId := 3
def malformed : SymbolId := 4
def colon : SymbolId := 5
def file : SymbolId := 6
def entries : SymbolId := 7
def entry : SymbolId := 8
def label : SymbolId := 9

/-- The rules. A label is the key of its entry. -/
def rules : Array Rule := #[
  ⟨⟨file, [.plain entries]⟩, none⟩,
  ⟨⟨entries, [.plain entry]⟩, none⟩,
  ⟨⟨entries, [.plain entries, .plain entry]⟩, none⟩,
  ⟨⟨entry, [⟨label, some 1⟩, .plain number]⟩, none⟩,
  ⟨⟨entry, [.plain letter, .plain colon]⟩, none⟩,
  ⟨⟨label, [.plain letter]⟩, none⟩]

def grammar : Grammar where
  name := "labels"
  symbols := (GrammarDraft.empty "labels").symbols ++ terminals.toArray ++ nonterminals.toArray
  fields := #["key"]
  terminalCount := 6
  start := file
  rules := rules
  tokenPrecedence := Array.replicate 6 none

/-- The actions of every state, each row at its six terminals. -/
def actions : Array Action := #[
  .error, .error, .shift 1, .error, .error, .error,
  .error, .error, .error, .reduce 5, .error, .shift 6,
  .accept, .error, .error, .error, .error, .error,
  .reduce 0, .error, .shift 1, .error, .error, .error,
  .reduce 1, .error, .reduce 1, .error, .error, .error,
  .error, .error, .error, .shift 8, .error, .error,
  .reduce 4, .error, .reduce 4, .error, .error, .error,
  .reduce 2, .error, .reduce 2, .error, .error, .error,
  .reduce 3, .error, .reduce 3, .error, .error, .error]

/-- Where every state goes, each row at its four nonterminals. -/
def gotos : Array (Option StateId) := #[
  some 2, some 3, some 4, some 5,
  none, none, none, none,
  none, none, none, none,
  none, none, some 7, some 5,
  none, none, none, none,
  none, none, none, none,
  none, none, none, none,
  none, none, none, none,
  none, none, none, none]

/-- The tables of the grammar. -/
def tables : Tables where
  name := grammar.name
  symbols := grammar.symbols
  fields := grammar.fields
  terminalCount := grammar.terminalCount
  start := grammar.start
  rules := grammar.rules.map (·.toProduction)
  tokenPrecedence := grammar.tokenPrecedence
  stateCount := 9
  actions := actions
  gotos := gotos

/-- The grammar has no names or traits beyond those of its draft. -/
theorem plain_grammar : GrammarDraft.Plain grammar terminals nonterminals where
  symbols := rfl
  terminalEntries := by decide
  nonterminalEntries := by decide +kernel
  names := by decide +kernel
  room := by decide
  fields := by decide
  rules := by decide +kernel
  terminalCount := rfl
  start := by decide
  productive := by decide +kernel
  precedence := rfl

/-- The states of the grammar. -/
def states : Automaton.Found :=
  match Automaton.Found.ofGrammar grammar with
  | .ok found => found
  | .error _ => ⟨[], []⟩

/-- The search finds the states that are written out above. -/
theorem ofGrammar_states : Automaton.Found.ofGrammar grammar = .ok states := by
  have hFound : (Automaton.Found.ofGrammar grammar).isOk = true := by decide +kernel
  unfold states
  cases hStates : Automaton.Found.ofGrammar grammar with
  | ok found => rfl
  | error cause => simp [hStates, Except.isOk, Except.toBool] at hFound

/-- So the tables are built without a fault. -/
theorem ofGrammar_eq_ok : Tables.ofGrammar grammar = .ok tables := by
  have hRules : ∀ info ∈ grammar.rules, info.lhs < grammar.symbols.size := by decide +kernel
  have hSame : Tables.ofAutomaton grammar states.toAutomaton = tables := by decide +kernel
  rw [Tables.ofGrammar_eq_ok hRules ofGrammar_states, hSame]

theorem built_tables : tables.Built := by
  obtain ⟨b, hDescribed, hBuild⟩ := plain_grammar.described
  exact ⟨b, grammar, hDescribed, hBuild, ofGrammar_eq_ok⟩

theorem fits_rules : grammar.rules.size ≤ ruleBound := by decide

theorem fits_tables : tables.rules.size ≤ ruleBound := by
  simpa [tables] using fits_rules

def isLetter (b : UInt8) : Bool := 97 ≤ b && b ≤ 122

def isDigit (b : UInt8) : Bool := 48 ≤ b && b ≤ 57

/-- The token that begins with a byte. A digit in front of a letter is malformed. -/
def token (b : UInt8) (behind : Option UInt8) : Token :=
  if isLetter b then ⟨letter, 0, 1, 0⟩
  else if b = 58 then ⟨colon, 0, 1, 0⟩
  else if isDigit b then
    match behind with
    | none => ⟨number, 0, 1, 0⟩
    | some c => if isLetter c then ⟨malformed, 0, 2, 0⟩ else ⟨number, 0, 1, 1⟩
  else ⟨malformed, 0, 1, 0⟩

def lexer : Lexer where
  names := ((GrammarDraft.empty "labels").symbols ++ terminals.toArray).map (·.name)
  next text offset := (byteAt? text offset).map fun b => token b (byteAt? text (offset + 1))

/-- The language. -/
def language : Language := ⟨tables, lexer, tables.fingerprint⟩

/-- A parser of the language. -/
def parser : Parser := .ofLanguage language

/-- The lexer finds a token of one byte, and looks at one behind it. -/
theorem next_eq_some {text : ByteArray} {offset : Nat} {t : Token}
    (hNext : lexer.next text offset = some t) :
    ∃ b, byteAt? text offset = some b ∧ token b (byteAt? text (offset + 1)) = t := by
  simpa [lexer] using hNext

example : lexer.next "1a".toUTF8 0 = some ⟨malformed, 0, 2, 0⟩ := by decide +kernel

theorem token_kind (b : UInt8) (behind : Option UInt8) :
    2 ≤ (token b behind).kind ∧ (token b behind).kind < 6 := by
  unfold token
  split
  · decide
  · split
    · decide
    · split
      · split
        · decide
        · split <;> decide
      · decide

/-- The scanner finds only terminals of the language, and never the end. -/
theorem lexer_kind {text : ByteArray} {offset : Nat} {t : Token}
    (hNext : lexer.next text offset = some t) :
    language.tables.isTerminal t.kind = true ∧ t.kind ≠ endSymbol := by
  obtain ⟨b, -, rfl⟩ := next_eq_some hNext
  obtain ⟨hFirst, hLast⟩ := token_kind b (byteAt? text (offset + 1))
  refine ⟨decide_eq_true hLast, ?_⟩
  exact Nat.ne_of_gt (Nat.lt_of_lt_of_le Nat.two_pos hFirst)

/-- A malformed number is the only token of two bytes, and both of them are there. -/
theorem inRange_lexer : language.lexer.InRange := by
  intro text offset t hNext
  obtain ⟨b, hByte, rfl⟩ := next_eq_some hNext
  have hFirst := lt_size_of_byteAt? hByte
  refine Offset.lt_range ?_
  unfold token
  split
  · exact hFirst
  · split
    · exact hFirst
    · split
      · cases hBehind : byteAt? text (offset + 1) with
        | none => exact hFirst
        | some c =>
            have hSecond := lt_size_of_byteAt? hBehind
            dsimp only
            split
            · exact hSecond
            · exact hFirst
      · exact hFirst

/-- What is behind a digit matters, but only whether a letter is. -/
theorem token_cases (b : UInt8) (behind : Option UInt8) :
    (∀ other, token b other = token b behind)
      ∨ (behind = none ∧ token b behind = ⟨number, 0, 1, 0⟩)
      ∨ (token b behind).lookahead = 1 ∧ (token b behind).width = 1
      ∨ (token b behind).kind = malformed := by
  unfold token
  split
  · exact .inl fun _ => rfl
  · split
    · exact .inl fun _ => rfl
    · split
      · cases behind with
        | none => exact .inr (.inl ⟨rfl, rfl⟩)
        | some c =>
            dsimp only
            split
            · exact .inr (.inr (.inr rfl))
            · exact .inr (.inr (.inl ⟨rfl, rfl⟩))
      · exact .inl fun _ => rfl

/-- One byte behind a token is enough to find it again. -/
theorem local_lexer : language.lexer.Local language.tables.kinds.invalid := by
  have hMalformed : language.tables.kinds.invalid malformed = true := by decide +kernel
  intro old new a b t hNext hValid hWide hBound hSame hEnd
  obtain ⟨c, hByte, rfl⟩ := next_eq_some hNext
  have hFirst : byteAt? new b = some c := (hSame 0 (by omega)).trans hByte
  change (byteAt? new b).map _ = _
  rw [hFirst, Option.map_some]
  congr 1
  rcases token_cases c (byteAt? old (a + 1)) with hAny | ⟨hNone, hToken⟩ | ⟨hOne, hWidth⟩ | hKind
  · exact hAny _
  · rw [hToken] at hBound hEnd
    have hOld := byteAt?_eq_none_iff.mp hNone
    have hNew : b + 1 = new.size := hEnd rfl (Nat.le_antisymm hBound hOld)
    rw [hNone, byteAt?_eq_none_iff.mpr (Nat.le_of_eq hNew.symm)]
  · rw [hSame 1 (by omega)]
  · rw [hKind, hMalformed] at hValid
    simp at hValid

end IncrementalParsing.Labels
