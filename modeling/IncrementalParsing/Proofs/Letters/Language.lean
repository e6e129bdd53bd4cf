import IncrementalParsing.Proofs.Automaton.Search
import IncrementalParsing.Proofs.Grammar.Writing
import IncrementalParsing.Proofs.Tables.Generated
import IncrementalParsing.Parser.Run
import IncrementalParsing.Text.Scalar

/-! Languages over the first few letters, on which the limits of general statements show. Every
letter is a token, and nothing else is. -/
namespace IncrementalParsing.Letters
open Text

/-- The terminals `a`, `b` and so on. -/
def letters (count : Nat) : List SymbolEntry :=
  (List.range count).map fun i => ⟨(Char.ofNat (97 + i)).toString, ⟨true, false, false, false⟩⟩

/-- A grammar over some letters. The first nonterminal is the start symbol. -/
def grammar (count : Nat) (nonterminals : List SymbolEntry) (rules : Array Rule) : Grammar where
  name := "letters"
  symbols := (GrammarDraft.empty "letters").symbols ++ (letters count).toArray ++ nonterminals.toArray
  fields := #[]
  terminalCount := count + 2
  start := count + 2
  rules := rules
  tokenPrecedence := Array.replicate (count + 2) none

/-- The tables of a grammar, with its actions and transitions written out. -/
def tables (g : Grammar) (stateCount : Nat) (actions : List (List Action))
    (gotos : List (List (Option StateId))) : Tables where
  name := g.name
  symbols := g.symbols
  fields := g.fields
  terminalCount := g.terminalCount
  start := g.start
  rules := g.rules.map (·.toProduction)
  tokenPrecedence := g.tokenPrecedence
  stateCount := stateCount
  actions := actions.flatten.toArray
  gotos := gotos.flatten.toArray

/-- Tables that were written out are built if the states of the grammar give just these. -/
theorem built_tables {g : Grammar} {terminals nonterminals : List SymbolEntry}
    (hPlain : GrammarDraft.Plain g terminals nonterminals) {t : Tables}
    (hSame : ((Automaton.Found.ofGrammar g).toOption.map fun found =>
      Tables.ofAutomaton g found.toAutomaton) = some t) :
    t.Built := by
  obtain ⟨b, hDescribed, hBuild⟩ := hPlain.described
  have hProper := hDescribed.proper hBuild
  cases hFound : Automaton.Found.ofGrammar g with
  | error cause => simp [hFound, Except.toOption] at hSame
  | ok found =>
      obtain rfl : Tables.ofAutomaton g found.toAutomaton = t := by
        simpa [hFound, Except.toOption] using hSame
      exact ⟨b, g, hDescribed, hBuild,
        Tables.ofGrammar_eq_ok (fun info hMem => (hProper.lhs info hMem).2) hFound⟩

/-- A byte that is one of the first letters is a token. -/
def lexer (count : Nat) : Lexer where
  names := ((GrammarDraft.empty "letters").symbols ++ (letters count).toArray).map (·.name)
  next text offset := (byteAt? text offset).bind fun b =>
    if 97 ≤ b.toNat ∧ b.toNat < 97 + count then some ⟨b.toNat - 95, 0, 1, 0⟩ else none

/-- A parser of the language of some tables. -/
def parser (t : Tables) : Parser :=
  .ofLanguage ⟨t, lexer (t.terminalCount - 2), t.fingerprint⟩

end IncrementalParsing.Letters
