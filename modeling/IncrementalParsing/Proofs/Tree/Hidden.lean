import IncrementalParsing.Proofs.Letters.Language
import IncrementalParsing.Proofs.Parser.Arising
import IncrementalParsing.Proofs.Tree.Ranges

/-! Hidden nodes in trees. A hidden node is replaced by its children wherever it would show, except
that skipped input keeps the ones that have none. -/
namespace IncrementalParsing
open Subtree

/-- A visible node has no hidden children, unless it is an error node and they have no children. -/
def Subtree.Shows (t : Tables) (u : Subtree) : Prop :=
  t.isHidden u.kind = false → ∀ c ∈ u.children, t.isHidden c.kind = true →
    u.kind = errorSymbol ∧ c.isLeaf = true

/-- A hidden node below a visible one has no children, and so all nodes below are bare or visible. -/
theorem Subtree.all_bare {t : Tables} {u : Subtree} (hShows : All (Shows t) u)
    (hBare : t.isHidden u.kind = true → u.isLeaf = true) :
    All (fun v => Shows t v ∧ (t.isHidden v.kind = true → v.isLeaf = true)) u := by
  induction u using children_induction with
  | node u ih =>
      refine all_iff.mpr ⟨⟨hShows.self, hBare⟩, fun c hChild => ih c hChild (hShows.child hChild) ?_⟩
      intro hHidden
      cases hKind : t.isHidden u.kind with
      | false => exact (hShows.self hKind c hChild hHidden).2
      | true =>
          have hNone : u.children = [] := List.isEmpty_iff.mp (hBare hKind)
          rw [hNone] at hChild
          simp at hChild

theorem Subtree.shows_of_isLeaf {t : Tables} {u : Subtree} (hLeaf : u.isLeaf = true) : Shows t u := by
  intro _ c hChild
  rw [List.isEmpty_iff.mp hLeaf] at hChild
  simp at hChild

namespace ParseJob
variable {job : ParseJob} {g : Grammar} {m : Automaton}

/-- A reduction to a visible symbol takes the hidden nodes apart, and so does skipping, but for
hidden nodes without children. -/
theorem upheld_shows (hGenerated : job.tables.Generated g m) (hProper : g.Proper) :
    job.Upheld g m fun u => Rooted g u ∧ Shows job.tables u := by
  refine upheld_beside hGenerated hProper ⟨?_, ?_⟩ ?_ ?_ ?_
  · intro field u h
    simpa [Shows] using h
  · intro serial state children _ hClosed _ c hChild hHidden
    have hKept := hClosed c hChild
    simp only [ParseStack.dissolves, hHidden, Bool.or_true, Bool.and_true, Bool.not_eq_false'] at hKept
    exact ⟨rfl, hKept⟩
  · exact fun serial position => shows_of_isLeaf (isLeaf_readAt _ _ _)
  · exact fun serial terminal _ => shows_of_isLeaf (isLeaf_inserted _ _)
  · intro s rule info _ _ lookaheadStop hVisible c hChild hHidden
    replace hVisible : job.tables.isHidden info.lhs = false := hVisible
    rw [ParseStack.reduced, children_branch, if_neg (by simp [hVisible])] at hChild
    have hShown := not_opens_of_mem_unwrapped _ c hChild
    rw [hHidden] at hShown
    simp at hShown

end ParseJob

/-- The root of a tree is of the start symbol, there is nothing hidden right below it, and what is hidden
further below has no children. -/
theorem Grown.bare {language : Language} {g : Grammar} {m : Automaton}
    (hGenerated : language.tables.Generated g m) (hProper : g.Proper) {tree : Tree} {accepted : Bool}
    (h : Grown language tree accepted) : tree.root.kind = language.tables.start
      ∧ ∀ u ∈ tree.root.children, language.tables.isHidden u.kind = false
        ∧ All (fun v => Shows language.tables v
          ∧ (language.tables.isHidden v.kind = true → v.isLeaf = true)) u := by
  have hUpheld : ∀ (p : Parser) (text : ByteArray), p.language = language →
      (p.job text).Upheld g m fun u => Rooted g u ∧ Shows language.tables u := by
    rintro p text rfl
    exact ParseJob.upheld_shows hGenerated hProper
  obtain ⟨-, p, text, s, stack, hSame, hRests⟩ := h.rests hUpheld
  have hBelow := hRests.below (hUpheld p text hSame)
  obtain ⟨length, hRoot⟩ := hRests.root
  refine ⟨by rw [hRoot, ← hSame]; rfl, fun u hMem => ?_⟩
  have hShown : language.tables.isHidden u.kind = false := by
    rw [hRoot, ParseStack.children_toRoot] at hMem
    have hOpens := not_opens_of_mem_unwrapped _ u hMem
    rwa [show (p.job text).tables = language.tables by rw [← hSame]; rfl] at hOpens
  refine ⟨hShown, all_bare ((hBelow u hMem).imp fun _ hNode => hNode.2) fun hHidden => ?_⟩
  rw [hShown] at hHidden
  simp at hHidden

/-- No node of a tree is hidden but the root, if the start symbol is, and nodes without children
right below an error node. -/
theorem hidden_only_in_errors {language : Language} (hBuilt : language.tables.Built) {tree : Tree}
    {accepted : Bool} (hGrown : Grown language tree accepted) :
    tree.root.kind = language.tables.start ∧ ∀ n ∈ tree.rootNode :: tree.inner, ∀ c ∈ n.children,
      c.traits.hidden = true → n.isError = true ∧ c.children = [] := by
  obtain ⟨g, m, hGenerated, hProper⟩ := hBuilt.generated
  obtain ⟨hKind, hBare⟩ := hGrown.bare hGenerated hProper
  have hTables : tree.tables = language.tables := congrArg Language.tables hGrown.language_eq
  refine ⟨hKind, ?_⟩
  intro n hNode c hChild hHidden
  obtain ⟨i, hAt⟩ := List.mem_iff_getElem?.mp hChild
  obtain ⟨hSame, hSome, -⟩ := Node.child?_spec hAt
  have hMem : c.subtree ∈ n.subtree.children := List.mem_of_getElem? hSome
  have hHides : n.tree.tables.isHidden c.subtree.kind = true := hSame ▸ hHidden
  rcases List.mem_cons.mp hNode with rfl | hNode
  · replace hHides : tree.tables.isHidden c.subtree.kind = true := hHides
    rw [hTables, (hBare _ hMem).1] at hHides
    simp at hHides
  · obtain ⟨hTree, hShows, hBare⟩ := of_mem_inner tree (fun u hMem => (hBare u hMem).2) n hNode
    rw [hTree, hTables] at hHides
    cases hKind : language.tables.isHidden n.subtree.kind with
    | true =>
        rw [List.isEmpty_iff.mp (hBare hKind)] at hMem
        simp at hMem
    | false =>
        obtain ⟨hError, hLeaf⟩ := hShows hKind _ hMem hHides
        refine ⟨by simpa [Node.isError] using hError, ?_⟩
        rw [Node.children, List.isEmpty_iff.mp hLeaf]
        rfl

namespace Letters

/-- Sentences are `ab` with something optional in front, which is nothing, and `cd`. -/
def optional : Grammar :=
  grammar 4 [⟨"s", ⟨false, true, false, false⟩⟩, ⟨"_option", ⟨false, false, true, false⟩⟩] #[
    ⟨⟨6, [.plain 7, .plain 2, .plain 3]⟩, none⟩,
    ⟨⟨6, [.plain 4, .plain 5]⟩, none⟩,
    ⟨⟨7, []⟩, none⟩]

def optionalTables : Tables :=
  tables optional 7 [
    [.error, .error, .reduce 2, .error, .shift 1, .error],
    [.error, .error, .error, .error, .error, .shift 4],
    [.accept, .error, .error, .error, .error, .error],
    [.error, .error, .shift 5, .error, .error, .error],
    [.reduce 1, .error, .error, .error, .error, .error],
    [.error, .error, .error, .shift 6, .error, .error],
    [.reduce 0, .error, .error, .error, .error, .error]] [
    [some 2, some 3], [none, none], [none, none], [none, none], [none, none], [none, none],
    [none, none]]

theorem fits_optional : optionalTables.rules.size ≤ ruleBound := by decide +kernel

theorem built_optional : optionalTables.Built := by
  have hPlain : GrammarDraft.Plain optional (letters 4)
      [⟨"s", ⟨false, true, false, false⟩⟩, ⟨"_option", ⟨false, false, true, false⟩⟩] := {
    symbols := rfl
    terminalEntries := by decide
    nonterminalEntries := by decide +kernel
    names := by decide +kernel
    room := by decide
    fields := by decide
    rules := by decide +kernel
    terminalCount := rfl
    start := by decide
    productive := by decide +kernel
    precedence := rfl }
  exact built_tables hPlain (by decide +kernel)

/-- Behind `a` there should be `b`, so `a` is skipped, with the option in front of it. -/
theorem parse_acd : ∃ tree, (parser optionalTables).parse "acd".toUTF8 = some tree
    ∧ (parser optionalTables).verdict? "acd".toUTF8 none 0 = some true
    ∧ ∃ n ∈ tree.inner, n.traits.hidden = true := by
  have hHidden : ((parser optionalTables).parse "acd".toUTF8).elim false (fun tree =>
      tree.inner.any (·.traits.hidden)) = true := by
    decide +kernel
  have hVerdict : (parser optionalTables).verdict? "acd".toUTF8 none 0 = some true := by
    decide +kernel
  cases hParse : (parser optionalTables).parse "acd".toUTF8 with
  | none =>
      rw [hParse] at hHidden
      exact absurd hHidden Bool.false_ne_true
  | some tree =>
      rw [hParse] at hHidden
      exact ⟨tree, rfl, hVerdict, by simpa using hHidden⟩

/-- The option is a hidden node below the error node, and there is no other. -/
theorem hidden_only_in_errors_of_acd : ∃ tree,
    (parser optionalTables).parse "acd".toUTF8 = some tree ∧ tree.root.kind = optionalTables.start
      ∧ ∀ n ∈ tree.rootNode :: tree.inner, ∀ c ∈ n.children, c.traits.hidden = true →
        n.isError = true ∧ c.children = [] := by
  obtain ⟨tree, hParse, hVerdict, -⟩ := parse_acd
  exact ⟨tree, hParse, @hidden_only_in_errors (parser optionalTables).language built_optional _ _
    (.parse _ rfl hParse hVerdict)⟩

/-- So hidden nodes do show in trees. -/
theorem not_all_shown_of_acd : ∃ tree,
    (parser optionalTables).parse "acd".toUTF8 = some tree
      ∧ ¬ ∀ n ∈ tree.rootNode :: tree.inner, n.traits.hidden = false := by
  obtain ⟨tree, hParse, -, n, hNode, hHidden⟩ := parse_acd
  refine ⟨tree, hParse, fun hShown => ?_⟩
  rw [hShown n (List.mem_cons_of_mem _ hNode)] at hHidden
  exact Bool.false_ne_true hHidden

end Letters
end IncrementalParsing
