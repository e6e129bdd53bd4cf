import IncrementalParsing.Proofs.Parser.Merging
import IncrementalParsing.Proofs.Tree.Hidden

/-! Error nodes in trees. Input that is skipped in one place is one error node, whatever is done with
the stack in between: no error node with anything in it stands next to another one, or in one. -/
namespace IncrementalParsing
open Subtree

/-- No error node lies right above another one, nor is one open right above another one. -/
structure ParseStack.Parted (s : ParseStack) : Prop where
  entries : s.entries.IsChain fun e f => ¬ (e.extra = true ∧ f.extra = true)
  opened : s.openError ≠ #[] → ∀ e ∈ s.entries.head?, e.extra = false

/-- On a woven stack no two errors lie side by side. -/
theorem ParseStack.Woven.parted {t : Tables} {s : ParseStack} (h : Woven t s) : s.Parted where
  entries := h.entries.imp fun e f hCovers hBoth => by
    have hPlain := (hCovers hBoth.2).1
    simp [hBoth.1] at hPlain
  opened := h.opened

/-- Error nodes are merged below a root. -/
structure Subtree.MergedRoot (t : Tables) (root : Subtree) : Prop where
  below : ∀ u ∈ root.children, All (Merged t) u
  apart : Apart (root.children.map (·.kind))

theorem Subtree.shownKinds_flatMap {α : Type} (t : Tables) (xs : List α) (pieces : α → List Subtree) :
    shownKinds t (xs.flatMap pieces) = xs.flatMap fun x => shownKinds t (pieces x) := by
  induction xs with
  | nil => simp
  | cons x xs ih => rw [List.flatMap_cons, List.flatMap_cons, shownKinds_append, ih]

namespace ParseStack
variable {t : Tables} {P : Subtree → Prop} {g : Grammar} {m : Automaton} {s : ParseStack}

/-- Error nodes are merged below the root that is put over a stack. -/
theorem mergedRoot_toRoot (hGenerated : t.Generated g m) (hProper : g.Proper) (hLasting : Lasting t P)
    (hLegal : s.Legal t P m) (hMerged : ∀ u, P u → Merged t u) (hWoven : Woven t s) (length : Nat)
    (accepted : Bool) : MergedRoot t (s.toRoot t length accepted).1 := by
  have hTended := (hLegal.closeError hLasting).tended hMerged hWoven.closeError
  have hStart : t.isTerminal t.start = false := by
    rw [hGenerated.isTerminal_iff, hGenerated.start, Grammar.isTerminal]
    exact decide_eq_false (Nat.not_lt.mpr hProper.start.1)
  refine ⟨fun u hMem => (all_children_toRoot hLasting hLegal length accepted u hMem).imp hMerged, ?_⟩
  rw [children_toRoot]
  change Apart (shownKinds t (s.closeError.rootPieces t))
  rw [rootPieces, shownKinds_flatMap]
  refine (hTended.apart hGenerated hProper fun e _ => ?_).1
  split
  · rename_i hIs
    obtain ⟨-, hKind⟩ : e.extra = false ∧ e.subtree.kind = t.start := by simpa using hIs
    exact .inr ⟨hKind ▸ hStart, rfl⟩
  · exact .inl (shownKinds_congr (by simp))

end ParseStack

section
variable {language : Language} {g : Grammar} {m : Automaton}

theorem ParseJob.upheld_flagged_of_built (hBuilt : language.tables.Built)
    (hGenerated : language.tables.Generated g m) (hProper : g.Proper) {job : ParseJob}
    (hTables : job.tables = language.tables) :
    job.Upheld g m fun u => Rooted g u ∧ Flagged job.tables u := by
  refine upheld_flagged (hTables ▸ hGenerated) hProper ?_
  rw [hTables]
  exact fun _ => hBuilt.of_isErrorToken

/-- What a tree has that is grown, as far as its next reparse relies on it. -/
structure Subtree.NeatRoot (g : Grammar) (t : Tables) (root : Subtree) : Prop where
  below : ∀ u ∈ root.children, All (fun v => ParseJob.Neat g t v ∧ Measured t.widths v) u
  merged : MergedRoot t root

/-- The root of a grown tree has none side by side below it. -/
theorem Grown.neatRoot (hBuilt : language.tables.Built) (hFaithful : language.tables.Faithful g m)
    (hProper : g.Proper) {tree : Tree} {accepted : Bool} (h : Grown language tree accepted) :
    NeatRoot g language.tables tree.root := by
  refine (h.of_runs (Q := fun _ root => NeatRoot g language.tables root)
    (fun _ _ hRoot => hRoot.below) ?_).2
  rintro p text queue limit nextSerial made accepted hLanguage hQueue hMade -
  subst hLanguage
  have hUpheld := @ParseJob.upheld_flagged_of_built _ g m hBuilt hFaithful.toGenerated hProper (p.job text) rfl
  have hGenerated : (p.job text).tables.Generated g m := hFaithful.toGenerated
  have hLasting := (ParseJob.borne_neat hUpheld).lasting
  obtain ⟨r, verdict, stack, -, hMoves, hOutcome, rfl⟩ :=
    @ParseJob.parseWithin_moves (p.job text) (hFaithful.stops hProper) _ _ _ _ hMade
  have hSized := @ParseJob.sized_start (p.job text) queue (fun q hSome u hMem =>
    (hQueue q hSome u hMem).imp fun _ hNode => hNode.2) nextSerial
  have hSeamless := (@ParseJob.seamless_start (p.job text) g m queue (fun q hSome u hMem =>
    (hQueue q hSome u hMem).imp fun _ hNode => hNode.1) nextSerial).moves hUpheld hFaithful.fits hMoves hSized
  obtain ⟨hLegal, hWoven⟩ := hSeamless.outcome hUpheld hOutcome
  have hMeasured := (hSized.moves hGenerated hProper hMoves).outcome hOutcome
  obtain ⟨hError, hStart⟩ := ParseJob.not_splices_errorSymbol hGenerated hProper
  refine ⟨fun u hMem => .and ?_ ?_, ?_⟩
  · exact ParseStack.all_children_toRoot hLasting hLegal _ _ u hMem
  · exact (ParseStack.sound_toRoot hMeasured rfl hStart.symm hError _ _).2 u hMem
  · exact ParseStack.mergedRoot_toRoot hGenerated hProper hLasting hLegal (fun _ hNeat => hNeat.2) hWoven
      _ _

/-- Wherever a parse comes to, error nodes are merged. -/
theorem Arises.seamless (hBuilt : language.tables.Built) (hFaithful : language.tables.Faithful g m)
    (hProper : g.Proper) {job : ParseJob} {s : ParseState} {lookahead : Lookahead}
    (h : Arises language job s lookahead) : job.Seamless g m (s.facing lookahead) := by
  induction h with
  | parse p hLanguage text nextSerial =>
      subst hLanguage
      have hUpheld := @ParseJob.upheld_flagged_of_built _ g m hBuilt hFaithful.toGenerated hProper
        (p.job text) rfl
      exact (@ParseJob.seamless_start (p.job text) g m none (by simp) nextSerial).moves hUpheld
        hFaithful.fits (ParseJob.nextInput_moves _ (by simp [ParseJob.start])).1
        (@ParseJob.sized_start (p.job text) none (by simp) nextSerial)
  | reparse p hLanguage text hGrown nextSerial =>
      have hTree := (hGrown.neatRoot hBuilt hFaithful hProper).below
      subst hLanguage
      have hUpheld := @ParseJob.upheld_flagged_of_built _ g m hBuilt hFaithful.toGenerated hProper
        (p.job text) rfl
      exact (@ParseJob.seamless_start (p.job text) g m _ (all_ahead_queueOf (fun u hMem =>
          (hTree u hMem).imp fun _ hNode => hNode.1) p) nextSerial).moves hUpheld
        hFaithful.fits (ParseJob.nextInput_moves _ (by simp [ParseJob.start])).1
        (@ParseJob.sized_start (p.job text) _ (all_ahead_queueOf (fun u hMem =>
          (hTree u hMem).imp fun _ hNode => hNode.2) p) nextSerial)
  | step h hStep ih =>
      have hTidy := (h.along hFaithful.toGenerated hProper).tidy
      have hSized := h.sized hFaithful.toGenerated hProper
      have hUpheld := ParseJob.upheld_flagged_of_built hBuilt hFaithful.toGenerated hProper h.tables
      have hLeads := ParseJob.leads_step (hUpheld.generated.stops hProper) _ _ hTidy
      rw [hStep] at hLeads
      exact ih.moves hUpheld hFaithful.fits hLeads.1 hSized

/-- Where a step ends a parse, error nodes are apart on the stack too. -/
theorem Arises.parted_of_done (hBuilt : language.tables.Built)
    (hFaithful : language.tables.Faithful g m) (hProper : g.Proper) {job : ParseJob} {s : ParseState}
    {lookahead : Lookahead} (h : Arises language job s lookahead) {accepted : Bool}
    {stack : ParseStack} (hStep : job.step s lookahead = .done accepted stack) : stack.Parted := by
  have hTidy := (h.along hFaithful.toGenerated hProper).tidy
  have hUpheld := ParseJob.upheld_flagged_of_built hBuilt hFaithful.toGenerated hProper h.tables
  have hLeads := ParseJob.leads_step (hUpheld.generated.stops hProper) _ _ hTidy
  rw [hStep] at hLeads
  obtain ⟨r, hMoves, hOutcome⟩ := hLeads
  have hSeamless := (h.seamless hBuilt hFaithful hProper).moves hUpheld hFaithful.fits hMoves
    (h.sized hFaithful.toGenerated hProper)
  exact (hSeamless.outcome hUpheld hOutcome).2.parted

/-- No error nodes among subtrees that are apart are next to each other. -/
theorem Subtree.Apart.not_both {ks : List SymbolId} (h : Apart ks) {i : Nat}
    (hFirst : ks[i]? = some errorSymbol) : ks[i + 1]? ≠ some errorSymbol := by
  intro hSecond
  obtain ⟨hBound, hNext⟩ := List.getElem?_eq_some_iff.mp hSecond
  obtain ⟨_, hHere⟩ := List.getElem?_eq_some_iff.mp hFirst
  exact List.isChain_iff_getElem.mp h i hBound ⟨hHere, hNext⟩

/-- A node whose error nodes are merged, with nothing hidden right below it unless it is one itself. -/
theorem Subtree.Merged.siblings {t : Tables} {u : Subtree} (h : Merged t u) (hShows : Shows t u)
    (hBare : t.isHidden u.kind = true → u.isLeaf = true) {i : Nat} {c d : Subtree}
    (hFirst : u.children[i]? = some c) (hSecond : u.children[i + 1]? = some d)
    (hBoth : c.kind = errorSymbol ∧ d.kind = errorSymbol) : c.isLeaf = true ∧ d.isLeaf = true := by
  by_cases hKind : u.kind = errorSymbol
  · exact ⟨h.error hKind c (List.mem_of_getElem? hFirst) hBoth.1,
      h.error hKind d (List.mem_of_getElem? hSecond) hBoth.2⟩
  · exfalso
    have hVisible : t.isHidden u.kind = false := by
      by_contra hHidden
      have hNone : u.children = [] := List.isEmpty_iff.mp (hBare (by simpa using hHidden))
      simp [hNone] at hFirst
    have hShown : ∀ v ∈ u.children, t.isHidden v.kind = false := by
      intro v hMem
      by_contra hHidden
      exact hKind (hShows hVisible v hMem (by simpa using hHidden)).1
    have hApart := (h.shown hKind).apart
    rw [shownKinds_eq_map hShown] at hApart
    exact hApart.not_both (i := i) (by simp [hFirst, hBoth.1]) (by simp [hSecond, hBoth.2])

theorem Node.subtree_of_getElem?_children {n c : Node} {i : Nat} (hAt : n.children[i]? = some c) :
    n.subtree.children[i]? = some c.subtree :=
  (child?_spec hAt).2.1

theorem Node.kind_of_isError {n : Node} (hError : n.isError = true) : n.subtree.kind = errorSymbol :=
  eq_of_beq hError

theorem Node.children_of_isLeaf {n : Node} (hLeaf : n.subtree.isLeaf = true) : n.children = [] := by
  rw [children, List.isEmpty_iff.mp hLeaf]
  rfl

/-- Error nodes merge, in every tree and on every stack. In a tree, an error node that has children
is not next to another error node, nor in one. On a stack, no two error nodes are next to each other,
and the open one is not right above another one. -/
theorem errors_merged (hBuilt : language.tables.Built)
    (hFits : language.tables.rules.size ≤ ruleBound) :
    (∀ {tree : Tree} {accepted : Bool}, Grown language tree accepted →
      ∀ n ∈ tree.rootNode :: tree.inner,
        (∀ (i : Nat) (c d : Node), n.children[i]? = some c → n.children[i + 1]? = some d →
          c.isError = true → d.isError = true → c.children = [] ∧ d.children = [])
        ∧ (n.isError = true → ∀ c ∈ n.children, c.isError = true → c.children = []))
      ∧ ∀ {job : ParseJob} {s : ParseState} {lookahead : Lookahead}, Arises language job s lookahead →
        s.stack.Parted ∧ ∀ accepted stack, job.step s lookahead = .done accepted stack → stack.Parted := by
  obtain ⟨g, m, hFaithful, hProper⟩ := hBuilt.faithful hFits
  have hGenerated := hFaithful.toGenerated
  refine ⟨fun {tree accepted} hGrown n hNode => ?_, fun h => ?_⟩
  · obtain ⟨hBelow, hMerged⟩ := hGrown.neatRoot hBuilt hFaithful hProper
    obtain ⟨hStart, hBare⟩ := hGrown.bare hGenerated hProper
    rcases List.mem_cons.mp hNode with rfl | hNode
    · refine ⟨fun i c d hFirst hSecond hError hNext => ?_, fun hError => ?_⟩
      · refine absurd ?_ (hMerged.apart.not_both (i := i) ?_)
        · have hAt : tree.root.children[i + 1]? = some d.subtree :=
            Node.subtree_of_getElem?_children hSecond
          rw [List.getElem?_map, hAt, Option.map_some, Node.kind_of_isError hNext]
        · have hAt : tree.root.children[i]? = some c.subtree :=
            Node.subtree_of_getElem?_children hFirst
          rw [List.getElem?_map, hAt, Option.map_some, Node.kind_of_isError hError]
      · have hKind : tree.root.kind = errorSymbol := Node.kind_of_isError hError
        have hPlain := @ParseJob.not_splices_errorSymbol ((Parser.ofLanguage language).job .empty) g m
          hGenerated hProper
        exact absurd (hKind.symm.trans hStart) hPlain.2
    · obtain ⟨-, ⟨⟨-, hNode⟩, -⟩, hShows, hLeaf⟩ := of_mem_inner tree
        (fun u hMem => (hBelow u hMem).and (hBare u hMem).2) n hNode
      refine ⟨fun i c d hFirst hSecond hError hNext => ?_, fun hError c hChild hNext => ?_⟩
      · have hBoth := hNode.siblings hShows hLeaf (Node.subtree_of_getElem?_children hFirst)
          (Node.subtree_of_getElem?_children hSecond)
          ⟨Node.kind_of_isError hError, Node.kind_of_isError hNext⟩
        exact ⟨Node.children_of_isLeaf hBoth.1, Node.children_of_isLeaf hBoth.2⟩
      · obtain ⟨i, hAt⟩ := List.mem_iff_getElem?.mp hChild
        have hIn := List.mem_of_getElem? (Node.subtree_of_getElem?_children hAt)
        exact Node.children_of_isLeaf
          (hNode.error (Node.kind_of_isError hError) c.subtree hIn (Node.kind_of_isError hNext))
  · exact ⟨(h.seamless hBuilt hFaithful hProper).woven.parted,
      fun accepted stack => h.parted_of_done hBuilt hFaithful hProper⟩

theorem Arises.of_next? {job : ParseJob} {s : ParseState} {lookahead : Lookahead}
    (h : Arises language job s lookahead) {found : Lookahead × ParseState}
    (hNext : (job.step s lookahead).next? = some found) : Arises language job found.2 found.1 := by
  cases hStep : job.step s lookahead with
  | next next r =>
      rw [hStep] at hNext
      obtain rfl := Option.some.inj hNext
      exact h.step hStep
  | done accepted stack => simp [hStep, ParseStep.next?] at hNext

end

namespace Letters

/-- Three steps into `acd`, the letter that is skipped and the option in front of it are in an open
error node, and so they are below the error node in the tree. -/
theorem errors_merged_of_acd :
    (∃ tree, (parser optionalTables).parse "acd".toUTF8 = some tree
      ∧ (∃ n ∈ tree.inner, n.isError = true ∧ n.children ≠ [])
      ∧ ∀ n ∈ tree.rootNode :: tree.inner,
        (∀ (i : Nat) (c d : Node), n.children[i]? = some c → n.children[i + 1]? = some d →
          c.isError = true → d.isError = true → c.children = [] ∧ d.children = [])
        ∧ (n.isError = true → ∀ c ∈ n.children, c.isError = true → c.children = []))
      ∧ ∃ s lookahead, Arises (parser optionalTables).language
          ((parser optionalTables).job "acd".toUTF8) s lookahead
        ∧ s.stack.openError ≠ #[] ∧ s.stack.Parted := by
  have hMerged := @errors_merged (parser optionalTables).language built_optional fits_optional
  refine ⟨?_, ?_⟩
  · have hError : ((parser optionalTables).parse "acd".toUTF8).elim false (fun tree =>
        tree.inner.any fun n => n.isError && !n.children.isEmpty) = true := by
      decide +kernel
    obtain ⟨tree, hParse, hVerdict, -⟩ := parse_acd
    rw [hParse] at hError
    obtain ⟨n, hNode, hIs⟩ := List.any_eq_true.mp hError
    exact ⟨tree, hParse, ⟨n, hNode, by simpa using hIs⟩, hMerged.1 (.parse _ rfl hParse hVerdict)⟩
  · let job := (parser optionalTables).job "acd".toUTF8
    let first := job.nextInput (ParseJob.start none 0)
    have hFirst : Arises (parser optionalTables).language job first.2 first.1 := .parse _ rfl _ 0
    let third := ((job.step first.2 first.1).next?.bind fun found =>
      (job.step found.2 found.1).next?).bind fun found => (job.step found.2 found.1).next?
    have hOpen : third.any (fun found => !found.2.stack.openError.isEmpty) = true := by
      decide +kernel
    cases hThird : third with
    | none =>
        rw [hThird] at hOpen
        exact absurd hOpen Bool.false_ne_true
    | some last =>
        obtain ⟨middle, hMiddle, hLast⟩ := Option.bind_eq_some_iff.mp hThird
        obtain ⟨second, hSecond, hMiddle⟩ := Option.bind_eq_some_iff.mp hMiddle
        have hArises := ((hFirst.of_next? hSecond).of_next? hMiddle).of_next? hLast
        rw [hThird] at hOpen
        exact ⟨last.2, last.1, hArises, by simpa using hOpen, (hMerged.2 hArises).1⟩

end Letters
end IncrementalParsing
