import IncrementalParsing.Proofs.Labels.Language
import IncrementalParsing.Proofs.Parser.Origins

/-! A clean node does not depend on what is around it. Wherever a parse stands in the state that the node
records, with the tokens ahead that the node was made of, it makes the same node. -/
namespace IncrementalParsing
open Subtree ParseStack

namespace ParseJob
variable {language : Language} {g : Grammar} {m : Automaton} {job other : ParseJob}
  {s r : ParseState} {lookahead ahead : Lookahead} {node : Subtree} {below : List StackEntry}

/-- Where the entry of a clean node is on top, it has been built by what comes up again. -/
theorem Reduces.echoes (h : job.Reduces s lookahead node below r)
    (hRepeatable : Repeatable language job r lookahead) (hWide : 0 < node.total)
    (hWhole : node.hasError = false) (hFirm : node.isFragile = false) :
    ∃ skips, Echoes language job below node.total skips r lookahead := by
  obtain ⟨entry, hTops, rfl, -⟩ := h.entry
  obtain ⟨trailing, hEntries, hExtra, hCounts⟩ := hTops.entries
  rw [hasError_withField] at hWhole
  rw [isFragile_withField] at hFirm
  have hClean : Whole [entry] := List.forall_mem_singleton.mpr ⟨hCounts, hWhole, hFirm⟩
  have hWidth : width (content [entry]) = (entry.subtree.withField none).total := by
    simp [content, width_cons]
  have hEchoes := hRepeatable trailing [entry] below hEntries hExtra (List.cons_ne_nil _ _) hClean h.level
  rw [hWidth, if_pos hWide] at hEchoes
  exact ⟨_, hEchoes⟩

/-- What shows the same as the stack behind a reduction has a node on top that shows the same, with the
state that the tables lead to. -/
theorem Reduces.tops_of_mirrors (h : job.Reduces s lookahead node below r) {base : List StackEntry}
    {stack : ParseStack} (hMirrors : Mirrors below base r.stack stack) :
    ∃ entry, stack.Tops entry base ∧ (entry.subtree.withField none).shape = node.shape
      ∧ job.tables.goto (topState below) node.kind = some entry.state := by
  obtain ⟨e, hTops, rfl, hGoto⟩ := h.entry
  obtain ⟨e', hTops', hFace⟩ := hMirrors.tops hTops
  refine ⟨e', hTops', ?_, ?_⟩
  · rw [shape_withField, shape_withField]
    exact congrArg (withField none) (congrArg (·.2.2) hFace)
  · exact hGoto.trans (congrArg (fun face => some face.1) hFace).symm

end ParseJob

section
variable {p : Parser} {text : ByteArray} {tree : Tree}

/-- At the start there is nothing to repeat. -/
theorem Parser.repeatable_opening (p : Parser) (text : ByteArray) :
    ParseJob.Repeatable p.language (p.job text) (p.opening text).1 (p.opening text).2 := by
  intro trailing inner base hSplit _ hSome
  rw [(p.entries_opening text).1, eq_comm, List.append_eq_nil_iff, List.append_eq_nil_iff] at hSplit
  exact absurd hSplit.2.1 hSome

/-- A clean node does not depend on its context. It was made by a reduction on some token behind it. A
parse that stands in the state that the node records makes such a node on top of the entries it has, if
nothing has been read ahead, the tokens are the same up to that one, and the first of them is shifted. All
that it may recover from are invalid tokens behind the node, which it skips. Both parses read all their
tokens: where nodes are taken over, a larger one may come to stand there at once. -/
theorem clean_node_independent (hBuilt : p.language.tables.Built)
    (hFits : p.language.tables.rules.size ≤ ruleBound)
    (hRoomy : (p.job text).Roomy (p.opening text).1 (p.opening text).2)
    (hParse : p.parse text = some tree) {n : Node} (hMem : n ∈ tree.inner)
    (hInner : n.subtree.isLeaf = false) (hWide : 0 < n.subtree.total)
    (hWhole : n.subtree.hasError = false) (hFirm : n.subtree.isFragile = false) :
    ∃ state s below r count, n.subtree.info.state = some state
      ∧ (p.job text).Reaches (p.opening text) s
      ∧ (p.job text).Reduces s.1 s.2 (n.subtree.withField none) below r
      ∧ topStop below = n.start ∧ topState below = state
      ∧ (p.job text).Faces s.1 s.2
      ∧ s.1.stack.stop = n.start + width ((p.job text).inputFrom n.start count)
      ∧ ∀ other onset ahead, ParseJob.Onset p.language other state onset ahead →
        (other.inputFrom onset.stack.stop (count + 1)).map look
          = ((p.job text).inputFrom n.start (count + 1)).map look →
        ∃ u entry, other.Quiet (onset.stack.stop + n.subtree.total ≤ ·) (onset, ahead) u
          ∧ u.1.pending = [] ∧ u.1.stack.Tops entry onset.stack.closeError.entries
          ∧ (entry.subtree.withField none).shape = (n.subtree.withField none).shape
          ∧ p.language.tables.goto state n.subtree.kind = some entry.state := by
  obtain ⟨g, m, hFaithful, hProper⟩ := hBuilt.faithful hFits
  rw [← isLeaf_withField none] at hInner
  rw [← total_withField none] at hWide ⊢
  rw [← hasError_withField none] at hWhole
  rw [← isFragile_withField _ none] at hFirm
  obtain ⟨s, below, r, hReach, hReduces, hStart⟩ :=
    Parser.originates_of_parse hFaithful hProper hRoomy hParse n hMem hInner hWhole
  obtain ⟨-, hRepeatable⟩ := (p.repeatable_opening text).reaches hFaithful hProper
    (fun _ => hBuilt.of_isErrorToken) (Parser.ordinary_opening hRoomy)
    (hReach.tail (c := (r, s.2)) hReduces.step)
  obtain ⟨skips, ⟨serial, hRead⟩, count, hStop, hEchoes⟩ := hReduces.echoes hRepeatable hWide hWhole hFirm
  rw [hReduces.stop] at hRead hStop
  rw [hStart] at hStop hEchoes
  refine ⟨topState below, s, below, r, count, ?_, hReach, hReduces, hStart, rfl, ⟨serial, hRead⟩, hStop,
    fun other onset ahead hOnset hLooks => ?_⟩
  · rw [← info_withField none]
    exact hReduces.state
  · obtain ⟨u, hEcho⟩ := hEchoes other onset ahead hOnset hLooks
    obtain ⟨entry, hTops, hShape, hGoto⟩ := hReduces.tops_of_mirrors hEcho.mirrors
    refine ⟨u, entry, hEcho.quiet.mono fun position hMay => hMay.2, hEcho.pending, hTops, hShape, ?_⟩
    rw [← kind_withField none]
    exact hGoto

end

namespace Labels

/-- Files of a letter and a number have the same tokens, whatever the letter is. -/
theorem looks_numbered (count : Nat) : ((parser.job "b5".toUTF8).inputFrom 0 count).map look
    = ((parser.job "a5".toUTF8).inputFrom 0 count).map look := by
  let job := parser.job "a5".toUTF8
  let other := parser.job "b5".toUTF8
  have hEnd : ∀ count, (other.inputFrom 2 count).map look = (job.inputFrom 2 count).map look := by
    have hLast : (other.readAt 0 2).look = (job.readAt 0 2).look ∧ (other.readAt 0 2).total = 0
        ∧ (job.readAt 0 2).total = 0 := by decide +kernel
    intro count
    induction count with
    | zero => rfl
    | succ count ih => simp [ParseJob.inputFrom, hLast, ih]
  obtain ⟨hTokens, hWidth, hWidth'⟩ : (other.inputFrom 0 2).map look = (job.inputFrom 0 2).map look
      ∧ width (other.inputFrom 0 2) = 2 ∧ width (job.inputFrom 0 2) = 2 := by decide +kernel
  rcases count with _ | _ | count
  · rfl
  · decide +kernel
  · rw [show count + 1 + 1 = 2 + count by omega, ParseJob.inputFrom_add, ParseJob.inputFrom_add, hWidth,
      hWidth', List.map_append, List.map_append, hTokens, hEnd]

/-- The label in front of a number is made again from another letter. -/
theorem label_independent : ∃ tree, parser.parse "a5".toUTF8 = some tree ∧ ∃ n ∈ tree.inner,
    n.subtree.kind = label ∧ n.subtree.total = 1 ∧ ∃ u entry,
      (parser.job "b5".toUTF8).Quiet (1 ≤ ·) (parser.opening "b5".toUTF8) u
        ∧ u.1.stack.Tops entry []
        ∧ (entry.subtree.withField none).shape = (n.subtree.withField none).shape := by
  let onset := parser.opening "b5".toUTF8
  have hRoomy : ∀ text ∈ ["a5".toUTF8, "b5".toUTF8],
      (parser.job text).staysRoomy 10 (parser.opening text).1 (parser.opening text).2 = true := by
    decide +kernel
  have hOnset : ParseJob.Onset language (parser.job "b5".toUTF8) 0 onset.1 onset.2 := {
    ordinary := Parser.ordinary_opening (ParseJob.roomy_of_staysRoomy (hRoomy _ (by simp)))
    pending := by decide +kernel
    stands := by decide +kernel
    shift := ⟨1, by decide +kernel⟩ }
  have hBelow : onset.1.stack.stop = 0 ∧ onset.1.stack.closeError.entries = [] := by decide +kernel
  have hAll : (parser.parse "a5".toUTF8).elim false (fun tree => tree.inner.any fun n =>
      n.subtree.kind == label && n.subtree.isLeaf == false && n.subtree.total == 1
        && n.subtree.hasError == false && n.subtree.isFragile == false && n.start == 0
        && n.subtree.info.state == some 0) = true := by
    decide +kernel
  cases hParse : parser.parse "a5".toUTF8 with
  | none =>
      rw [hParse] at hAll
      exact absurd hAll Bool.false_ne_true
  | some tree =>
      rw [hParse] at hAll
      obtain ⟨n, hMem, hNode⟩ := List.any_eq_true.mp hAll
      simp only [Bool.and_eq_true, beq_iff_eq] at hNode
      obtain ⟨⟨⟨⟨⟨⟨hKind, hInner⟩, hTotal⟩, hWhole⟩, hFirm⟩, hStart⟩, hState⟩ := hNode
      obtain ⟨state, s, below, r, count, hRecorded, -, -, -, -, -, -, hMade⟩ :=
        clean_node_independent built_tables fits_tables
          (ParseJob.roomy_of_staysRoomy (hRoomy _ (by simp))) hParse hMem
          hInner (hTotal ▸ Nat.one_pos) hWhole hFirm
      obtain rfl := Option.some.inj (hState.symm.trans hRecorded)
      rw [hStart] at hMade
      obtain ⟨u, entry, hQuiet, -, hTops, hShape, -⟩ := hMade _ _ _ hOnset (hBelow.1 ▸ looks_numbered _)
      rw [hBelow.1, hTotal] at hQuiet
      rw [hBelow.2] at hTops
      exact ⟨tree, rfl, n, hMem, hKind, hTotal, u, entry, hQuiet, hTops, hShape⟩

end Labels
end IncrementalParsing
