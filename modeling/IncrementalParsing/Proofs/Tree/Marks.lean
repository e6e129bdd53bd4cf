import IncrementalParsing.Proofs.Tree.Preorder
import IncrementalParsing.Proofs.Tree.Reports

/-! Marks of damage and reports, node by node. A node is marked exactly if damage is in it, so the
reports, which pass over what is not marked, leave nothing out. -/
namespace IncrementalParsing
open Subtree

/-- A node is marked for what it is or for its children. An inserted node is a token, but no error token
and no error node. -/
structure Subtree.Marked (t : Tables) (u : Subtree) : Prop where
  iff : u.hasError = true ↔ u.isMissing = true ∨ t.isErrorToken u.kind = true ∨ u.kind = errorSymbol
    ∨ ∃ c ∈ u.children, c.hasError = true
  missing : u.isMissing = true → t.isErrorToken u.kind = false ∧ u.kind ≠ errorSymbol
  leaf : u.isMissing = true ∨ t.isErrorToken u.kind = true → u.isLeaf = true

namespace Subtree
variable {t : Tables} {u : Subtree}

theorem All.everywhere {P : Subtree → Prop} (h : All P u) : All (All P) u := by
  induction u using children_induction with
  | node u ih => exact all_iff.mpr ⟨h, fun c hChild => ih c hChild (h.child hChild)⟩

/-- What part a subtree plays does not change its mark. -/
theorem Marked.withField (h : Marked t u) (field : Option FieldId) : Marked t (u.withField field) where
  iff := by simpa using h.iff
  missing := by simpa using h.missing
  leaf := by simpa using h.leaf

/-- A new node is marked if a child is, or if it is an error node. -/
theorem marked_branch {serial : Nat} {kind : SymbolId} {state : Option StateId}
    {children : List Subtree} {lookaheadEnd : Nat} {fragile : Bool}
    (hKind : t.isErrorToken kind = false) :
    Marked t (branch serial kind state children lookaheadEnd fragile) where
  iff := by
    rw [hasError_branch_iff]
    constructor
    · exact fun h => .inr (.inr h)
    · rintro (h | h | h)
      · exact absurd h Bool.false_ne_true
      · exact absurd (hKind.symm.trans h) Bool.false_ne_true
      · exact h
  missing := fun h => absurd h Bool.false_ne_true
  leaf := by
    rintro (h | h)
    · exact absurd h Bool.false_ne_true
    · exact absurd (hKind.symm.trans h) Bool.false_ne_true

/-- A token is marked if it is invalid. -/
theorem marked_leaf {serial : Nat} {kind : SymbolId} {padding size lookahead : Nat} {invalid : Bool}
    (hInvalid : invalid = true ↔ t.isErrorToken kind = true ∨ kind = errorSymbol) :
    Marked t (leaf serial kind padding size lookahead invalid) where
  iff := by
    change invalid = true ↔ false = true ∨ t.isErrorToken kind = true ∨ kind = errorSymbol
      ∨ ∃ c ∈ [], _
    rw [hInvalid]
    simp
  missing := fun h => absurd h Bool.false_ne_true
  leaf := fun _ => rfl

theorem marked_inserted {serial : Nat} {terminal : SymbolId}
    (hToken : t.isErrorToken terminal = false) (hError : terminal ≠ errorSymbol) :
    Marked t (inserted serial terminal) where
  iff := ⟨fun _ => .inl rfl, fun _ => rfl⟩
  missing := fun _ => ⟨hToken, hError⟩
  leaf := fun _ => rfl

end Subtree

/-- Whatever a parse makes is marked if and only if there is damage in it. -/
theorem ParseJob.upheld_marked {job : ParseJob} {g : Grammar} {m : Automaton}
    (hGenerated : job.tables.Generated g m) (hProper : g.Proper)
    (hTokens : ∀ symbol, job.tables.isErrorToken symbol = true →
      errorSymbol < symbol ∧ job.tables.isTerminal symbol = true) :
    job.Upheld g m fun u => Rooted g u ∧ Marked job.tables u := by
  have hOther : ∀ symbol, symbol ≤ errorSymbol ∨ job.tables.isTerminal symbol = false →
      job.tables.isErrorToken symbol = false := by
    refine fun symbol hOther => Bool.eq_false_iff.mpr fun hIs => ?_
    obtain ⟨hBehind, hTerminal⟩ := hTokens symbol hIs
    rcases hOther with hReserved | hNonterminal
    · exact absurd hBehind (Nat.not_lt.mpr hReserved)
    · simp [hTerminal] at hNonterminal
  have hEnd : job.tables.isErrorToken endSymbol = false := hOther _ (.inl (by decide))
  refine upheld_beside hGenerated hProper ⟨fun field u h => h.withField field, ?_⟩ ?_ ?_ ?_
  · exact fun serial state children _ _ => marked_branch (hOther _ (.inl (Nat.le_refl _)))
  · intro serial position
    have hLast : ∀ padding, Marked job.tables (endLeaf serial padding) := fun padding =>
      marked_leaf (by rw [hEnd]; decide)
    rcases job.readAt_cases serial position with ⟨_, _, _, _, -, -, hRead⟩ | ⟨_, hRead⟩
    · rw [hRead]
      exact marked_leaf (by rw [isInvalid, Bool.or_eq_true, beq_iff_eq, or_comm])
    · rw [hRead]
      exact hLast _
  · intro serial terminal hMem
    simp only [Tables.insertable, List.mem_filter, List.mem_range'_1, Bool.not_eq_true'] at hMem
    exact marked_inserted hMem.2 (Nat.ne_of_gt hMem.1.1)
  · intro s rule info hRule _ lookaheadStop
    obtain ⟨source, hSource, rfl⟩ := hGenerated.rule_of_rules hRule
    refine marked_branch (hOther _ (.inr ?_))
    rw [hGenerated.isTerminal_iff]
    exact decide_eq_false (Nat.not_lt.mpr (hProper.lhs source (Array.mem_of_getElem? hSource)).1)

/-- A node is damage by itself. -/
def Node.Damaged (n : Node) : Prop :=
  n.isError = true ∨ n.isErrorToken = true ∨ n.isMissing = true

/-- The report that a node calls for. An error node does if it wraps anything that is not reported
itself. -/
inductive Node.CallsFor (n : Node) : Diagnostic → Prop
  | missing (hMissing : n.isMissing = true) :
      CallsFor n ⟨.missing n.kind, n.startOffset, n.endOffset⟩
  | invalidToken (hToken : n.isErrorToken = true) :
      CallsFor n ⟨.invalidToken n.kind, n.startOffset, n.endOffset⟩
  | unexpected (hError : n.isError = true) (hChild : ∃ c ∈ n.children, c.isErrorToken = false) :
      CallsFor n ⟨.unexpected, n.startOffset, n.endOffset⟩

section
variable {tree : Tree}

/-- The mark of a node says that it is damaged or has a child that is marked. -/
theorem marked_node_iff {u : Subtree} (start : Nat) (h : Marked tree.tables u) :
    u.hasError = true ↔ Node.Damaged ⟨tree, u, start⟩ ∨ ∃ c ∈ u.children, c.hasError = true := by
  have hError : Node.isError ⟨tree, u, start⟩ = true ↔ u.kind = errorSymbol := beq_iff_eq
  rw [h.iff, Node.Damaged, hError]
  change u.isMissing = true ∨ tree.tables.isErrorToken u.kind = true ∨ _ ↔
    (_ ∨ tree.tables.isErrorToken u.kind = true ∨ u.isMissing = true) ∨ _
  tauto

/-- Without damage there is nothing to report. -/
theorem diagnostic?_eq_none_of_not_damaged {n : Node} (h : ¬ n.Damaged) : n.diagnostic? = none := by
  simp only [Node.Damaged, not_or] at h
  simp [Node.diagnostic?, Node.damage?, h]

mutual
/-- Among a node and what is below it there is damage exactly if it is marked. -/
theorem exists_damaged_preorderFrom (depth start : Nat) (tail : List (Nat × Node)) :
    ∀ u : Subtree, All (Marked tree.tables) u →
      ((∃ entry ∈ preorderFrom tree depth start tail u, entry.2.Damaged) ↔
        u.hasError = true ∨ ∃ entry ∈ tail, entry.2.Damaged)
  | mk info field children, hAll => by
      rw [preorderFrom, marked_node_iff start hAll.self, List.exists_mem_cons_iff,
        exists_damaged_preorderAll (depth + 1) start info.offsets tail children hAll.2, or_assoc]
      rfl

theorem exists_damaged_preorderAll (depth start : Nat) (offsets : List Nat) (tail : List (Nat × Node)) :
    ∀ ts : List Subtree, AllIn (Marked tree.tables) ts →
      ((∃ entry ∈ preorderAll tree depth start offsets tail ts, entry.2.Damaged) ↔
        (∃ c ∈ ts, c.hasError = true) ∨ ∃ entry ∈ tail, entry.2.Damaged)
  | [], _ => by simp [preorderAll]
  | u :: ts, hAll => by
      rw [preorderAll, exists_damaged_preorderFrom depth _ _ u hAll.1,
        exists_damaged_preorderAll depth start offsets.tail tail ts hAll.2, List.exists_mem_cons_iff,
        or_assoc]
end

mutual
/-- What is not marked has no report in it. -/
theorem filterMap_preorderFrom_of_unmarked (depth start : Nat) (tail : List (Nat × Node)) :
    ∀ u : Subtree, All (Marked tree.tables) u → ¬ u.hasError = true →
      (preorderFrom tree depth start tail u).filterMap (fun entry => entry.2.diagnostic?)
        = tail.filterMap fun entry => entry.2.diagnostic?
  | mk info field children, hAll, hError => by
      rw [marked_node_iff start hAll.self, not_or] at hError
      rw [preorderFrom, List.filterMap_cons, diagnostic?_eq_none_of_not_damaged hError.1]
      exact filterMap_preorderAll_of_unmarked (depth + 1) start info.offsets tail children hAll.2
        fun c hMem hMarked => hError.2 ⟨c, hMem, hMarked⟩

theorem filterMap_preorderAll_of_unmarked (depth start : Nat) (offsets : List Nat)
    (tail : List (Nat × Node)) :
    ∀ ts : List Subtree, AllIn (Marked tree.tables) ts → (∀ c ∈ ts, ¬ c.hasError = true) →
      (preorderAll tree depth start offsets tail ts).filterMap (fun entry => entry.2.diagnostic?)
        = tail.filterMap fun entry => entry.2.diagnostic?
  | [], _, _ => rfl
  | u :: ts, hAll, hError => by
      rw [preorderAll, filterMap_preorderFrom_of_unmarked depth _ _ u hAll.1 (hError u (by simp))]
      exact filterMap_preorderAll_of_unmarked depth start offsets.tail tail ts hAll.2
        fun c hMem => hError c (by simp [hMem])
end

mutual
/-- The reports on a node are those on it and on what is below it, in order. -/
theorem diagnosticsFrom_eq_filterMap (depth start : Nat) (tail : List (Nat × Node)) :
    ∀ u : Subtree, All (Marked tree.tables) u →
      diagnosticsFrom tree start (tail.filterMap fun entry => entry.2.diagnostic?) u
        = (preorderFrom tree depth start tail u).filterMap fun entry => entry.2.diagnostic?
  | mk info field children, hAll => by
      rw [diagnosticsFrom_eq]
      split
      · have hBelow := diagnosticsAll_eq_filterMap (depth + 1) start info.offsets tail children hAll.2
        rw [preorderFrom, List.filterMap_cons, ← hBelow]
        cases Node.diagnostic? ⟨tree, mk info field children, start⟩ <;> rfl
      · rename_i hError
        exact (filterMap_preorderFrom_of_unmarked depth start tail _ hAll hError).symm

theorem diagnosticsAll_eq_filterMap (depth start : Nat) (offsets : List Nat) (tail : List (Nat × Node)) :
    ∀ ts : List Subtree, AllIn (Marked tree.tables) ts →
      diagnosticsAll tree start offsets (tail.filterMap fun entry => entry.2.diagnostic?) ts
        = (preorderAll tree depth start offsets tail ts).filterMap fun entry => entry.2.diagnostic?
  | [], _ => rfl
  | u :: ts, hAll => by
      rw [diagnosticsAll, preorderAll, diagnosticsAll_eq_filterMap depth start offsets.tail tail ts hAll.2,
        diagnosticsFrom_eq_filterMap depth _ _ u hAll.1]
end

/-- The report on a marked node is the one that it calls for. -/
theorem diagnostic?_eq_some_iff {n : Node} {d : Diagnostic}
    (hTokens : ∀ symbol, n.tree.tables.isErrorToken symbol = true → errorSymbol < symbol)
    (h : Marked n.tree.tables n.subtree) : n.diagnostic? = some d ↔ n.CallsFor d := by
  have hMissing : n.isMissing = true → n.isErrorToken = false ∧ n.isError = false := fun hIs =>
    ⟨(h.missing hIs).1, beq_eq_false_iff_ne.mpr (h.missing hIs).2⟩
  have hToken : n.isErrorToken = true → n.isError = false := fun hIs =>
    beq_eq_false_iff_ne.mpr (Nat.ne_of_gt (hTokens n.subtree.kind hIs))
  have hWraps : (n.children.all Node.isErrorToken) = false ↔ ∃ c ∈ n.children, c.isErrorToken = false := by
    simp
  constructor
  · unfold Node.diagnostic? Node.damage?
    intro hReport
    split at hReport
    · rename_i hIs
      obtain rfl := Option.some.inj hReport
      exact .missing hIs
    · split at hReport
      · rename_i hIs
        obtain rfl := Option.some.inj hReport
        exact .invalidToken hIs
      · split at hReport
        · rename_i hIs
          rw [Bool.and_eq_true, Bool.not_eq_true', hWraps] at hIs
          obtain rfl := Option.some.inj hReport
          exact .unexpected hIs.1 hIs.2
        · simp at hReport
  · rintro (hIs | hIs | ⟨hIs, hChild⟩)
    · simp [Node.diagnostic?, Node.damage?, hIs]
    · have hNot : n.isMissing = false := Bool.eq_false_iff.mpr fun hBoth => by
        simp [(hMissing hBoth).1] at hIs
      simp [Node.diagnostic?, Node.damage?, hIs, hNot]
    · have hNot : n.isMissing = false := Bool.eq_false_iff.mpr fun hBoth => by
        simp [(hMissing hBoth).2] at hIs
      have hOther : n.isErrorToken = false := Bool.eq_false_iff.mpr fun hBoth => by
        simp [hToken hBoth] at hIs
      rw [← hWraps] at hChild
      simp [Node.diagnostic?, Node.damage?, hIs, hNot, hOther, hChild]

end

section
variable {language : Language} {tree : Tree} {accepted : Bool}

/-- Everything in a tree is marked like that, however the tree has come about. -/
theorem Grown.all_marked (hBuilt : language.tables.Built) (h : Grown language tree accepted) :
    ∀ u ∈ tree.root.children, All (Marked tree.tables) u := by
  obtain ⟨g, m, hGenerated, hProper⟩ := hBuilt.generated
  have hUpheld : ∀ (p : Parser) (text : ByteArray), p.language = language →
      (p.job text).Upheld g m fun u => Rooted g u ∧ Marked language.tables u := by
    rintro p text rfl
    exact ParseJob.upheld_marked hGenerated hProper fun _ => hBuilt.of_isErrorToken
  obtain ⟨hLanguage, p, text, s, stack, rfl, hRests⟩ := h.rests hUpheld
  rw [Tree.tables, hLanguage]
  exact fun u hMem => (hRests.below (hUpheld p text rfl) u hMem).imp fun _ hNode => hNode.2

/-- Every node below the root is marked exactly if there is damage in it. The reports are those on the
nodes below the root that call for one, in order, and every such node has one. -/
theorem marks_and_reports_exact (hBuilt : language.tables.Built)
    (hGrown : Grown language tree accepted) :
    (∀ n ∈ tree.inner, n.hasError = true ↔ ∃ entry ∈ n.preorder, entry.2.Damaged)
      ∧ tree.diagnostics = tree.inner.filterMap Node.diagnostic?
      ∧ (∀ n ∈ tree.inner, ∀ d, n.diagnostic? = some d ↔ n.CallsFor d)
      ∧ ∀ n ∈ tree.inner, n.isMissing = true ∨ n.isErrorToken = true → n.children = [] := by
  have hMarked := hGrown.all_marked hBuilt
  have hNodes : ∀ n ∈ tree.inner, n.tree = tree ∧ All (Marked tree.tables) n.subtree :=
    of_mem_inner tree fun u hMem => (hMarked u hMem).everywhere
  have hBehind : ∀ symbol, tree.tables.isErrorToken symbol = true → errorSymbol < symbol := by
    rw [Tree.tables, hGrown.language_eq]
    exact fun symbol hIs => (hBuilt.of_isErrorToken hIs).1
  refine ⟨fun n hMem => ?_, ?_, fun n hMem d => ?_, fun n hMem hCase => ?_⟩
  · obtain ⟨hTree, hAll⟩ := hNodes n hMem
    rw [Node.preorder, hTree, exists_damaged_preorderFrom 0 n.start [] n.subtree hAll]
    simp [Node.hasError]
  · rw [hGrown.diagnostics_eq hBuilt, inner_eq, List.filterMap_map]
    split
    · exact diagnosticsAll_eq_filterMap 1 0 _ [] _ (allIn_iff.mpr hMarked)
    · rename_i hError
      obtain ⟨g, m, hGenerated, hProper⟩ := hBuilt.generated
      have hRoot := hGrown.flaggedRoot hGenerated hProper fun _ => hBuilt.of_isErrorToken
      refine (filterMap_preorderAll_of_unmarked 1 0 _ [] _ (allIn_iff.mpr hMarked) fun c hMem hIs => ?_).symm
      exact hError (hRoot.hasError.mpr (.inl ⟨c, hMem, hIs⟩))
  · obtain ⟨hTree, hAll⟩ := hNodes n hMem
    exact diagnostic?_eq_some_iff (hTree ▸ hBehind) (hTree ▸ hAll.self)
  · obtain ⟨hTree, hAll⟩ := hNodes n hMem
    have hLeaf := hAll.self.leaf (hTree ▸ hCase)
    rw [Node.children, List.isEmpty_iff.mp hLeaf]
    rfl

end

namespace Labels

/-- The tree of a file that is cut off has a marked node and a report. -/
theorem marks_of_cut : ∃ tree, parser.parse "a".toUTF8 = some tree ∧ tree.diagnostics ≠ []
    ∧ (∀ n ∈ tree.inner, n.hasError = true ↔ ∃ entry ∈ n.preorder, entry.2.Damaged)
    ∧ tree.diagnostics = tree.inner.filterMap Node.diagnostic?
    ∧ (∀ n ∈ tree.inner, ∀ d, n.diagnostic? = some d ↔ n.CallsFor d)
    ∧ ∀ n ∈ tree.inner, n.isMissing = true ∨ n.isErrorToken = true → n.children = [] := by
  have hAll : (parser.parse "a".toUTF8).elim false (fun tree => !tree.diagnostics.isEmpty) = true := by
    decide +kernel
  cases hParse : parser.parse "a".toUTF8 with
  | none =>
      rw [hParse] at hAll
      exact absurd hAll Bool.false_ne_true
  | some tree =>
      rw [hParse] at hAll
      obtain ⟨accepted, hVerdict⟩ := Parser.exists_verdict? hParse
      refine ⟨tree, rfl, ?_, marks_and_reports_exact built_tables (.parse parser rfl hParse hVerdict)⟩
      simpa using hAll

end Labels
end IncrementalParsing
