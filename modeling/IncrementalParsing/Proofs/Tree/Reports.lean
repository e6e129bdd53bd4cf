import IncrementalParsing.Node.Diagnostic
import IncrementalParsing.Proofs.Parser.Arising

/-! Damage and the reports on it. Every damaged node has a reported node in it, so a damaged tree has
reports, unless nothing at all is in it. -/
namespace IncrementalParsing
open Subtree

/-- Damage of a node has a cause in it, error tokens and error nodes are damaged, and below other
nodes no error node is empty. -/
structure Subtree.Flagged (t : Tables) (u : Subtree) : Prop where
  cause : u.hasError = true → u.isMissing = true ∨ t.isErrorToken u.kind = true
    ∨ u.kind = errorSymbol ∨ ∃ c ∈ u.children, c.hasError = true
  token : t.isErrorToken u.kind = true → u.hasError = true
  error : u.kind = errorSymbol → u.isLeaf = false → u.hasError = true
  filled : u.kind ≠ errorSymbol → ∀ c ∈ u.children, c.kind = errorSymbol → c.isLeaf = false

namespace Subtree
variable {t : Tables} {u : Subtree}

@[simp] theorem hasError_withField (field : Option FieldId) (u : Subtree) :
    (u.withField field).hasError = u.hasError := by
  simp [hasError]

@[simp] theorem isMissing_withField (field : Option FieldId) (u : Subtree) :
    (u.withField field).isMissing = u.isMissing := by
  simp [isMissing]

theorem hasError_branch_iff (serial : Nat) (kind : SymbolId) (state : Option StateId)
    (children : List Subtree) (lookaheadEnd : Nat) (fragile : Bool) :
    (branch serial kind state children lookaheadEnd fragile).hasError = true ↔
      kind = errorSymbol ∨ ∃ c ∈ children, c.hasError = true := by
  change (kind == errorSymbol || children.any hasError) = true ↔ _
  rw [Bool.or_eq_true, beq_iff_eq, List.any_eq_true]

theorem Flagged.withField (h : Flagged t u) (field : Option FieldId) :
    Flagged t (u.withField field) where
  cause := by simpa using h.cause
  token := by simpa using h.token
  error := by simpa using h.error
  filled := by simpa using h.filled

/-- A leaf is damaged if it is an error token, and only for a reason of its own. -/
theorem Flagged.of_isLeaf (hLeaf : u.isLeaf = true)
    (hCause : u.hasError = true →
      u.isMissing = true ∨ t.isErrorToken u.kind = true ∨ u.kind = errorSymbol)
    (hToken : t.isErrorToken u.kind = true → u.hasError = true) : Flagged t u where
  cause := by
    intro hError
    rcases hCause hError with hMissing | hInvalid | hKind
    · exact .inl hMissing
    · exact .inr (.inl hInvalid)
    · exact .inr (.inr (.inl hKind))
  token := hToken
  error := by simp [hLeaf]
  filled := by simp [List.isEmpty_iff.mp hLeaf]

/-- A node over children is damaged for what it is or for them. -/
theorem flagged_branch {serial : Nat} {kind : SymbolId} {state : Option StateId}
    {children : List Subtree} {lookaheadEnd : Nat} {fragile : Bool}
    (hKind : t.isErrorToken kind = false)
    (hFilled : kind ≠ errorSymbol → ∀ c ∈ children, c.kind = errorSymbol → c.isLeaf = false) :
    Flagged t (branch serial kind state children lookaheadEnd fragile) where
  cause := fun hError => .inr (.inr ((hasError_branch_iff ..).mp hError))
  token := by simp [hKind]
  error := fun hIs _ => (hasError_branch_iff ..).mpr (.inl hIs)
  filled := hFilled

/-- Taking hidden nodes apart leaves no empty error node where there was none. -/
theorem filled_unwrapped (hPlain : t.isHidden errorSymbol = false) (ts : List Subtree)
    (hAll : ∀ u ∈ ts, All (Flagged t) u)
    (hFilled : ∀ u ∈ ts, u.kind = errorSymbol → u.isLeaf = false) :
    ∀ u ∈ unwrapped (t.isHidden ·.kind) ts, u.kind = errorSymbol → u.isLeaf = false := by
  induction ts using unwrapped_induction (t.isHidden ·.kind) with
  | nil => simp
  | opened u ts hOpens ihChildren ihRest =>
      have hKind : u.kind ≠ errorSymbol := by
        intro hIs
        simp [hIs, hPlain] at hOpens
      intro v hMem
      rw [unwrapped_of_opens hOpens] at hMem
      rcases List.mem_append.mp hMem with hMem | hMem
      · refine ihChildren ?_ ?_ v hMem
        · intro w hChild
          obtain ⟨c, hIn, rfl⟩ := List.mem_map.mp hChild
          exact ((hAll u (by simp)).child hIn).withField (fun _ _ h => h.withField _) _
        · intro w hChild
          obtain ⟨c, hIn, rfl⟩ := List.mem_map.mp hChild
          simpa [orField] using (hAll u (by simp)).self.filled hKind c hIn
      · exact ihRest (fun w hMem => hAll w (by simp [hMem])) (fun w hMem => hFilled w (by simp [hMem]))
          v hMem
  | closed u ts hClosed ih =>
      intro v hMem
      rw [unwrapped_of_not_opens hClosed] at hMem
      rcases List.mem_cons.mp hMem with rfl | hMem
      · exact hFilled v (by simp)
      · exact ih (fun w hMem => hAll w (by simp [hMem])) (fun w hMem => hFilled w (by simp [hMem]))
          v hMem

end Subtree

namespace ParseJob
variable {job : ParseJob} {g : Grammar} {m : Automaton}

/-- What is read is damaged if it is an error token, or an error itself. -/
theorem flagged_readAt (hTokens : ∀ symbol, job.tables.isErrorToken symbol = true → errorSymbol < symbol)
    (serial position : Nat) : Flagged job.tables (job.readAt serial position) := by
  have hEnd : job.tables.isErrorToken endSymbol = false := by
    cases hIs : job.tables.isErrorToken endSymbol with
    | false => rfl
    | true => exact absurd (hTokens _ hIs) (by decide)
  have hLast : ∀ padding, Flagged job.tables (endLeaf serial padding) := fun padding =>
    .of_isLeaf rfl (fun hError => absurd hError Bool.false_ne_true)
      fun hIs => absurd (hEnd.symm.trans hIs) Bool.false_ne_true
  rcases job.readAt_cases serial position with ⟨kind, _, _, _, -, -, hRead⟩ | ⟨_, hRead⟩
  · rw [hRead]
    refine .of_isLeaf rfl (fun hError => ?_) fun hIs => ?_
    · replace hError : (kind == errorSymbol || job.tables.isErrorToken kind) = true := hError
      rw [Bool.or_eq_true, beq_iff_eq] at hError
      exact .inr hError.symm
    · change (kind == errorSymbol || job.tables.isErrorToken kind) = true
      rw [Bool.or_eq_true]
      exact .inr hIs
  · rw [hRead]
    exact hLast _

theorem upheld_flagged (hGenerated : job.tables.Generated g m) (hProper : g.Proper)
    (hTokens : ∀ symbol, job.tables.isErrorToken symbol = true →
      errorSymbol < symbol ∧ job.tables.isTerminal symbol = true) :
    job.Upheld g m fun u => Rooted g u ∧ Flagged job.tables u := by
  have hNonterminal : ∀ symbol, symbol = errorSymbol ∨ job.tables.isTerminal symbol = false →
      job.tables.isErrorToken symbol = false := by
    intro symbol hOther
    cases hIs : job.tables.isErrorToken symbol with
    | false => rfl
    | true =>
        obtain ⟨hBehind, hTerminal⟩ := hTokens symbol hIs
        rcases hOther with rfl | hOther
        · exact absurd hBehind (Nat.lt_irrefl _)
        · rw [hTerminal] at hOther
          simp at hOther
  refine upheld_beside hGenerated hProper ⟨fun field u h => h.withField field, ?_⟩
    (flagged_readAt fun symbol hIs => (hTokens symbol hIs).1) ?_ ?_
  · exact fun serial state children _ _ =>
      flagged_branch (hNonterminal _ (.inl rfl)) fun hOther => absurd rfl hOther
  · exact fun serial terminal _ => .of_isLeaf rfl (fun _ => .inl rfl) fun _ => rfl
  · intro s rule info hRule hTaken lookaheadStop
    have hError : job.tables.isTerminal errorSymbol = true :=
      (upheld_rooted hGenerated hProper).isTerminal_errorSymbol
    obtain ⟨source, hSource, rfl⟩ := hGenerated.rule_of_rules hRule
    have hLhs : job.tables.isTerminal source.lhs = false := by
      rw [hGenerated.isTerminal_iff]
      exact decide_eq_false (Nat.not_lt.mpr (hProper.lhs source (Array.mem_of_getElem? hSource)).1)
    refine flagged_branch (hNonterminal _ (.inr hLhs)) fun _ => ?_
    split
    · exact fun c hChild => (hTaken.children c hChild).filled
    · exact filled_unwrapped (hGenerated.splices_of_isTerminal hProper hError).1 _
        (fun u hMem => (hTaken.children u hMem).nodes.imp fun _ h => h.2)
        fun u hMem => (hTaken.children u hMem).filled

end ParseJob

section Reports
variable {tree : Tree}

theorem diagnosticsFrom_eq (start : Nat) (tail : List Diagnostic) (u : Subtree) :
    diagnosticsFrom tree start tail u = if u.hasError then
      (Node.diagnostic? ⟨tree, u, start⟩).toList ++ diagnosticsAll tree start u.info.offsets tail u.children
      else tail := by
  obtain ⟨info, field, children⟩ := u
  rw [diagnosticsFrom]
  change (if info.hasError = true then _ else tail) = if info.hasError = true then _ else tail
  split
  · dsimp only
    split
    · rename_i report hReport
      rw [hReport]
      rfl
    · rename_i hNone
      rw [hNone]
      rfl
  · rfl

/-- Reports that are there stay there when others follow. -/
theorem diagnosticsFrom_ne_nil_of_tail {start : Nat} {tail : List Diagnostic} (hTail : tail ≠ [])
    (u : Subtree) : diagnosticsFrom tree start tail u ≠ [] := by
  induction u using children_induction generalizing start tail with
  | node u ih =>
      rw [diagnosticsFrom_eq]
      split
      · suffices hAll : ∀ (ts : List Subtree) (offsets : List Nat), (∀ c ∈ ts, c ∈ u.children) →
            diagnosticsAll tree start offsets tail ts ≠ [] by
          exact List.append_ne_nil_of_right_ne_nil _ (hAll u.children _ fun _ hMem => hMem)
        intro ts
        induction ts with
        | nil => exact fun _ _ => hTail
        | cons c ts ihs =>
            intro offsets hMem
            rw [diagnosticsAll]
            exact ih c (hMem c (by simp)) (ihs _ fun d hIn => hMem d (by simp [hIn]))
      · exact hTail

/-- A subtree that has reports is enough for its siblings. -/
theorem diagnosticsAll_ne_nil {c : Subtree} {ts : List Subtree} (hMem : c ∈ ts)
    (hReports : ∀ start tail, diagnosticsFrom tree start tail c ≠ []) (start : Nat)
    (offsets : List Nat) (tail : List Diagnostic) : diagnosticsAll tree start offsets tail ts ≠ [] := by
  induction ts generalizing offsets with
  | nil => simp at hMem
  | cons d ts ih =>
      rw [diagnosticsAll]
      rcases List.mem_cons.mp hMem with rfl | hMem
      · exact hReports _ _
      · exact diagnosticsFrom_ne_nil_of_tail (ih hMem _) d

/-- What is not reported itself is neither inserted nor an error token, and skipped input that is not
reported holds error tokens only. -/
theorem Node.of_damage?_eq_none {n : Node} (hNone : n.damage? = none) :
    n.isMissing = false ∧ n.isErrorToken = false
      ∧ (n.isError = true → ∀ c ∈ n.children, c.isErrorToken = true) := by
  unfold damage? at hNone
  split at hNone
  · simp at hNone
  · rename_i hMissing
    split at hNone
    · simp at hNone
    · rename_i hToken
      split at hNone
      · simp at hNone
      · rename_i hError
        refine ⟨by simpa using hMissing, by simpa using hToken, fun hIs => ?_⟩
        simpa [hIs] using hError

/-- A damaged node is reported, or one below it is. -/
theorem diagnosticsFrom_ne_nil
    (hTokens : ∀ symbol, tree.tables.isErrorToken symbol = true → errorSymbol < symbol) {u : Subtree}
    (hAll : All (Flagged tree.tables) u) (hFilled : u.kind = errorSymbol → u.isLeaf = false)
    (hError : u.hasError = true) (start : Nat) (tail : List Diagnostic) :
    diagnosticsFrom tree start tail u ≠ [] := by
  induction u using children_induction generalizing start tail with
  | node u ih =>
      rw [diagnosticsFrom_eq, if_pos hError]
      cases hDamage : Node.damage? ⟨tree, u, start⟩ with
      | some damage => simp [Node.diagnostic?, hDamage]
      | none =>
          obtain ⟨hMissing, hToken, hTokensOnly⟩ := Node.of_damage?_eq_none hDamage
          replace hMissing : u.isMissing = false := hMissing
          replace hToken : tree.tables.isErrorToken u.kind = false := hToken
          obtain ⟨c, hChild, hDamaged, hNotEmpty⟩ : ∃ c ∈ u.children, c.hasError = true
              ∧ (c.kind = errorSymbol → c.isLeaf = false) := by
            by_cases hKind : u.kind = errorSymbol
            · obtain ⟨c, hChild⟩ : ∃ c, c ∈ u.children :=
                List.exists_mem_of_ne_nil _ (by simpa [isLeaf] using hFilled hKind)
              obtain ⟨i, hAt⟩ := List.mem_iff_getElem?.mp hChild
              have hInvalid : tree.tables.isErrorToken c.kind = true := by
                refine hTokensOnly (by simpa [Node.isError] using hKind)
                  ⟨tree, c, start + u.info.offsets.getD i 0⟩ (List.mem_of_getElem? (i := i) ?_)
                rw [Node.children, getElem?_nodesFrom, hAt]
                rfl
              exact ⟨c, hChild, (hAll.child hChild).self.token hInvalid,
                fun hIs => absurd (hTokens _ hInvalid) (by simp [hIs])⟩
            · rcases hAll.self.cause hError with hIs | hIs | hIs | ⟨c, hChild, hDamaged⟩
              · simp [hIs] at hMissing
              · simp [hIs] at hToken
              · exact absurd hIs hKind
              · exact ⟨c, hChild, hDamaged, hAll.self.filled hKind c hChild⟩
          refine List.append_ne_nil_of_right_ne_nil _ ?_
          exact diagnosticsAll_ne_nil hChild
            (fun start tail => ih c hChild (hAll.child hChild) hNotEmpty hDamaged start tail) _ _ _

end Reports

/-- The root of a tree is damaged for what is below it, or because its text was not accepted. Then
there is nothing but error nodes below it. -/
structure Subtree.FlaggedRoot (t : Tables) (accepted : Bool) (root : Subtree) : Prop where
  below : ∀ u ∈ root.children, All (Flagged t) u
  filled : ∀ u ∈ root.children, u.kind = errorSymbol → u.isLeaf = false
  kind : root.kind = t.start
  missing : root.isMissing = false
  hasError : root.hasError = true ↔ (∃ c ∈ root.children, c.hasError = true) ∨ accepted = false
  abandoned : accepted = false → ∀ c ∈ root.children, c.kind = errorSymbol

namespace ParseStack
variable {g : Grammar} {m : Automaton} {t : Tables} {P : Subtree → Prop} {s : ParseStack}

/-- No error node right below a root is empty. -/
theorem Legal.filled_toRoot (hLasting : Lasting t P) (hFlagged : ∀ u, P u → Flagged t u)
    (hPlain : t.isHidden errorSymbol = false) (hStart : t.start ≠ errorSymbol) (h : s.Legal t P m)
    (length : Nat) (accepted : Bool) : ∀ u ∈ (s.toRoot t length accepted).1.children,
      u.kind = errorSymbol → u.isLeaf = false := by
  have hClosed := h.closeError hLasting
  rw [children_toRoot]
  refine filled_unwrapped hPlain _
    (fun u hMem => (all_rootPieces hLasting hClosed u hMem).imp hFlagged) fun u hMem => ?_
  obtain ⟨e, hEntry, hPiece⟩ := List.mem_flatMap.mp hMem
  have hSettled := hClosed.entries e (List.mem_reverse.mp hEntry)
  split at hPiece
  · rename_i hIs
    obtain ⟨-, hKind⟩ : e.extra = false ∧ e.subtree.kind = t.start := by simpa using hIs
    exact (hFlagged _ hSettled.nodes.self).filled (hKind ▸ hStart) u hPiece
  · obtain rfl := List.mem_singleton.mp hPiece
    simpa using hSettled.filled

theorem hasError_toRoot (hStart : t.start ≠ errorSymbol) (length : Nat) (accepted : Bool) :
    (s.toRoot t length accepted).1.hasError = true ↔
      (∃ c ∈ (s.toRoot t length accepted).1.children, c.hasError = true) ∨ accepted = false := by
  change (_ == errorSymbol || List.any _ _ || !accepted) = true ↔ _
  rw [Bool.or_eq_true, Bool.or_eq_true, beq_iff_eq, List.any_eq_true, Bool.not_eq_true']
  constructor
  · rintro ((hIs | hBelow) | hAbandoned)
    · exact absurd hIs hStart
    · exact .inl hBelow
    · exact .inr hAbandoned
  · rintro (hBelow | hAbandoned)
    · exact .inl (.inr hBelow)
    · exact .inr hAbandoned

end ParseStack

theorem ParseJob.Rests.flaggedRoot {job : ParseJob} {g : Grammar} {m : Automaton} {s : ParseState}
    {stack : ParseStack} {accepted : Bool} {root : Subtree}
    (hUpheld : job.Upheld g m fun u => Rooted g u ∧ Flagged job.tables u)
    (h : job.Rests m (fun u => Rooted g u ∧ Flagged job.tables u) s stack accepted root) :
    FlaggedRoot job.tables accepted root := by
  have hBelow := h.below hUpheld
  obtain ⟨hPlain, hStart⟩ := hUpheld.generated.splices_of_isTerminal hUpheld.proper
    hUpheld.isTerminal_errorSymbol
  obtain ⟨length, rfl⟩ := h.root
  refine ⟨fun u hMem => (hBelow u hMem).imp fun _ hNode => hNode.2, ?_, rfl, rfl, ?_, ?_⟩
  · exact (h.lawful.ended hUpheld.lasting h.outcome).filled_toRoot hUpheld.lasting (fun _ hNode => hNode.2)
      hPlain hStart.symm length accepted
  · exact ParseStack.hasError_toRoot hStart.symm length accepted
  · rintro rfl c hChild
    have hNone := h.outcome.outline_eq_nil hPlain length
    simp only [outline, List.map_eq_nil_iff, List.filter_eq_nil_iff] at hNone
    simpa using hNone c hChild

/-- A damaged root with anything below it has something damaged below it. -/
theorem Subtree.FlaggedRoot.exists_damaged {t : Tables} {accepted : Bool} {root : Subtree}
    (h : FlaggedRoot t accepted root) (hError : root.hasError = true) (hSome : root.children ≠ []) :
    ∃ c ∈ root.children, c.hasError = true := by
  rcases h.hasError.mp hError with hBelow | hAbandoned
  · exact hBelow
  · obtain ⟨c, hChild⟩ := List.exists_mem_of_ne_nil _ hSome
    have hKind := h.abandoned hAbandoned c hChild
    exact ⟨c, hChild, (h.below c hChild).self.error hKind (h.filled c hChild hKind)⟩

/-- The root itself is never reported. -/
theorem Subtree.FlaggedRoot.damage? {tree : Tree} {accepted : Bool} {root : Subtree} (start : Nat)
    (h : FlaggedRoot tree.tables accepted root)
    (hTokens : ∀ symbol, tree.tables.isErrorToken symbol = true → symbol ≠ tree.tables.start)
    (hStart : tree.tables.start ≠ errorSymbol) : Node.damage? ⟨tree, root, start⟩ = none := by
  have hToken : tree.tables.isErrorToken root.kind = false := by
    cases hIs : tree.tables.isErrorToken root.kind with
    | false => rfl
    | true => exact absurd h.kind (hTokens _ hIs)
  have hError : (root.kind == errorSymbol) = false := by
    rw [h.kind]
    simpa using hStart
  unfold Node.damage?
  rw [if_neg (by simp [Node.isMissing, h.missing]), if_neg, if_neg (by simp [Node.isError, hError])]
  intro hIs
  exact absurd (hToken.symm.trans hIs) Bool.false_ne_true

section
variable {language : Language} {g : Grammar} {m : Automaton} {tree : Tree} {accepted : Bool}

theorem Grown.flaggedRoot (hGenerated : language.tables.Generated g m) (hProper : g.Proper)
    (hTokens : ∀ symbol, language.tables.isErrorToken symbol = true →
      errorSymbol < symbol ∧ language.tables.isTerminal symbol = true)
    (h : Grown language tree accepted) : FlaggedRoot language.tables accepted tree.root := by
  have hUpheld : ∀ (p : Parser) (text : ByteArray), p.language = language →
      (p.job text).Upheld g m fun u => Rooted g u ∧ Flagged language.tables u := by
    rintro p text rfl
    exact ParseJob.upheld_flagged hGenerated hProper hTokens
  obtain ⟨-, p, text, s, stack, rfl, hRests⟩ := h.rests hUpheld
  exact hRests.flaggedRoot (hUpheld p text rfl)

/-- The reports on a tree are those below its root, if it is damaged at all. -/
theorem Grown.diagnostics_eq (hBuilt : language.tables.Built) (h : Grown language tree accepted) :
    tree.diagnostics =
      if tree.hasError then diagnosticsAll tree 0 tree.root.info.offsets [] tree.root.children else [] := by
  obtain ⟨g, m, hGenerated, hProper⟩ := hBuilt.generated
  have hRoot := h.flaggedRoot hGenerated hProper fun _ => hBuilt.of_isErrorToken
  have hLanguage : tree.tables = language.tables := congrArg Language.tables h.language_eq
  have hTerminal : ∀ symbol, tree.tables.isTerminal symbol = true →
      tree.tables.isHidden symbol = false ∧ symbol ≠ tree.tables.start := by
    rw [hLanguage]
    exact fun _ => hGenerated.splices_of_isTerminal hProper
  rw [← hLanguage] at hRoot
  have hSpared : Node.damage? ⟨tree, tree.root, 0⟩ = none := by
    refine hRoot.damage? 0 (fun symbol hIs => (hTerminal symbol ?_).2) (hTerminal errorSymbol ?_).2.symm
    · rw [hLanguage] at hIs ⊢
      exact (hBuilt.of_isErrorToken hIs).2
    · rw [hLanguage]
      exact (@ParseJob.upheld_rooted ((Parser.ofLanguage language).job .empty) _ _ hGenerated
        hProper).isTerminal_errorSymbol
  rw [Tree.diagnostics, diagnosticsFrom_eq, Node.diagnostic?, hSpared]
  rfl

/-- A tree with anything in it has reports just when it is damaged. An empty tree has none, and is
damaged if its text was not accepted. -/
theorem reports_iff_damaged {language : Language} (hBuilt : language.tables.Built) {tree : Tree}
    {accepted : Bool} (hGrown : Grown language tree accepted) :
    (tree.diagnostics ≠ [] ↔ tree.hasError = true ∧ tree.root.children ≠ [])
      ∧ (tree.root.children = [] → (tree.hasError = true ↔ accepted = false)) := by
  obtain ⟨g, m, hGenerated, hProper⟩ := hBuilt.generated
  have hRoot := hGrown.flaggedRoot hGenerated hProper fun _ => hBuilt.of_isErrorToken
  have hLanguage : tree.tables = language.tables := congrArg Language.tables hGrown.language_eq
  have hBehind : ∀ symbol, tree.tables.isErrorToken symbol = true → errorSymbol < symbol := by
    rw [hLanguage]
    exact fun symbol hIs => (hBuilt.of_isErrorToken hIs).1
  have hReports := hGrown.diagnostics_eq hBuilt
  rw [← hLanguage] at hRoot
  refine ⟨⟨?_, ?_⟩, ?_⟩
  · intro hSome
    rw [hReports] at hSome
    split at hSome
    · rename_i hError
      refine ⟨hError, fun hNone => hSome ?_⟩
      rw [hNone]
      rfl
    · simp at hSome
  · rintro ⟨hError, hSome⟩
    obtain ⟨c, hChild, hDamaged⟩ := hRoot.exists_damaged hError hSome
    rw [hReports, if_pos hError]
    exact diagnosticsAll_ne_nil hChild
      (diagnosticsFrom_ne_nil hBehind (hRoot.below c hChild) (hRoot.filled c hChild) hDamaged) 0 _ []
  · intro hNone
    rw [Tree.hasError, hRoot.hasError, hNone]
    simp

end

namespace Labels

/-- A parser of labels that inserts nothing at the end of a text. -/
def strictParser : Parser := { parser with limits := { maxMissing := 0 } }

/-- The empty text is no file. Nothing is inserted, and there is nothing to skip. -/
theorem parse_empty : ∃ tree, strictParser.parse .empty = some tree
    ∧ strictParser.verdict? .empty none 0 = some false
    ∧ tree.hasError = true ∧ tree.root.children = [] ∧ tree.diagnostics = [] := by
  have hAll : (strictParser.parse .empty).elim false (fun tree =>
      tree.hasError && tree.root.children.isEmpty && tree.diagnostics.isEmpty) = true := by
    decide +kernel
  have hVerdict : strictParser.verdict? .empty none 0 = some false := by decide +kernel
  cases hParse : strictParser.parse .empty with
  | none =>
      rw [hParse] at hAll
      exact absurd hAll Bool.false_ne_true
  | some tree =>
      rw [hParse] at hAll
      simp only [Option.elim, Bool.and_eq_true, List.isEmpty_iff, and_assoc] at hAll
      exact ⟨tree, rfl, hVerdict, hAll⟩

/-- A file that is cut off has reports. -/
theorem reports_of_cut : ∃ tree, parser.parse "a".toUTF8 = some tree
    ∧ (tree.diagnostics ≠ [] ↔ tree.hasError = true ∧ tree.root.children ≠ [])
    ∧ tree.hasError = true ∧ tree.root.children ≠ [] := by
  have hAll : (parser.parse "a".toUTF8).elim false (fun tree =>
      tree.hasError && !tree.root.children.isEmpty) = true := by
    decide +kernel
  have hVerdict : parser.verdict? "a".toUTF8 none 0 = some true := by decide +kernel
  cases hParse : parser.parse "a".toUTF8 with
  | none =>
      rw [hParse] at hAll
      exact absurd hAll Bool.false_ne_true
  | some tree =>
      rw [hParse] at hAll
      simp only [Option.elim, Bool.and_eq_true, Bool.not_eq_true', List.isEmpty_eq_false_iff] at hAll
      exact ⟨tree, rfl, (reports_iff_damaged built_tables (.parse parser rfl hParse hVerdict)).1, hAll⟩

/-- So a tree may be damaged without a report. -/
theorem damaged_without_reports : ∃ tree, strictParser.parse .empty = some tree
    ∧ ¬ (tree.hasError = true ↔ tree.diagnostics ≠ []) := by
  obtain ⟨tree, hParse, -, hError, -, hNone⟩ := parse_empty
  exact ⟨tree, hParse, fun hIff => hIff.mp hError hNone⟩

end Labels

end IncrementalParsing
