import IncrementalParsing.Proofs.Parser.StackContent
import IncrementalParsing.Proofs.Subtree.Nodes

/-! The nodes on the stack. Every operation of the stack leaves nodes where they are, leaves out those
that it takes apart, and gives a number of its own to each one that it makes. -/
namespace IncrementalParsing.ParseStack
open Subtree

/-- The subtrees on the stack, with those in the open error node. -/
def material (s : ParseStack) : List Subtree := content s.entries ++ s.openError.toList

/-- The nodes on the stack and of subtrees behind it. -/
def stock (s : ParseStack) (ts : List Subtree) : Stock := (s.nextSerial, placedAll 0 (s.material ++ ts))

section
variable {kinds : Kinds} {s : ParseStack} {tables : Tables}

/-- The next token starts where the subtrees on the stack end. -/
theorem Sound.stop_eq_width (h : s.Sound kinds) : s.stop = width s.material := by
  rw [h.stop_eq, material, width_append, leaves, List.map_append, List.sum_append,
    width_leavesAll _ h.content_measured, width_leavesAll _ h.opened]

theorem material_of_closed (hOpen : s.openError = #[]) : s.material = content s.entries := by
  simp [material, hOpen]

/-- Without an open error node a subtree behind the stack can as well be an entry. -/
theorem stock_stacked (hOpen : s.openError = #[]) (state : StateId) (t : Subtree) (extra : Bool)
    (ts : List Subtree) :
    ({ s with entries := stacked s.entries state t extra } : ParseStack).stock ts = s.stock (t :: ts) := by
  simp [stock, material, stacked, hOpen]

/-- Closing the open error node makes one node, or none. -/
theorem stock_closeError (s : ParseStack) (ts : List Subtree) : s.closeError = s
    ∨ ∃ front x back, s.stock ts = (s.nextSerial, front ++ back)
      ∧ s.closeError.stock ts = (s.nextSerial + 1, front ++ x :: back)
      ∧ x.2.serial = s.nextSerial ∧ x.2.hasError = true := by
  unfold closeError
  split
  · exact .inl rfl
  · let bare : ParseStack := { s with openError := #[], nextSerial := s.nextSerial + 1 }
    let node := branch s.nextSerial errorSymbol (some s.state) s.openError.toList 0 false
    have hStock : s.stock ts = (s.nextSerial, placedAll 0 (content s.entries)
        ++ placedAll (width (content s.entries)) (s.openError.toList ++ ts)) := by
      simp [stock, material, placedAll_append]
    have hAfter : (bare.pushAside node).stock ts = (s.nextSerial + 1, placedAll 0 (content s.entries)
        ++ (width (content s.entries), node.withField none)
          :: placedAll (width (content s.entries)) (s.openError.toList ++ ts)) := by
      have hTotal : node.total = width s.openError.toList := total_branch _ _ _ _ _ _
      rw [pushAside, stock_stacked rfl]
      simp [stock, material, bare, placedAll_append, placed_eq _ node, hTotal, node]
    exact .inr ⟨_, _, _, hStock, hAfter, rfl, rfl⟩

/-- Closing the open error makes one node and keeps all others. -/
theorem renews_closeError (s : ParseStack) (ts : List Subtree) :
    Renews (s.stock ts) (s.closeError.stock ts) := by
  rcases s.stock_closeError ts with hSame | ⟨front, x, back, hStock, hAfter, hSerial, -⟩
  · rw [hSame]
  · rw [hStock, hAfter]
    exact .single (.make hSerial)

/-- Pushing a tree keeps all nodes. -/
theorem renews_push (s : ParseStack) (state : StateId) (t : Subtree) (ts : List Subtree) :
    Renews (s.stock (t :: ts)) ((s.push state t).stock ts) := by
  rw [push, stock_stacked openError_closeError]
  exact renews_closeError s _

theorem renews_aside (s : ParseStack) (t : Subtree) (ts : List Subtree) :
    Renews (s.stock (t :: ts)) ((s.closeError.pushAside t).stock ts) := by
  rw [pushAside, stock_stacked openError_closeError]
  exact renews_closeError s _

/-- Fewer nodes on the stack, with none of them moved. -/
theorem renews_of_sublist {r : ParseStack} {ts us : List Subtree} (hNext : r.nextSerial = s.nextSerial)
    (hLess : (placedAll 0 (r.material ++ us)).Sublist (placedAll 0 (s.material ++ ts))) :
    Renews (s.stock ts) (r.stock us) := by
  rw [stock, stock, hNext]
  exact .single (.drop hLess)

/-- Skipping pieces makes no node, and keeps those that are not flattened. -/
theorem renews_addToError (tables : Tables) (s : ParseStack) {pieces : List Subtree}
    (hPieces : ∀ t ∈ pieces, All (Measured kinds) t) (ts : List Subtree) :
    Renews (s.stock (pieces ++ ts)) ((addToError tables s pieces).stock ts) := by
  have hTop : ∀ t ∈ pieces, dissolves tables t = true → t.children = [] → t.total = 0 := by
    intro t _ hOpens hNone
    simp [dissolves, isLeaf, hNone] at hOpens
  have hFound : (addToError tables s pieces).material = s.material
      ++ (unwrapped (dissolves tables) pieces).map fun t => t.withField none := by
    simp [material, addToError, unwrapped]
  have hWidth := (unwrapped_conserves (opener_dissolves tables) pieces hTop hPieces).2
  refine renews_of_sublist rfl ?_
  rw [hFound, List.append_assoc, placedAll_append, placedAll_append, placedAll_append, placedAll_append,
    placedAll_map_withField (fun _ => none), width_map_withField (fun _ => none), hWidth]
  exact ((placedAll_unwrapped (opener_dissolves tables) _ pieces hTop hPieces).append_right _).append_left _

/-- Skipped input stays where it is. -/
theorem renews_pushSkipped (tables : Tables) (h : s.Sound kinds) {pieces : List Subtree}
    (hPieces : ∀ t ∈ pieces, All (Measured kinds) t) (ts : List Subtree) :
    Renews (s.stock (pieces ++ ts)) ((s.pushSkipped tables pieces).stock ts) := by
  unfold pushSkipped
  cases hOpen : s.openError.isEmpty with
  | false => exact renews_addToError tables s hPieces ts
  | true =>
      have hNone : s.openError = #[] := Array.isEmpty_iff.mp hOpen
      simp only [if_true]
      split
      · rename_i entry entries hEntries
        split
        · let lower : ParseStack := { s with entries, openStop := topStop entries }
          have hStock : s.stock (pieces ++ ts) = lower.stock ([entry.subtree] ++ (pieces ++ ts)) := by
            simp [stock, material, lower, hEntries, hNone]
          have hEntry : ∀ t ∈ [entry.subtree], All (Measured kinds) t := by
            simp [(h.entries entry (by simp [hEntries])).1]
          rw [hStock]
          exact (renews_addToError tables lower hEntry _).trans (renews_addToError tables _ hPieces ts)
        · exact renews_addToError tables { s with openStop := entry.stop } hPieces ts
      · exact renews_addToError tables { s with openStop := 0 } hPieces ts

theorem stock_withEntries (hOpen : s.openError = #[]) {top es : List StackEntry}
    (hSplit : s.entries = top ++ es) (ts : List Subtree) :
    (s.withEntries es).stock (content top ++ ts) = s.stock ts := by
  simp [stock, material, withEntries, hOpen, hSplit, content_append]

/-- What is popped stays behind the stack. -/
theorem stock_pop (s : ParseStack) (depth : Nat) (ts : List Subtree) :
    (s.pop depth).2.stock ((s.pop depth).1 ++ ts) = s.closeError.stock ts := by
  obtain ⟨top, hSplit, hPopped⟩ := popEntries_spec depth s.closeError.entries []
  have hPieces : (s.pop depth).1 = content top := by simpa [pop] using hPopped
  exact hPieces ▸ stock_withEntries openError_closeError hSplit ts

theorem stock_popAll (s : ParseStack) (ts : List Subtree) :
    s.popAll.2.stock (s.popAll.1 ++ ts) = s.closeError.stock ts :=
  stock_withEntries openError_closeError (List.append_nil s.closeError.entries).symm ts

theorem renews_pop (s : ParseStack) (depth : Nat) (ts : List Subtree) :
    Renews (s.stock ts) ((s.pop depth).2.stock ((s.pop depth).1 ++ ts)) := by
  rw [stock_pop]
  exact renews_closeError s ts

/-- The node that a reduction makes is as wide as what is taken for it. -/
theorem total_reduced (h : s.Sound kinds) (hHidden : ∀ k, tables.isHidden k = true → kinds.spliced k = true)
    (hError : tables.isHidden errorSymbol = false) (rule : Production) (lookaheadStop : Nat) :
    (s.reduced tables rule lookaheadStop).total
      = width (takeChildren rule.rhs.reverse (s.entries.dropWhile (·.extra)) []).1 := by
  have hTaken := h.taken rule.rhs.reverse
  rw [reduced, total_branch]
  split
  · rfl
  · exact (unwrapped_conserves (opener_kind hHidden hError) _
      (fun t hMem hOpens hNone => (hTaken t hMem).2 hNone (hHidden _ hOpens))
      fun t hMem => (hTaken t hMem).1).2

/-- The node that a reduction makes stands where its children stood, and some of the nodes below them are
left out. -/
theorem stock_reduced (h : s.Sound kinds) (hOpen : s.openError = #[])
    (hHidden : ∀ k, tables.isHidden k = true → kinds.spliced k = true)
    (hError : tables.isHidden errorSymbol = false) (rule : Production) (lookaheadStop : Nat)
    (ts : List Subtree) : ∃ front rest back, s.stock ts = (s.nextSerial, front ++ rest)
      ∧ (s.uncovered rule).stock (s.reduced tables rule lookaheadStop
          :: (content (s.entries.takeWhile (·.extra)) ++ ts))
        = (s.nextSerial + 1, front ++ (topStop (s.uncovered rule).entries,
            (s.reduced tables rule lookaheadStop).withField none) :: back)
      ∧ back.Sublist rest := by
  obtain ⟨top, hSplit, hSame⟩ := s.entries_split rule.rhs.reverse
  have hTaken := h.taken rule.rhs.reverse
  have hTop := fun t hMem (hOpens : tables.isHidden t.kind = true) hNone =>
    (hTaken t hMem).2 hNone (hHidden _ hOpens)
  have hMeasured := fun t hMem => (hTaken t hMem).1
  let node := s.reduced tables rule lookaheadStop
  have hTotal : node.total = width (content top) :=
    (total_reduced h hHidden hError rule lookaheadStop).trans (width_congr hSame)
  have hChildren : ∀ start, (placedAll start node.children).Sublist (placedAll start (content top)) := by
    intro start
    rw [show node = s.reduced tables rule lookaheadStop from rfl, reduced, children_branch,
      ← placedAll_congr hSame]
    split
    · exact List.Sublist.refl _
    · exact placedAll_unwrapped (opener_kind hHidden hError) start _ hTop hMeasured
  let rest := (takeChildren rule.rhs.reverse (s.entries.dropWhile (·.extra)) []).2
  let behind := content (s.entries.takeWhile (·.extra)) ++ ts
  have hContent : content s.entries ++ ts = content rest ++ (content top ++ behind) := by
    rw [← List.append_assoc, ← content_append, ← List.append_assoc, ← content_append,
      ← List.append_assoc, ← hSplit]
  have hStock : s.stock ts = (s.nextSerial, placedAll 0 (content rest)
      ++ placedAll (width (content rest)) (content top ++ behind)) := by
    rw [stock, material_of_closed hOpen, hContent, placedAll_append, Nat.zero_add]
  have hStart : topStop (s.uncovered rule).entries = width (content rest) :=
    topStop_eq (stacked_of_suffix (hSplit ▸ h.stacked))
  have hBase : (s.uncovered rule).material = content rest := material_of_closed hOpen
  have hAfter : (s.uncovered rule).stock (node :: behind) = (s.nextSerial + 1,
      placedAll 0 (content rest) ++ (topStop (s.uncovered rule).entries, node.withField none)
        :: (placedAll (width (content rest)) node.children
          ++ placedAll (width (content rest) + width (content top)) behind)) := by
    rw [stock, hBase, placedAll_append, Nat.zero_add, placedAll_cons, placed_eq, hTotal, hStart,
      List.cons_append]
    rfl
  refine ⟨_, _, _, hStock, hAfter, ?_⟩
  rw [placedAll_append _ (content top)]
  exact (hChildren _).append_right _

/-- The node of a reduction is the only one that is new. -/
theorem renews_reduced (h : s.Sound kinds) (hOpen : s.openError = #[])
    (hHidden : ∀ k, tables.isHidden k = true → kinds.spliced k = true)
    (hError : tables.isHidden errorSymbol = false) (rule : Production) (lookaheadStop : Nat)
    (ts : List Subtree) :
    Renews (s.stock ts) ((s.uncovered rule).stock (s.reduced tables rule lookaheadStop
      :: (content (s.entries.takeWhile (·.extra)) ++ ts))) := by
  obtain ⟨front, rest, back, hStock, hAfter, hLess⟩ :=
    stock_reduced h hOpen hHidden hError rule lookaheadStop ts
  rw [hStock, hAfter]
  exact .tail (.single (.make rfl)) (.drop ((hLess.cons_cons _).append_left front))

/-- Extra entries on top of a reduction are put back in their places. -/
theorem renews_putBack (s : ParseStack) (trailing : List StackEntry) (ts : List Subtree) :
    Renews (s.stock (content trailing ++ ts))
      ((trailing.foldr (fun entry s => s.closeError.pushAside entry.subtree) s).stock ts) := by
  induction trailing generalizing ts with
  | nil => exact .refl
  | cons e es ih =>
      rw [content_cons, List.append_assoc]
      exact (ih _).trans (renews_aside _ _ _)

theorem renews_reduce (h : s.Sound kinds) (hHidden : ∀ k, tables.isHidden k = true → kinds.spliced k = true)
    (hError : tables.isHidden errorSymbol = false) (rule : Production) (lookaheadStop : Nat)
    (ts : List Subtree) :
    Renews (s.stock ts) ((s.reduce tables rule lookaheadStop).2.stock ts) := by
  obtain ⟨hClosed, -, hOpen⟩ := sound_closeError h
  obtain ⟨hBase, hNode, -⟩ := reduced_spec hClosed hOpen hHidden hError rule lookaheadStop
  refine (renews_closeError s ts).trans
    ((renews_reduced hClosed hOpen hHidden hError rule lookaheadStop ts).trans ?_)
  rw [reduce_eq]
  dsimp only
  split
  · exact (renews_push _ _ _ _).trans (renews_putBack _ _ _)
  · have hPiece : ∀ t ∈ [s.closeError.reduced tables rule lookaheadStop], All (Measured kinds) t := by
      simp [hNode]
    exact (renews_pushSkipped tables hBase hPiece _).trans (renews_putBack _ _ _)

/-- Nodes of the start symbol are replaced by their children in the root, and nothing is moved. -/
theorem placedAll_rootPieces (h : s.Sound kinds) (hSpliced : kinds.spliced = tables.splices) :
    (placedAll 0 (s.rootPieces tables)).Sublist (placedAll 0 (content s.entries)) := by
  have hEntries : ∀ es : List StackEntry,
      (∀ e ∈ es, All (Measured kinds) e.subtree ∧ Plain kinds e.subtree) →
      (placedAll 0 (es.reverse.flatMap fun entry =>
          if !entry.extra && entry.subtree.kind == tables.start then entry.subtree.children
          else [entry.subtree.withField none])).Sublist (placedAll 0 (content es))
        ∧ width (es.reverse.flatMap fun entry =>
            if !entry.extra && entry.subtree.kind == tables.start then entry.subtree.children
            else [entry.subtree.withField none]) = width (content es) := by
    intro es hAll
    induction es with
    | nil => exact ⟨List.Sublist.refl _, rfl⟩
    | cons e es ih =>
        obtain ⟨hLess, hWidth⟩ := ih fun f hMem => hAll f (by simp [hMem])
        obtain ⟨hMeasured, hPlain⟩ := hAll e (by simp)
        rw [List.reverse_cons, List.flatMap_append, List.flatMap_singleton, content_cons,
          placedAll_append, placedAll_append, width_append, width_append, hWidth]
        split
        · rename_i hIs
          have hKind : e.subtree.kind = tables.start := by
            simp only [Bool.and_eq_true, beq_iff_eq] at hIs
            exact hIs.2
          have hTotal : e.subtree.total = width e.subtree.children := by
            by_cases hNone : e.subtree.children = []
            · rw [hNone, hPlain hNone (by simp [hSpliced, Tables.splices, hKind]), width_nil]
            · exact hMeasured.self.total hNone
          refine ⟨hLess.append ?_, by simp [hTotal]⟩
          rw [placedAll_cons, placed_eq]
          exact (List.sublist_append_left _ _).cons _
        · exact ⟨hLess.append (by simp), by simp⟩
  exact (hEntries s.entries h.entries).1

/-- The nodes below the root have been on the stack. -/
theorem placedAll_toRoot (h : s.Sound kinds) (hSpliced : kinds.spliced = tables.splices)
    (hStart : tables.start ≠ errorSymbol) (hError : tables.isHidden errorSymbol = false)
    (length : Nat) (accepted : Bool) :
    (placedAll 0 (s.toRoot tables length accepted).1.children).Sublist (s.closeError.stock []).2 := by
  obtain ⟨hClosed, -, hOpen⟩ := sound_closeError h
  obtain ⟨-, hPieces⟩ := rootPieces_spec hClosed hSpliced hStart hOpen
  have hHidden : ∀ k, tables.isHidden k = true → kinds.spliced k = true := by
    intro k hKind
    simp [hSpliced, Tables.splices, hKind]
  have hUnwrapped := placedAll_unwrapped (opener_kind hHidden hError) 0 (s.closeError.rootPieces tables)
    (fun t hMem hOpens hNone => (hPieces t hMem).2 hNone (hHidden _ hOpens))
    fun t hMem => (hPieces t hMem).1
  have hLess := hUnwrapped.trans (placedAll_rootPieces hClosed hSpliced)
  rw [← children_toRoot tables s length accepted] at hLess
  rwa [stock, material_of_closed hOpen, List.append_nil]

end
end IncrementalParsing.ParseStack
