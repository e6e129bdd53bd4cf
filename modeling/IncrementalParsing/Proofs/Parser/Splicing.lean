import IncrementalParsing.Proofs.Parser.StackNodes
import IncrementalParsing.Proofs.Parser.Widths

/-! What a parse takes over from a previous tree: the pieces come in the order of the old text, each
from the place where the queue stood, and the old nodes at hand are nodes of the pieces, at the
places where the edit has moved them. Every other node has a number of its own. -/
namespace IncrementalParsing
open Subtree

namespace Subtree

/-- Nodes without children that get the next numbers are made one by one. -/
theorem renews_leaves {next : Nat} {ts : List Subtree} (hLeaves : ∀ t ∈ ts, t.isLeaf = true)
    (hSerials : ts.map serial = List.range' next ts.length) (start : Nat)
    (front back : List (Nat × Subtree)) :
    Renews (next, front ++ back) (next + ts.length, front ++ placedAll start ts ++ back) := by
  induction ts generalizing next start front with
  | nil => simpa using Relation.ReflTransGen.refl
  | cons t ts ih =>
      obtain ⟨hHead, hRest⟩ : t.serial = next ∧ ts.map serial = List.range' (next + 1) ts.length := by
        simpa [List.range'_succ] using hSerials
      have hMake := @Renew.make next front back (start, t.withField none) (by simpa [serial] using hHead)
      have hOthers := ih (fun u hMem => hLeaves u (by simp [hMem])) hRest (start + t.total)
        (front ++ [(start, t.withField none)])
      have hNone : t.children = [] := List.isEmpty_iff.mp (hLeaves t (by simp))
      refine .head hMake ?_
      simpa [placed_eq, hNone, Nat.add_assoc, Nat.add_comm 1] using hOthers

end Subtree

/-- New tokens between those behind the stack. They move nothing, because they are the last ones or
have no width. -/
theorem ParseStack.renews_new (s : ParseStack) {front new back : List Subtree}
    (hLeaves : ∀ t ∈ new, t.isLeaf = true)
    (hSerials : new.map serial = List.range' s.nextSerial new.length)
    (hStill : back = [] ∨ width new = 0) :
    Renews (s.stock (front ++ back))
      (({ s with nextSerial := s.nextSerial + new.length } : ParseStack).stock (front ++ new ++ back)) := by
  have hMade := renews_leaves hLeaves hSerials (width (s.material ++ front))
    (placedAll 0 (s.material ++ front)) (placedAll (width (s.material ++ front)) back)
  have hBefore : s.stock (front ++ back) = (s.nextSerial, placedAll 0 (s.material ++ front)
      ++ placedAll (width (s.material ++ front)) back) := by
    rw [stock, ← List.append_assoc, placedAll_append, Nat.zero_add]
  have hBehind : placedAll (width (s.material ++ front ++ new)) back
      = placedAll (width (s.material ++ front)) back := by
    rcases hStill with rfl | hNone
    · rfl
    · rw [width_append _ new, hNone, Nat.add_zero]
  have hAfter : ({ s with nextSerial := s.nextSerial + new.length } : ParseStack).stock
        (front ++ new ++ back)
      = (s.nextSerial + new.length, placedAll 0 (s.material ++ front)
        ++ placedAll (width (s.material ++ front)) new ++ placedAll (width (s.material ++ front)) back) := by
    change (s.nextSerial + new.length, placedAll 0 (s.material ++ (front ++ new ++ back))) = _
    rw [← List.append_assoc, ← List.append_assoc, placedAll_append, placedAll_append, Nat.zero_add,
      Nat.zero_add, hBehind]
  rwa [hBefore, hAfter]

namespace ReuseQueue
variable {q r : ReuseQueue} {kinds : Kinds}

/-- The nodes that are ahead, where they lie in the old text. -/
def nodes (q : ReuseQueue) : List (Nat × Subtree) := placedAll q.start q.ahead

theorem nodes_of_ahead {t : Subtree} {ts : List Subtree} (hAhead : q.ahead = t :: ts) :
    q.nodes = placed q.start t ++ q.pass.nodes := by
  simp [nodes, pass, hAhead]

theorem start_pass {t : Subtree} {ts : List Subtree} (hAhead : q.ahead = t :: ts) :
    q.pass.start = q.start + t.total := by
  simp [pass, hAhead]

theorem le_start_pass (q : ReuseQueue) : q.start ≤ q.pass.start := by
  unfold pass
  split
  · exact Nat.le_refl _
  · exact Nat.le_add_right _ _

theorem nodes_pass (q : ReuseQueue) : q.pass.nodes.Sublist q.nodes := by
  cases hAhead : q.ahead with
  | nil =>
      rw [show q.pass = q by simp [pass, hAhead]]
  | cons t ts =>
      rw [nodes_of_ahead hAhead]
      exact List.sublist_append_right _ _

theorem nodes_enter (hMeasured : ∀ u ∈ q.ahead, All (Measured kinds) u) :
    q.enter.nodes.Sublist q.nodes ∧ q.start ≤ q.enter.start := by
  unfold enter
  split
  · exact ⟨List.Sublist.refl _, Nat.le_refl _⟩
  · rename_i t ts hAhead
    split
    · exact ⟨q.nodes_pass, q.le_start_pass⟩
    · rename_i hLeaf
      have hTotal := (hMeasured t (by simp [hAhead])).self.total (children_of_not_isLeaf (by simpa using hLeaf))
      refine ⟨?_, Nat.le_refl _⟩
      rw [nodes, nodes, hAhead, placedAll_append, ← hTotal, placedAll_cons, placed_eq]
      exact (List.Sublist.refl _).cons _

/-- A queue that has come further has fewer nodes ahead, and they start further behind. -/
theorem Behind.nodes (hBehind : q.Behind r) (hMeasured : ∀ u ∈ q.ahead, All (Measured kinds) u) :
    r.nodes.Sublist q.nodes ∧ q.start ≤ r.start := by
  induction hBehind with
  | refl => exact ⟨List.Sublist.refl _, Nat.le_refl _⟩
  | @pass r _ ih => exact ⟨r.nodes_pass.trans ih.1, ih.2.trans r.le_start_pass⟩
  | @enter r hBehind ih =>
      obtain ⟨hLess, hLe⟩ := nodes_enter (ParseJob.all_behind hBehind hMeasured)
      exact ⟨hLess.trans ih.1, ih.2.trans hLe⟩

/-- Two queues over trees with the same edit reuse the same subtrees. -/
theorem map_congr (hEdit : r.edit = q.edit) (offset : Nat) : r.map offset = q.map offset := by
  rw [map, map, hEdit]

theorem isReusable_congr (hEdit : r.edit = q.edit) (start : Nat) (t : Subtree) :
    r.isReusable start t = q.isReusable start t := by
  rw [isReusable, isReusable, isDirty, isDirty, hEdit]

end ReuseQueue

namespace ParseJob
variable {job : ParseJob} {g : Grammar} {m : Automaton}

/-- The nodes that a state has taken up: those on its stack and the tokens that are pending. -/
def held (s : ParseState) : Stock := s.stack.stock (s.pending.filter Subtree.isLeaf)

/-- The old nodes among some nodes are those of pieces that have been taken over. Each piece is a
subtree of the old tree that could be reused. They come in the order of the old text, and do not
overlap. -/
structure Pieces (origin : ReuseQueue) (old : Nat) (pieces : List (Nat × Subtree)) (stock : Stock) :
    Prop where
  numbered : Numbered old stock
  kept : (stock.2.filter (·.2.serial < old)).Sublist
    (pieces.flatMap fun p => placed (origin.map p.1) p.2)
  reusable : ∀ p ∈ pieces, origin.isReusable p.1 p.2 = true
  ordered : pieces.Pairwise fun p r => p.1 + p.2.total ≤ r.1

/-- What has been taken over in front of a state, and what may still be. -/
structure Splices (job : ParseJob) (origin : ReuseQueue) (old : Nat) (s : ParseState)
    (pieces : List (Nat × Subtree)) : Prop where
  sized : job.Sized s
  later : old ≤ s.stack.nextSerial
  taken : Pieces origin old pieces (held s)
  nodes : ((pieces.flatMap fun p => placed p.1 p.2) ++ s.queue.elim [] ReuseQueue.nodes).Sublist
    origin.nodes
  behind : ∀ q, s.queue = some q → origin.Behind q ∧ ∀ p ∈ pieces, p.1 + p.2.total ≤ q.start
  /-- The queue stands in front of a larger lookahead. -/
  waiting : ∀ t ∈ s.pending, t.isLeaf = false → s.pending = [t] ∧ ∃ q ts, s.queue = some q
    ∧ q.ahead = t :: ts ∧ q.map q.start = s.stack.stop ∧ q.isReusable q.start t = true

section
variable {origin : ReuseQueue} {old : Nat} {s r : ParseState} {pieces : List (Nat × Subtree)}

theorem held_of_leaves (hLeaves : ∀ t ∈ s.pending, t.isLeaf = true) :
    held s = s.stack.stock s.pending := by
  rw [held, List.filter_eq_self.mpr hLeaves]

theorem Pieces.renews {p q : Stock} (h : Pieces origin old pieces p) (hLater : old ≤ p.1)
    (hRenews : Renews p q) : Pieces origin old pieces q :=
  ⟨h.numbered.renews hRenews, (hRenews.kept hLater).trans h.kept, h.reusable, h.ordered⟩

/-- No node is there twice, if none of the old nodes is. -/
theorem Pieces.nodup {stock : Stock} (h : Pieces origin old pieces stock)
    (hNodes : (pieces.flatMap fun p => placed p.1 p.2).Sublist origin.nodes)
    (hOld : (origin.nodes.map (·.2.serial)).Nodup) : (stock.2.map (·.2.serial)).Nodup := by
  have hMoved : (pieces.flatMap fun p => placed (origin.map p.1) p.2).map (·.2.serial)
      = (pieces.flatMap fun p => placed p.1 p.2).map (·.2.serial) := by
    rw [List.map_flatMap, List.map_flatMap]
    refine List.flatMap_congr fun p _ => ?_
    have hSame := congrArg (List.map serial) (map_snd_placed (origin.map p.1) p.1 p.2)
    rwa [List.map_map, List.map_map] at hSame
  have hKept : ((stock.2.filter (·.2.serial < old)).map (·.2.serial)).Nodup := by
    refine List.Nodup.sublist (h.kept.map _) ?_
    rw [hMoved]
    exact hOld.sublist (hNodes.map _)
  have hPerm := (List.filter_append_perm (fun x : Nat × Subtree => decide (x.2.serial < old)) stock.2).map
    (·.2.serial)
  have hNew : stock.2.filter (fun x => !decide (x.2.serial < old)) = stock.2.filter (old ≤ ·.2.serial) :=
    List.filter_congr fun x _ => by rw [← decide_not, decide_eq_decide, Nat.not_lt]
  rw [← hPerm.nodup_iff, hNew, List.map_append]
  refine List.nodup_append'.mpr ⟨hKept, h.numbered.nodup, fun serial hFirst hSecond => ?_⟩
  obtain ⟨x, hFound, rfl⟩ := List.mem_map.mp hFirst
  obtain ⟨y, hOther, hSame⟩ := List.mem_map.mp hSecond
  have hSmall : x.2.serial < old := by simpa using (List.mem_filter.mp hFound).2
  have hLarge : old ≤ y.2.serial := by simpa using (List.mem_filter.mp hOther).2
  omega

/-- A step that takes nothing over. -/
theorem Splices.renews (h : job.Splices origin old s pieces) (hSized : job.Sized r)
    (hRenews : Renews (held s) (held r)) (hQueue : r.queue = s.queue)
    (hWaiting : ∀ t ∈ r.pending, t.isLeaf = false → r.pending = s.pending
      ∧ r.stack.stop = s.stack.stop) : job.Splices origin old r pieces where
  sized := hSized
  later := h.later.trans hRenews.le
  taken := h.taken.renews h.later hRenews
  nodes := hQueue ▸ h.nodes
  behind := hQueue ▸ h.behind
  waiting := by
    intro t hMem hLeaf
    obtain ⟨hPending, hStop⟩ := hWaiting t hMem hLeaf
    rw [hQueue, hStop, hPending]
    exact h.waiting t (hPending ▸ hMem) hLeaf

theorem not_waiting (hLeaves : ∀ t ∈ r.pending, t.isLeaf = true) {P : Prop} :
    ∀ t ∈ r.pending, t.isLeaf = false → P :=
  fun t hMem hWhole => absurd ((hLeaves t hMem).symm.trans hWhole) (by simp)

/-- The subtree that the queue stands in front of is taken over. -/
theorem Splices.take (hOld : ∀ x ∈ origin.nodes, x.2.serial < old)
    (h : job.Splices origin old s pieces) {q : ReuseQueue} {t : Subtree} {ts : List Subtree}
    (hHeld : held s = s.stack.stock []) (hQueue : s.queue = some q) (hAhead : q.ahead = t :: ts)
    (hStart : q.map q.start = s.stack.stop) (hReusable : q.isReusable q.start t = true) :
    Pieces origin old (pieces ++ [(q.start, t)]) (s.stack.stock [t])
      ∧ ((pieces ++ [(q.start, t)]).flatMap (fun p => placed p.1 p.2) ++ q.pass.nodes).Sublist
        origin.nodes
      ∧ origin.Behind q.pass ∧ ∀ p ∈ pieces ++ [(q.start, t)], p.1 + p.2.total ≤ q.pass.start := by
  obtain ⟨hBehind, hFront⟩ := h.behind q hQueue
  obtain ⟨hNumbered, hKept, hAll, hOrdered⟩ := h.taken
  rw [hHeld] at hNumbered hKept
  have hEdit := hBehind.edit
  have hNodes : ((pieces ++ [(q.start, t)]).flatMap (fun p => placed p.1 p.2)
      ++ q.pass.nodes).Sublist origin.nodes := by
    have hNodes := h.nodes
    rw [hQueue, Option.elim, ReuseQueue.nodes_of_ahead hAhead] at hNodes
    simpa using hNodes
  -- The nodes of the piece are old, and stand behind those on the stack.
  have hPiece : ∀ start, ∀ x ∈ placed start t, x.2.serial < old := by
    intro start x hMem
    have hSame := map_snd_placed start q.start t ▸ List.mem_map_of_mem (f := Prod.snd) hMem
    obtain ⟨y, hFound, hNode⟩ := List.mem_map.mp hSame
    rw [← hNode]
    exact hOld y (hNodes.subset (by simp [hFound]))
  have hStock : (s.stack.stock [t]).2 = (s.stack.stock []).2 ++ placed (origin.map q.start) t := by
    rw [← ReuseQueue.map_congr hEdit, hStart, h.sized.sound.stop_eq_width]
    simp [ParseStack.stock, placedAll_append]
  refine ⟨⟨⟨?_, ?_⟩, ?_, ?_, ?_⟩, hNodes, .pass hBehind, ?_⟩
  · intro x hMem
    rw [hStock] at hMem
    rcases List.mem_append.mp hMem with hMem | hMem
    · exact hNumbered.below x hMem
    · exact Nat.lt_of_lt_of_le (hPiece _ x hMem) h.later
  · have hNone : (placed (origin.map q.start) t).filter (old ≤ ·.2.serial) = [] :=
      List.filter_eq_nil_iff.mpr fun x hMem => by simpa using hPiece _ x hMem
    rw [hStock, List.filter_append, hNone, List.append_nil]
    exact hNumbered.nodup
  · have hEvery : (placed (origin.map q.start) t).filter (·.2.serial < old)
        = placed (origin.map q.start) t :=
      List.filter_eq_self.mpr fun x hMem => by simpa using hPiece _ x hMem
    rw [hStock, List.filter_append, hEvery, List.flatMap_append, List.flatMap_singleton]
    exact hKept.append_right _
  · intro p hMem
    rcases List.mem_append.mp hMem with hMem | hMem
    · exact hAll p hMem
    · obtain rfl := List.mem_singleton.mp hMem
      exact (ReuseQueue.isReusable_congr hEdit q.start t).symm.trans hReusable
  · refine List.pairwise_append.mpr ⟨hOrdered, List.pairwise_singleton _ _, fun p hMem r hLast => ?_⟩
    obtain rfl := List.mem_singleton.mp hLast
    exact hFront p hMem
  · intro p hMem
    rw [ReuseQueue.start_pass hAhead]
    rcases List.mem_append.mp hMem with hMem | hMem
    · exact (hFront p hMem).trans (Nat.le_add_right _ _)
    · obtain rfl := List.mem_singleton.mp hMem
      exact Nat.le_refl _

theorem Splices.leaves_of_leaf (h : job.Splices origin old s pieces) {t : Subtree} {ts : List Subtree}
    (hPending : s.pending = t :: ts) (hLeaf : t.isLeaf = true) : ∀ u ∈ ts, u.isLeaf = true := by
  intro u hMem
  by_contra hWhole
  obtain ⟨hOnly, -⟩ := h.waiting u (by simp [hPending, hMem]) (by simpa using hWhole)
  obtain ⟨rfl, -⟩ : t = u ∧ ts = [] := by simpa [hPending] using hOnly
  exact hWhole hLeaf

/-- Popped entries are skipped with what stands behind them. -/
theorem Sized.renews_cut (h : job.Sized s) {depth : Nat} {ts us : List Subtree}
    (hPending : s.pending = ts ++ us) :
    Renews (s.stack.stock (ts ++ us))
      ((if ((s.stack.pop depth).1 ++ ts).isEmpty then (s.stack.pop depth).2.noteDecision
        else (s.stack.pop depth).2.noteDecision.pushSkipped job.tables
          ((s.stack.pop depth).1 ++ ts)).stock us) := by
  obtain ⟨hPopped, -, hPieces, -⟩ := ParseStack.sound_pop h.sound depth
  have hTokens : ∀ v ∈ (s.stack.pop depth).1 ++ ts, All (Measured job.tables.widths) v := by
    intro v hMem
    rcases List.mem_append.mp hMem with hMem | hMem
    · exact hPieces v hMem
    · exact h.pending v (by rw [hPending]; exact List.mem_append_left _ hMem)
  refine (s.stack.renews_pop depth (ts ++ us)).trans ?_
  rw [← List.append_assoc]
  split
  · rename_i hNone
    rw [List.isEmpty_iff.mp hNone]
    exact .refl
  · exact ParseStack.renews_pushSkipped job.tables (ParseStack.sound_noteDecision hPopped) hTokens us

/-- A token that the queue offers is taken over at once, a larger subtree waits. -/
theorem Splices.offer (hOld : ∀ x ∈ origin.nodes, x.2.serial < old)
    (h : job.Splices origin old s pieces) {q : ReuseQueue} {t : Subtree} {ts : List Subtree}
    (hSized : job.Sized { s with pending := [t], queue := some (if t.isLeaf then q.pass else q) })
    (hPending : s.pending = []) (hQueue : s.queue = some q) (hAhead : q.ahead = t :: ts)
    (hStart : q.map q.start = s.stack.stop) (hReusable : q.isReusable q.start t = true) :
    ∃ pieces, job.Splices origin old
      { s with pending := [t], queue := some (if t.isLeaf then q.pass else q) } pieces := by
  have hHeld : held s = s.stack.stock [] := by rw [held, hPending, List.filter_nil]
  cases hLeaf : t.isLeaf with
  | true =>
      simp only [hLeaf, if_true] at hSized ⊢
      obtain ⟨hTaken, hNodes, hBehind, hFront⟩ :=
        h.take hOld hHeld hQueue hAhead hStart hReusable
      refine ⟨pieces ++ [(q.start, t)], hSized, h.later, ?_, hNodes, ?_, ?_⟩
      · rwa [held, List.filter_cons_of_pos hLeaf, List.filter_nil]
      · rintro p hSome
        obtain rfl := Option.some.inj hSome
        exact ⟨hBehind, hFront⟩
      · intro u hMem hWhole
        obtain rfl := List.mem_singleton.mp hMem
        exact absurd (hLeaf.symm.trans hWhole) (by simp)
  | false =>
      simp only [hLeaf, Bool.false_eq_true, if_false] at hSized ⊢
      refine ⟨pieces, hSized, h.later, ?_, hQueue ▸ h.nodes, hQueue ▸ h.behind, ?_⟩
      · have hSame : held { s with pending := [t], queue := some q } = held s := by
          rw [hHeld, held, List.filter_cons_of_neg (by simp [hLeaf]), List.filter_nil]
        exact hSame ▸ h.taken
      · intro u hMem hWhole
        obtain rfl := List.mem_singleton.mp hMem
        exact ⟨rfl, q, ts, rfl, hAhead, hStart, hReusable⟩

/-- A larger subtree is taken over when it is shifted. -/
theorem Splices.reuse (hOld : ∀ x ∈ origin.nodes, x.2.serial < old)
    (h : job.Splices origin old s pieces) {t : Subtree} {ts : List Subtree} {next : StateId}
    (hSized : job.Sized
      { s with stack := s.stack.push next t, pending := ts, queue := s.queue.map (·.pass) })
    (hPending : s.pending = t :: ts) (hLeaf : t.isLeaf = false) :
    ∃ pieces, job.Splices origin old
      { s with stack := s.stack.push next t, pending := ts, queue := s.queue.map (·.pass) } pieces := by
  obtain ⟨hOnly, q, us, hQueue, hAhead, hStart, hReusable⟩ := h.waiting t (by simp [hPending]) hLeaf
  obtain rfl : ts = [] := by simpa [hPending] using hOnly
  have hHeld : held s = s.stack.stock [] := by
    rw [held, hPending, List.filter_cons_of_neg (by simp [hLeaf]), List.filter_nil]
  obtain ⟨hTaken, hNodes, hBehind, hFront⟩ := h.take hOld hHeld hQueue hAhead hStart hReusable
  have hPush := ParseStack.renews_push s.stack next t []
  refine ⟨pieces ++ [(q.start, t)], hSized, h.later.trans hPush.le, hTaken.renews h.later hPush,
    ?_, ?_, by simp⟩
  · rw [hQueue]
    exact hNodes
  · intro p hSome
    rw [hQueue] at hSome
    obtain rfl := Option.some.inj hSome
    exact ⟨hBehind, hFront⟩

/-- One move takes over at most the subtree that the queue stands in front of. -/
theorem Splices.move (hGenerated : job.tables.Generated g m) (hProper : g.Proper)
    (hOld : ∀ x ∈ origin.nodes, x.2.serial < old) (hMove : job.Move s r)
    (h : job.Splices origin old s pieces) : ∃ pieces, job.Splices origin old r pieces := by
  have hSized := h.sized.move hGenerated hProper hMove
  cases hMove with
  | note =>
      exact ⟨pieces, h.renews hSized .refl rfl fun _ _ _ => ⟨rfl, rfl⟩⟩
  | read hLeaves hLast =>
      let token := job.readAt s.stack.nextSerial (s.stack.stop + width s.pending)
      have hAll : ∀ t ∈ s.pending ++ [token], t.isLeaf = true := by
        simpa [or_imp, forall_and, token, isLeaf_readAt] using hLeaves
      refine ⟨pieces, h.renews hSized ?_ rfl (not_waiting hAll)⟩
      rw [held_of_leaves hLeaves, held_of_leaves hAll]
      simpa using @ParseStack.renews_new s.stack s.pending [token] [] (by simp [token, isLeaf_readAt])
        (by simp [token, serial_readAt]) (.inl rfl)
  | offer q t ts hPending hQueue hAhead hStart hReusable =>
      exact h.offer hOld hSized hPending hQueue hAhead hStart hReusable
  | advance q p hPending hQueue hBehind =>
      obtain ⟨hOrigin, hFront⟩ := h.behind q hQueue
      obtain ⟨hLess, hLe⟩ := hBehind.nodes (h.sized.queue q hQueue)
      refine ⟨pieces, hSized, h.later, h.taken, ?_, ?_, by simp [hPending]⟩
      · have hNodes := h.nodes
        rw [hQueue] at hNodes
        exact (hLess.append_left _).trans hNodes
      · rintro p' hSome
        obtain rfl := Option.some.inj hSome
        exact ⟨hOrigin.trans hBehind, fun x hMem => (hFront x hMem).trans hLe⟩
  | drop t hPending hLeaf =>
      refine ⟨pieces, h.renews hSized ?_ rfl (by simp)⟩
      rw [held, held, hPending, List.filter_cons_of_neg (by simp [hLeaf])]
  | insert ts nextSerial hLeaves hInserted hSerials hNext =>
      subst hNext
      have hNew : ∀ t ∈ ts, t.isLeaf = true ∧ t.total = 0 := by
        intro t hMem
        obtain ⟨serial, terminal, -, rfl⟩ := hInserted t hMem
        exact ⟨rfl, rfl⟩
      have hAll : ∀ t ∈ ts ++ s.pending, t.isLeaf = true := by
        intro t hMem
        exact (List.mem_append.mp hMem).elim (fun hMem => (hNew t hMem).1) (hLeaves t)
      refine ⟨pieces, h.renews hSized ?_ rfl (not_waiting hAll)⟩
      rw [held_of_leaves hLeaves, held_of_leaves hAll]
      exact @ParseStack.renews_new s.stack [] ts s.pending (fun t hMem => (hNew t hMem).1) hSerials
        (.inr (width_eq_zero fun t hMem => (hNew t hMem).2))
  | shift t ts next hPending hLeaf hShift =>
      refine ⟨pieces, h.renews hSized ?_ rfl ?_⟩
      · rw [held, held, hPending, List.filter_cons_of_pos hLeaf]
        exact ParseStack.renews_push _ _ _ _
      · intro u hMem hWhole
        exact absurd hWhole (by simp [h.leaves_of_leaf hPending hLeaf u hMem])
  | reuse t ts next hPending hLeaf hState hGoto => exact h.reuse hOld hSized hPending hLeaf
  | reduce t ts rule info lookaheadStop hPending hReduce hRule =>
      have hStop := h.sized.stop_reduce hGenerated hProper info lookaheadStop
      exact ⟨pieces, h.renews hSized (ParseStack.renews_reduce h.sized.sound isHidden_widths
        (not_splices_errorSymbol hGenerated hProper).1 info lookaheadStop _) rfl
        fun _ _ _ => ⟨rfl, hStop⟩⟩
  | skip t ts hPending hLeaf hKind =>
      refine ⟨pieces, h.renews hSized ?_ rfl ?_⟩
      · have hToken : ∀ u ∈ [t], All (Measured job.tables.widths) u := by
          simp [h.sized.pending t (by simp [hPending])]
        rw [held, held, hPending, List.filter_cons_of_pos hLeaf]
        exact ParseStack.renews_pushSkipped job.tables h.sized.sound hToken _
      · intro u hMem hWhole
        exact absurd hWhole (by simp [h.leaves_of_leaf hPending hLeaf u hMem])
  | cut depth ts u us hPending hLeaves =>
      have hAll : ∀ v ∈ u :: us, v.isLeaf = true :=
        fun v hMem => hLeaves v (hPending ▸ List.mem_append_right ts hMem)
      refine ⟨pieces, h.renews hSized ?_ rfl (not_waiting hAll)⟩
      rw [held_of_leaves hLeaves, held_of_leaves hAll, hPending]
      exact h.sized.renews_cut hPending

theorem Splices.moves (hGenerated : job.tables.Generated g m) (hProper : g.Proper)
    (hOld : ∀ x ∈ origin.nodes, x.2.serial < old) (hMoves : job.Moves s r)
    (h : job.Splices origin old s pieces) : ∃ pieces, job.Splices origin old r pieces :=
  keep_of_moves (P := fun s => ∃ pieces, job.Splices origin old s pieces)
    (fun hMove ⟨_, hBefore⟩ => hBefore.move hGenerated hProper hOld hMove) hMoves ⟨pieces, h⟩

end
end ParseJob
end IncrementalParsing
