import IncrementalParsing.Proofs.Parser.Advancing
import IncrementalParsing.Proofs.Subtree.Reach
import IncrementalParsing.Proofs.Subtree.Shape

/-! What a parse does with a subtree that it gives up. It goes on with the first of the children that has a
width, so the token in front of it stays the same one. -/
namespace IncrementalParsing
open Subtree

namespace Subtree
variable {kinds : Kinds}

/-- A token is a node without children that no reduction has made. Nodes that reductions make record a
state, the empty ones too. -/
structure IsToken (u : Subtree) : Prop where
  leaf : u.isLeaf = true
  state : u.info.state = none

theorem isToken_withField {u : Subtree} {field : Option FieldId} : (u.withField field).IsToken ↔ u.IsToken := by
  cases u
  exact ⟨fun h => ⟨h.leaf, h.state⟩, fun h => ⟨h.leaf, h.state⟩⟩

/-- What is read from the text is a token. -/
theorem isToken_readAt (job : ParseJob) (serial position : Nat) : (job.readAt serial position).IsToken where
  leaf := ParseJob.isLeaf_readAt job serial position
  state := by
    rcases job.readAt_cases serial position with ⟨_, _, _, _, -, -, hRead⟩ | ⟨_, hRead⟩ <;> rw [hRead] <;> rfl

theorem not_wide_of_isLeaf_branch {serial : Nat} {kind : SymbolId} {state : Option StateId}
    {children : List Subtree} {lookaheadEnd : Nat} {fragile : Bool}
    (hLeaf : (branch serial kind state children lookaheadEnd fragile).isLeaf = true) :
    ¬ 0 < (branch serial kind state children lookaheadEnd fragile).total := by
  have hNone : children = [] := List.isEmpty_iff.mp hLeaf
  simp [hNone]

/-- A node that recovery has not decided on is made of such nodes. Error nodes are damage, and what has a
width but no children is a token. -/
structure Sturdy (u : Subtree) : Prop where
  error : u.kind = errorSymbol → u.isLeaf = false → u.hasError = true
  children : u.kind ≠ errorSymbol → u.isFragile = false → ∀ c ∈ u.children, c.isFragile = false
  token : u.isLeaf = true → 0 < u.total → u.IsToken

theorem Sturdy.withField (field : Option FieldId) (u : Subtree) (h : Sturdy u) :
    Sturdy (u.withField field) := by
  cases u
  exact ⟨h.error, h.children, fun hLeaf hWide => isToken_withField.mpr (h.token hLeaf hWide)⟩

theorem IsToken.sturdy {u : Subtree} (h : IsToken u) : Sturdy u where
  error _ hWhole := absurd (h.leaf.symm.trans hWhole) Bool.true_eq_false.mp
  children _ _ := by simp [children_of_isLeaf h.leaf]
  token _ _ := h

/-- In a firm node without damage every child is firm. -/
theorem Sturdy.sturdy_child {u c : Subtree} (h : Sturdy u) (hWhole : u.hasError = false)
    (hFirm : u.isFragile = false) (hMem : c ∈ u.children) : c.isFragile = false := by
  refine h.children (fun hKind => ?_) hFirm c hMem
  exact absurd ((h.error hKind (not_isLeaf_of_mem hMem)).symm.trans hWhole) Bool.true_eq_false.mp

/-- Opening hidden nodes of a firm node brings out firm nodes. -/
theorem sturdy_unwrapped {opens : Subtree → Bool} (hOpens : ∀ u, opens u = true → u.kind ≠ errorSymbol)
    (ts : List Subtree) (hFirm : ∀ t ∈ ts, All Sturdy t) (h : ∀ t ∈ ts, t.isFragile = false) :
    ∀ t ∈ unwrapped opens ts, t.isFragile = false := by
  induction ts using unwrapped_induction opens with
  | nil => simp
  | opened t ts hOpen ihChildren ih =>
      have hHead := hFirm t (by simp)
      rw [unwrapped_of_opens hOpen]
      refine List.forall_mem_append.mpr ⟨ihChildren ?_ ?_, ih (fun u hMem => hFirm u (by simp [hMem]))
        fun u hMem => h u (by simp [hMem])⟩
      · refine List.forall_mem_map.mpr fun c hMem => ?_
        exact (hHead.child hMem).withField Sturdy.withField _
      · refine List.forall_mem_map.mpr fun c hMem => ?_
        rw [orField, isFragile_withField]
        exact hHead.self.children (hOpens t hOpen) (h t (by simp)) c hMem
  | closed t ts hClosed ih =>
      rw [unwrapped_of_not_opens hClosed]
      exact List.forall_mem_cons.mpr ⟨h t (by simp), ih (fun u hMem => hFirm u (by simp [hMem]))
        fun u hMem => h u (by simp [hMem])⟩

end Subtree

namespace ReuseQueue
variable {kinds : Kinds} {q : ReuseQueue} {position : Nat}

end ReuseQueue

namespace ParseJob
variable {job : ParseJob} {g : Grammar} {m : Automaton} {s r : ParseState} {lookahead : Lookahead}

/-- Nodes that recovery has not decided on are made of such nodes. -/
theorem upheld_sturdy (hGenerated : job.tables.Generated g m) (hProper : g.Proper) :
    job.Upheld g m fun u => Rooted g u ∧ Sturdy u := by
  refine upheld_beside hGenerated hProper ⟨Sturdy.withField, ?_⟩ ?_ ?_ ?_
  · exact fun serial state children _ _ => ⟨fun _ _ => rfl, fun hKind => absurd rfl hKind,
      fun hLeaf hWide => absurd hWide (not_wide_of_isLeaf_branch hLeaf)⟩
  · exact fun serial position => (isToken_readAt job serial position).sturdy
  · exact fun serial terminal _ => IsToken.sturdy ⟨rfl, rfl⟩
  · intro s rule info hRule hTaken lookaheadStop
    refine ⟨fun hKind => absurd hKind (ParseStack.lhs_ne_error hGenerated hProper hRule), fun _ hFirm => ?_,
      fun hLeaf hWide => absurd hWide (not_wide_of_isLeaf_branch hLeaf)⟩
    have hParts : (_ || (ParseStack.takeChildren info.rhs.reverse (s.entries.dropWhile (·.extra)) []).1.any
        isFragile) = false := hFirm
    have hPieces := List.any_eq_false.mp (Bool.or_eq_false_iff.mp hParts).2
    rw [ParseStack.reduced, children_branch]
    split
    · exact fun c hMem => by simpa using hPieces c hMem
    · refine sturdy_unwrapped (fun u hOpens hKind => ?_) _
        (fun u hMem => (hTaken.children u hMem).nodes.imp fun _ hNode => hNode.2)
        fun c hMem => by simpa using hPieces c hMem
      rw [hKind, (not_splices_errorSymbol hGenerated hProper).1] at hOpens
      exact Bool.false_ne_true hOpens

theorem ReadFrom.isToken {position : Nat} {ts : List Subtree} (h : job.ReadFrom position ts) :
    ∀ u ∈ ts, u.IsToken := by
  induction ts generalizing position with
  | nil => simp
  | cons t ts ih =>
      obtain ⟨⟨serial, rfl⟩, hRest⟩ := h
      exact List.forall_mem_cons.mpr ⟨isToken_readAt job serial position, ih hRest⟩

/-- What is in front of a parse: tokens, or a larger subtree that the queue still stands in front of. -/
inductive Fed (s : ParseState) : Prop
  | tokens (hTokens : ∀ t ∈ s.pending, t.IsToken) : Fed s
  | whole {q : ReuseQueue} {t : Subtree} {ts : List Subtree} (hPending : s.pending = [t])
      (hQueue : s.queue = some q) (hAhead : q.ahead = t :: ts) (hStart : q.map q.start = s.stack.stop)
      (hReusable : q.isReusable q.start t = true) : Fed s

theorem Fed.rest (h : Fed s) {t : Subtree} {ts : List Subtree} (hPending : s.pending = t :: ts) :
    ∀ u ∈ ts, u.IsToken := by
  cases h with
  | tokens hTokens => exact fun u hMem => hTokens u (by simp [hPending, hMem])
  | whole hOne =>
      obtain ⟨-, rfl⟩ := List.cons.inj (hPending.symm.trans hOne)
      simp

/-- What taking subtrees apart relies on: what nodes are like, and what is in front. -/
structure Supplied (job : ParseJob) (g : Grammar) (m : Automaton) (s : ParseState) : Prop where
  lawful : job.Lawful (fun u => Rooted g u ∧ Sturdy u) m s
  sized : job.Sized s
  fed : Fed s

theorem supplied_start {queue : Option ReuseQueue}
    (hSturdy : ∀ q, queue = some q → ∀ u ∈ q.ahead, All (fun u => Rooted g u ∧ Sturdy u) u)
    (hMeasured : ∀ q, queue = some q → ∀ u ∈ q.ahead, All (Measured job.tables.widths) u) (nextSerial : Nat) :
    job.Supplied g m (start queue nextSerial) where
  lawful := lawful_start hSturdy nextSerial
  sized := sized_start hMeasured nextSerial
  fed := .tokens (by simp [start])

/-- A pending leaf is a token. -/
theorem Supplied.token (h : job.Supplied g m s) {t : Subtree} (hMem : t ∈ s.pending) (hLeaf : t.isLeaf = true) :
    t.IsToken := by
  cases h.fed with
  | tokens hTokens => exact hTokens t hMem
  | @whole q u ts hPending hQueue hAhead hStart hReusable =>
      obtain rfl : t = u := by simpa [hPending] using hMem
      exact (h.lawful.queue q hQueue t (by simp [hAhead])).self.2.token hLeaf
        ((ReuseQueue.isReusable_iff _ _ _).mp hReusable).2.2.2

/-- A move leaves only tokens behind what is at the front. -/
theorem Supplied.fed_move (hGenerated : job.tables.Generated g m) (hProper : g.Proper) (h : job.Supplied g m s)
    (hMove : job.Move s r) : Fed r := by
  cases hMove with
  | note =>
      cases h.fed with
      | tokens hTokens => exact .tokens hTokens
      | whole hPending hQueue hAhead hStart hReusable =>
          exact .whole hPending hQueue hAhead hStart hReusable
  | read hLeaves =>
      exact .tokens (List.forall_mem_append.mpr
        ⟨fun t hMem => h.token hMem (hLeaves t hMem), by simp [isToken_readAt]⟩)
  | offer q t ts hPending hQueue hAhead hStart hReusable =>
      cases hLeaf : t.isLeaf with
      | true =>
          have hWide := ((ReuseQueue.isReusable_iff _ _ _).mp hReusable).2.2.2
          have hSturdy := (h.lawful.queue q hQueue t (by simp [hAhead])).self.2
          exact .tokens (by simpa using hSturdy.token hLeaf hWide)
      | false => exact .whole rfl (by simp) hAhead hStart hReusable
  | advance q p hPending => exact .tokens (by simp [hPending])
  | drop => exact .tokens (by simp)
  | insert ts nextSerial hLeaves hInserted =>
      refine .tokens (List.forall_mem_append.mpr
        ⟨fun t hMem => ?_, fun t hMem => h.token hMem (hLeaves t hMem)⟩)
      obtain ⟨serial, terminal, -, rfl⟩ := hInserted t hMem
      exact ⟨rfl, rfl⟩
  | shift t ts next hPending => exact .tokens (h.fed.rest hPending)
  | reuse t ts next hPending => exact .tokens (h.fed.rest hPending)
  | reduce t ts rule info lookaheadStop =>
      have hStop := h.sized.stop_reduce hGenerated hProper info lookaheadStop
      cases h.fed with
      | tokens hTokens => exact .tokens hTokens
      | whole hPending hQueue hAhead hStart hReusable =>
          exact .whole hPending hQueue hAhead (hStart.trans hStop.symm) hReusable
  | skip t ts hPending => exact .tokens (h.fed.rest hPending)
  | cut depth ts u us hPending hLeaves =>
      refine .tokens fun v hMem => ?_
      have hBefore : v ∈ s.pending := hPending ▸ List.mem_append_right ts hMem
      exact h.token hBefore (hLeaves v hBefore)

/-- So every move keeps the input in supply. -/
theorem Supplied.move (hGenerated : job.tables.Generated g m) (hProper : g.Proper) (h : job.Supplied g m s)
    (hMove : job.Move s r) : job.Supplied g m r where
  lawful := h.lawful.move (upheld_sturdy hGenerated hProper) hMove
  sized := h.sized.move hGenerated hProper hMove
  fed := h.fed_move hGenerated hProper hMove

end ParseJob

section
variable {language : Language} {g : Grammar} {m : Automaton} {job : ParseJob} {s : ParseState}
  {lookahead : Lookahead}

/-- What holds where the parses of a language start, and what their moves keep, holds wherever they come
to. -/
theorem Arises.of_moves {P : ParseJob → ParseState → Prop} (hGenerated : language.tables.Generated g m)
    (hProper : g.Proper)
    (hStart : ∀ (p : Parser) (text : ByteArray) (nextSerial : Nat), p.language = language →
      P (p.job text) (ParseJob.start none nextSerial))
    (hRestart : ∀ (p : Parser) (text : ByteArray) (nextSerial : Nat) {edited : Tree} {accepted : Bool},
      p.language = language → Grown language edited accepted →
      P (p.job text) (ParseJob.start (p.queueOf edited) nextSerial))
    (hMove : ∀ {job : ParseJob} {s r : ParseState}, job.tables = language.tables → job.Move s r →
      P job s → P job r)
    (h : Arises language job s lookahead) : P job (s.facing lookahead) := by
  induction h with
  | parse p hLanguage text nextSerial =>
      exact ParseJob.keep_of_moves (hMove (congrArg Language.tables hLanguage))
        (ParseJob.nextInput_moves _ (by simp [ParseJob.start])).1 (hStart p text nextSerial hLanguage)
  | reparse p hLanguage text hGrown nextSerial =>
      exact ParseJob.keep_of_moves (hMove (congrArg Language.tables hLanguage))
        (ParseJob.nextInput_moves _ (by simp [ParseJob.start])).1
        (hRestart p text nextSerial hLanguage hGrown)
  | @step job s r lookahead next h hStep ih =>
      have hLeads := ParseJob.leads_step ((h.tables ▸ hGenerated).stops hProper) s lookahead
        (h.along hGenerated hProper).tidy
      rw [hStep] at hLeads
      exact ParseJob.keep_of_moves (hMove h.tables) hLeads.1 ih

/-- The nodes of trees are sturdy. -/
theorem Grown.sturdy (hGenerated : language.tables.Generated g m) (hProper : g.Proper) {tree : Tree}
    {accepted : Bool} (h : Grown language tree accepted) :
    ∀ u ∈ tree.root.children, All (fun u => Rooted g u ∧ Sturdy u) u := by
  have hUpheld : ∀ (p : Parser) (text : ByteArray), p.language = language →
      (p.job text).Upheld g m fun u => Rooted g u ∧ Sturdy u := by
    rintro p text rfl
    exact ParseJob.upheld_sturdy hGenerated hProper
  obtain ⟨-, p, text, s, stack, hLanguage, hRests⟩ := h.rests hUpheld
  exact hRests.below (hUpheld p text hLanguage)

/-- Wherever a parse comes to, subtrees can be taken apart. -/
theorem Arises.supplied (hGenerated : language.tables.Generated g m) (hProper : g.Proper)
    (h : Arises language job s lookahead) : job.Supplied g m (s.facing lookahead) := by
  refine h.of_moves (P := fun job s => job.Supplied g m s) hGenerated hProper
    (fun p text nextSerial _ => ParseJob.supplied_start (by simp) (by simp) nextSerial)
    (fun p text nextSerial edited accepted hLanguage hGrown => ?_)
    fun hTables hMove hBefore => hBefore.move (hTables ▸ hGenerated) hProper hMove
  subst hLanguage
  exact ParseJob.supplied_start (all_ahead_queueOf (hGrown.sturdy hGenerated hProper) p)
    (all_ahead_queueOf (hGrown.measured hGenerated hProper) p) nextSerial

end
end IncrementalParsing
