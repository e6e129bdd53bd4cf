import IncrementalParsing.Proofs.Parser.Widths
import IncrementalParsing.Proofs.Tables.Chains

/-! What a parse has left to do: the subtrees in its queue, the bytes it has not read and the tokens
it has read but not taken up. Every step but a reduction uses some of it up, or puts the parse in
front of tokens that it is bound to take up. -/
namespace IncrementalParsing
open Subtree

namespace Subtree

/-- What taking up a token is worth. The end and inserted tokens are worth nothing. -/
def worth (u : Subtree) : Nat := if u.kind ≠ endSymbol ∧ 0 < u.total then 1 else 0

/-- A token is the end, or has a width. -/
def Solid (u : Subtree) : Prop := u.isLeaf = true → u.kind = endSymbol ∨ 0 < u.total

theorem worth_of_narrow {u : Subtree} (hNarrow : u.total = 0) : u.worth = 0 :=
  if_neg (by simp [hNarrow])

/-- A subtree pays for one step at most. -/
theorem worth_le_one (u : Subtree) : u.worth ≤ 1 := by
  unfold worth
  split <;> simp

/-- A token other than the end has a width, and pays. -/
theorem Solid.wide {u : Subtree} (h : u.Solid) (hLeaf : u.isLeaf = true) (hKind : u.kind ≠ endSymbol) :
    0 < u.total ∧ u.worth = 1 := by
  have hWide := (h hLeaf).resolve_left hKind
  exact ⟨hWide, if_pos ⟨hKind, hWide⟩⟩

end Subtree

namespace ReuseQueue

theorem weight_pass_le (q : ReuseQueue) : q.pass.weight ≤ q.weight := by
  cases hAhead : q.ahead with
  | nil => simp [pass, hAhead]
  | cons t ts => exact Nat.le_of_lt (weight_pass_lt hAhead)

theorem weight_enter_le (q : ReuseQueue) : q.enter.weight ≤ q.weight := by
  cases hAhead : q.ahead with
  | nil => simp [enter, hAhead]
  | cons t ts => exact Nat.le_of_lt (weight_enter_lt hAhead)

/-- A queue that moves on has no more in front of it. -/
theorem Behind.weight_le {q r : ReuseQueue} (h : q.Behind r) : r.weight ≤ q.weight := by
  induction h with
  | refl => exact Nat.le_refl _
  | pass _ ih => exact (weight_pass_le _).trans ih
  | enter _ ih => exact (weight_enter_le _).trans ih

end ReuseQueue

namespace ParseStack

/-- A state that is pushed is on top. -/
theorem states_push (s : ParseStack) (next : StateId) (u : Subtree) :
    (s.push next u).states = next :: s.states := by
  rw [states_eq, steps_push, states_eq]
  rfl

/-- Skipping keeps the states. -/
theorem states_pushSkipped (t : Tables) (s : ParseStack) (pieces : List Subtree) :
    (s.pushSkipped t pieces).states = s.states := by
  rw [states_eq, steps_pushSkipped, states_eq]

/-- Popping takes the top states off. -/
theorem states_pop (s : ParseStack) (depth : Nat) :
    (s.pop depth).2.noteDecision.states = s.states.drop depth := by
  rw [states_eq, noteDecision, steps_pop, states_eq, List.map_drop]

end ParseStack

/-- The states take up some inserted tokens and then one more token. -/
inductive Tables.Welcomes (t : Tables) : (count : Nat) → List StateId → List Subtree → Prop
  | last {states after : List StateId} {limit : Nat} {u : Subtree} {us : List Subtree}
      (hLeaf : u.isLeaf = true) (hSolid : ∀ v ∈ u :: us, v.Solid)
      (hAct : t.act u.kind limit states = some after) : Welcomes t 0 states (u :: us)
  | inserted {states after : List StateId} {count limit : Nat} {u : Subtree} {us : List Subtree}
      (hLeaf : u.isLeaf = true) (hNarrow : u.total = 0)
      (hAct : t.act u.kind limit states = some after) (hRest : Welcomes t count after us) :
      Welcomes t (count + 1) states (u :: us)

namespace Tables
variable {t : Tables}

theorem Welcomes.exists_head {count : Nat} {states : List StateId} {ts : List Subtree}
    (h : t.Welcomes count states ts) : ∃ u us, ts = u :: us ∧ u.isLeaf = true
      ∧ ∃ limit after, t.act u.kind (limit + 1) states = some after := by
  have hLimit : ∀ {kind limit after}, t.act kind limit states = some after →
      ∃ limit after, t.act kind (limit + 1) states = some after := by
    intro kind limit after hAct
    cases limit with
    | zero => simp [act] at hAct
    | succ limit => exact ⟨limit, after, hAct⟩
  cases h with
  | last hLeaf _ hAct => exact ⟨_, _, rfl, hLeaf, hLimit hAct⟩
  | inserted hLeaf _ hAct => exact ⟨_, _, rfl, hLeaf, hLimit hAct⟩

/-- A reduction is on the way to what is taken up. -/
theorem Welcomes.reduce {count : Nat} {states after : List StateId} {u : Subtree} {us : List Subtree}
    (h : t.Welcomes count states (u :: us)) (hStep : t.reduction? u.kind states = some after) :
    t.Welcomes count after (u :: us) := by
  cases h with
  | @last _ last limit _ _ hLeaf hSolid hAct =>
      cases limit with
      | zero => simp [act] at hAct
      | succ limit => exact .last hLeaf hSolid (act_of_reduction hStep limit ▸ hAct)
  | @inserted _ last count limit _ _ hLeaf hNarrow hAct hRest =>
      cases limit with
      | zero => simp [act] at hAct
      | succ limit => exact .inserted hLeaf hNarrow (act_of_reduction hStep limit ▸ hAct) hRest

/-- What is inserted is taken up, and then the lookahead. -/
theorem welcomes_of_bridge? {lookahead : Subtree} {pending : List Subtree}
    (hLeaf : lookahead.isLeaf = true) (hSolid : ∀ v ∈ lookahead :: pending, v.Solid)
    {inserted : List Subtree} (hInserted : ∀ v ∈ inserted, v.isLeaf = true ∧ v.total = 0)
    {length : Nat} {states : List StateId}
    (hBridge : t.bridge? lookahead.kind length states = some (inserted.map (·.kind))) :
    inserted.length = length ∧ t.Welcomes length states (inserted ++ lookahead :: pending) := by
  induction length generalizing states inserted with
  | zero =>
      unfold bridge? at hBridge
      split at hBridge
      · rename_i hTakes
        obtain rfl : inserted = [] := by simpa using hBridge.symm
        obtain ⟨after, hAfter⟩ := Option.isSome_iff_exists.mp hTakes
        exact ⟨rfl, .last hLeaf hSolid hAfter⟩
      · simp at hBridge
  | succ length ih =>
      obtain ⟨terminal, -, hFirst⟩ := List.exists_of_findSome?_eq_some hBridge
      split at hFirst
      · simp at hFirst
      · rename_i next hNext
        obtain ⟨rest, hRest, hSame⟩ := Option.map_eq_some_iff.mp hFirst
        cases inserted with
        | nil => simp at hSame
        | cons u us =>
            obtain ⟨rfl, rfl⟩ : terminal = u.kind ∧ rest = us.map (·.kind) := by simpa using hSame
            obtain ⟨hLength, hWelcomes⟩ := ih (fun v hMem => hInserted v (by simp [hMem])) hRest
            obtain ⟨hToken, hNarrow⟩ := hInserted u (by simp)
            exact ⟨by rw [List.length_cons, hLength], .inserted hToken hNarrow hNext hWelcomes⟩

end Tables

namespace ParseJob
variable {job : ParseJob}

/-- What is left of the text behind some tokens, and what the tokens are worth. -/
def spare (job : ParseJob) (position : Nat) (ts : List Subtree) : Nat :=
  (job.text.size - job.locate (position + width ts)) + (ts.map worth).sum

theorem spare_nil (position : Nat) : job.spare position [] = job.text.size - job.locate position := by
  simp [spare]

/-- What can be spent behind a subtree, and what it pays itself. -/
theorem spare_cons (position : Nat) (u : Subtree) (us : List Subtree) :
    job.spare position (u :: us) = job.spare (position + u.total) us + u.worth := by
  simp only [spare, width_cons, List.map_cons, List.sum_cons, Nat.add_assoc]
  omega

theorem spare_append (position : Nat) (ts us : List Subtree) :
    job.spare position (ts ++ us) = job.spare (position + width ts) us + (ts.map worth).sum := by
  simp only [spare, width_append, List.map_append, List.sum_append, Nat.add_assoc]
  omega

/-- Subtrees without a width neither pay nor move the parse on. -/
theorem spare_append_narrow {ts : List Subtree} (hNarrow : ∀ u ∈ ts, u.total = 0)
    (position : Nat) (us : List Subtree) :
    job.spare position (ts ++ us) = job.spare position us := by
  induction ts with
  | nil => rfl
  | cons t ts ih =>
      have hToken := hNarrow t (by simp)
      rw [List.cons_append, spare_cons, hToken, worth_of_narrow hToken]
      exact ih fun u hMem => hNarrow u (by simp [hMem])

/-- Behind input that ends in the text, positions do not wrap around. -/
theorem locate_add {position distance : Nat} (hLe : job.locate position + distance ≤ job.text.size) :
    job.locate (position + distance) = job.locate position + distance := by
  rw [locate, ← Offset.wrap_add]
  exact locate_of_le hLe

/-- A token that is read is worth no more than the bytes it takes. -/
theorem spare_readAt (hRange : job.lexer.InRange) (serial position : Nat) :
    job.spare position [job.readAt serial position] ≤ job.spare position [] := by
  rw [spare_cons, spare_nil, spare_nil]
  rcases readAt_eq hRange serial position with ⟨t, hToken, hRead⟩ | ⟨-, hRead⟩
  · obtain ⟨hWide, hBound⟩ := token?_width hToken
    have hTotal : (job.readAt serial position).total = t.width := by
      rw [hRead]
      rfl
    have hWorth := worth_le_one (job.readAt serial position)
    rw [hTotal, locate_add hBound]
    omega
  · -- What is in front of the end of the input is passed over with it.
    have hWorth : (job.readAt serial position).worth = 0 := by
      rw [hRead]
      rfl
    have hTotal : (job.readAt serial position).total = job.text.size - job.locate position := by
      rw [hRead]
      rfl
    rw [hWorth, hTotal, Nat.add_zero]
    rcases Nat.le_total (job.locate position) job.text.size with hInside | hBehind
    · rw [locate_add (Nat.add_sub_cancel' hInside).le]
      omega
    · rw [Nat.sub_eq_zero_of_le hBehind, Nat.add_zero]
      omega

/-- What is read is the end, or has a width. -/
theorem solid_readAt (serial position : Nat) : (job.readAt serial position).Solid := by
  intro _
  rcases job.readAt_cases serial position with ⟨_, _, _, _, hWide, -, hRead⟩ | ⟨_, hRead⟩
  · exact .inr (hRead ▸ hWide)
  · exact .inl (hRead ▸ rfl)

theorem ReadFrom.solid {position : Nat} {ts : List Subtree} (h : job.ReadFrom position ts) :
    ∀ u ∈ ts, u.Solid := by
  induction ts generalizing position with
  | nil => simp
  | cons t ts ih =>
      obtain ⟨⟨serial, rfl⟩, hRest⟩ := h
      intro u hMem
      rcases List.mem_cons.mp hMem with rfl | hMem
      · exact solid_readAt _ _
      · exact ih hRest u hMem

/-- Tokens that are read pay for no more than the text they take. -/
theorem ReadFrom.spare_le (hRange : job.lexer.InRange) {position : Nat} {ts : List Subtree}
    (h : job.ReadFrom position ts) : job.spare position ts ≤ job.spare position [] := by
  induction ts generalizing position with
  | nil => exact Nat.le_refl _
  | cons t ts ih =>
      obtain ⟨⟨serial, rfl⟩, hRest⟩ := h
      have hToken := spare_readAt hRange serial position
      have hMore := ih hRest
      rw [spare_cons] at hToken ⊢
      omega

/-- The nodes in the queue. -/
def queued (queue : Option ReuseQueue) : Nat := queue.elim 0 (·.weight)

/-- What a parse has left to do. Here the pending input of a state includes its lookahead. A node of the
queue counts for as much as the text does: behind it, a parse may find itself anywhere in the text. -/
def budget (job : ParseJob) (s : ParseState) : Nat :=
  queued s.queue * (job.text.size + 1) + job.spare s.stack.stop (s.pending.filter (·.isLeaf))

/-- With only tokens pending a budget is what the queue and the text allow for. -/
theorem budget_of_leaves {s : ParseState} (hLeaves : ∀ u ∈ s.pending, u.isLeaf = true) :
    job.budget s = queued s.queue * (job.text.size + 1) + job.spare s.stack.stop s.pending := by
  rw [budget, List.filter_eq_self.mpr hLeaves]

/-- What the queue loses pays for any place in the text. -/
theorem spend_node (job : ParseJob) {fewer more rest : Nat} (hLess : fewer < more)
    (hRest : rest ≤ job.text.size) (spared : Nat) :
    fewer * (job.text.size + 1) + rest < more * (job.text.size + 1) + spared :=
  calc fewer * (job.text.size + 1) + rest
      < (fewer + 1) * (job.text.size + 1) := by rw [Nat.succ_mul]; omega
    _ ≤ more * (job.text.size + 1) := Nat.mul_le_mul_right _ hLess
    _ ≤ more * (job.text.size + 1) + spared := Nat.le_add_right _ _

theorem budget_facing {s : ParseState} {lookahead : Lookahead}
    (hLeaf : lookahead.subtree.isLeaf = true) (hTidy : Tidy s lookahead) :
    job.budget (s.facing lookahead) = queued s.queue * (job.text.size + 1)
      + job.spare s.stack.stop (lookahead.subtree :: s.pending) := by
  refine budget_of_leaves fun u hMem => ?_
  rcases List.mem_cons.mp hMem with rfl | hMem
  · exact hLeaf
  · exact hTidy.pending u hMem

/-- A larger subtree at hand is still the first one of the queue. -/
def Linked (s : ParseState) (lookahead : Lookahead) : Prop :=
  lookahead.subtree.isLeaf = false → lookahead.queued = true
    ∧ 0 < lookahead.subtree.total ∧ ∃ q ts, s.queue = some q ∧ q.ahead = lookahead.subtree :: ts

/-- The next input has been found, and nothing has been spent on it if tokens end where offsets are. -/
structure Meets (job : ParseJob) (s : ParseState) (next : Lookahead × ParseState) : Prop where
  linked : Linked next.2 next.1
  solid : ∀ u ∈ next.1.subtree :: next.2.pending, u.Solid
  cheap : job.lexer.InRange → job.budget (next.2.facing next.1) ≤ job.budget s
  states : next.2.stack.states = s.stack.states
  stop : next.2.stack.stop = s.stack.stop

theorem meets_readToken {s : ParseState} (hPending : s.pending = []) :
    job.Meets s (⟨(job.readToken s s.stack.stop).1, false⟩, (job.readToken s s.stack.stop).2) where
  linked := by simp [Linked, readToken, isLeaf_readAt]
  solid := by simpa [readToken, hPending] using solid_readAt _ _
  cheap hRange := by
    rw [budget, budget, hPending, ParseState.facing]
    simp only [readToken, hPending]
    rw [List.filter_cons_of_pos (isLeaf_readAt _ _ _)]
    exact Nat.add_le_add_left (spare_readAt hRange _ _) _
  states := rfl
  stop := rfl

/-- A subtree that the queue offers is paid for by the queue. -/
theorem meets_offer {s : ParseState} {q queue : ReuseQueue} {t : Subtree} (hPending : s.pending = [])
    (hQueue : s.queue = some q) (hOffered : q.offer s.stack.stop = (some t, queue)) :
    job.Meets s (if t.isLeaf then (⟨t, false⟩, { s with queue := some queue.pass })
      else (⟨t, true⟩, { s with queue := some queue })) := by
  obtain ⟨hBehind, hSpec⟩ := q.offer_spec s.stack.stop
  rw [hOffered] at hBehind hSpec
  obtain ⟨⟨ts, hAhead⟩, -, hReusable⟩ := hSpec t rfl
  have hWeight : queue.weight ≤ q.weight := hBehind.weight_le
  have hWide := ((ReuseQueue.isReusable_iff _ _ _).mp hReusable).2.2.2
  split
  · rename_i hLeaf
    refine ⟨by simp [Linked, hLeaf], by simpa [hPending, Solid] using fun _ => .inr hWide, fun _ => ?_,
      rfl, rfl⟩
    have hPass := (queue.weight_pass_lt hAhead).trans_le hWeight
    have hWorth := worth_le_one t
    have hPaid := job.spend_node hPass (Nat.sub_le _ (job.locate (s.stack.stop + t.total)))
      (job.text.size - job.locate s.stack.stop)
    rw [budget, budget, ParseState.facing, hPending, hQueue, List.filter_cons_of_pos hLeaf, List.filter_nil,
      spare_cons, spare_nil, spare_nil]
    simp only [queued, Option.elim]
    omega
  · rename_i hLeaf
    refine ⟨fun _ => ⟨rfl, hWide, queue, ts, rfl, hAhead⟩, by simp [hPending, Solid, hLeaf], fun _ => ?_, rfl,
      rfl⟩
    rw [budget, budget, ParseState.facing, hPending, hQueue, List.filter_cons_of_neg hLeaf]
    exact Nat.add_le_add_right (Nat.mul_le_mul_right _ hWeight) _

/-- Finding the next input costs nothing. -/
theorem meets_nextInput (s : ParseState) (hLeaves : ∀ u ∈ s.pending, u.isLeaf = true)
    (hSolid : ∀ u ∈ s.pending, u.Solid) : job.Meets s (job.nextInput s) := by
  unfold nextInput
  split
  · rename_i t pending hPending
    have hLeaf := hLeaves t (by simp [hPending])
    refine ⟨by simp [Linked, hLeaf], by simpa [hPending] using hSolid, fun _ => ?_, rfl, rfl⟩
    rw [budget, budget, hPending]
    exact Nat.le_refl _
  · rename_i hPending
    dsimp only
    split
    · rename_i t queue hOffer
      obtain ⟨q, hQueue, hOffered⟩ : ∃ q, s.queue = some q
          ∧ q.offer s.stack.stop = (some t, queue) := by
        simpa using hOffer
      exact meets_offer hPending hQueue hOffered
    · rename_i queue hOffer
      obtain ⟨q, hQueue, hOffered⟩ : ∃ q, s.queue = some q
          ∧ q.offer s.stack.stop = (none, queue) := by
        simpa using hOffer
      have hBehind := (q.offer_spec s.stack.stop).1
      rw [hOffered] at hBehind
      have hRead : job.Meets { s with queue := some queue } _ := meets_readToken hPending
      refine { hRead with cheap := fun hRange => (hRead.cheap hRange).trans ?_ }
      rw [budget, budget, hQueue]
      exact Nat.add_le_add_right (Nat.mul_le_mul_right _ hBehind.weight_le) _
    · exact meets_readToken hPending

end ParseJob
end IncrementalParsing
