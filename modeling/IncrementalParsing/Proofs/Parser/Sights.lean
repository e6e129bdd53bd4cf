import IncrementalParsing.Proofs.Parser.Repeats
import IncrementalParsing.Proofs.Parser.Unpacking
import IncrementalParsing.Proofs.Tree.Hidden

/-! What a step does with whatever is in front of it, be it a token or a larger subtree, and how far into
the text it looks to decide on that. -/
namespace IncrementalParsing
open Subtree

/-- Where a parse stands: its state, and what is in front of it. -/
abbrev Configuration := ParseState × Lookahead

/-- How far the text has been looked at to find the token in front: up to its end, and what was read behind
it. The end of the input counts as one byte past the text. -/
def Configuration.seen (c : Configuration) : Nat :=
  c.1.stack.stop + (c.2.subtree.leftmost 0).2 + (c.2.subtree.leftmost 0).1.lookahead

/-- The same token is in front at the same place. -/
structure Configuration.Shares (c d : Configuration) : Prop where
  stop : d.1.stack.stop = c.1.stack.stop
  token : d.2.subtree.leftmost 0 = c.2.subtree.leftmost 0

theorem Configuration.Shares.seen_eq {c d : Configuration} (h : c.Shares d) : d.seen = c.seen := by
  rw [seen, seen, h.stop, h.token]

/-- Looking at the same input can be carried along. -/
theorem Configuration.Shares.trans {c d e : Configuration} (h : c.Shares d) (hNext : d.Shares e) :
    c.Shares e :=
  ⟨hNext.stop.trans h.stop, hNext.token.trans h.token⟩

namespace ParseStack
variable {t : Tables} {s : ParseStack} {es fs : List StackEntry}

/-- The entries of a stack without the extra ones on top. -/
def core (s : ParseStack) : List StackEntry := s.entries.dropWhile (·.extra)

theorem dropWhile_of_extra (hExtra : ∀ e ∈ es, e.extra = true) :
    (es ++ fs).dropWhile (·.extra) = fs.dropWhile (·.extra) :=
  List.dropWhile_append_of_pos hExtra

/-- Closing the open error node puts it aside, so the core stays. -/
theorem core_closeError (s : ParseStack) : s.closeError.core = s.core := by
  obtain ⟨top, hEntries, hExtra, -⟩ := s.exists_entries_closeError
  rw [core, hEntries, dropWhile_of_extra hExtra, core]

/-- What a reduction takes off the core, and what it leaves. -/
def taken (s : ParseStack) (rule : Production) : List Subtree × List StackEntry :=
  takeChildren rule.rhs.reverse s.core []

/-- What a reduction takes off is what lies on top of the core. -/
theorem exists_core_taken (s : ParseStack) (rule : Production) : ∃ top, s.core = top ++ (s.taken rule).2
    ∧ (s.taken rule).1.map (withField none) = (content top).map (withField none) := by
  obtain ⟨top, hSplit, hTaken⟩ := takeChildren_spec rule.rhs.reverse s.core []
  exact ⟨top, hSplit, by simpa [taken] using hTaken⟩

/-- What a reduction leaves is what it did not take. -/
theorem entries_uncovered (s : ParseStack) (rule : Production) :
    (s.closeError.uncovered rule).entries = (s.taken rule).2 := by
  rw [taken, ← core_closeError]
  rfl

/-- The node of a reduction, made of what is taken off the core. -/
theorem reduced_closeError (t : Tables) (s : ParseStack) (rule : Production) (lookaheadStop : Nat) :
    s.closeError.reduced t rule lookaheadStop
      = branch s.closeError.nextSerial rule.lhs (some (topState (s.taken rule).2))
          (if t.isHidden rule.lhs then (s.taken rule).1
            else unwrapped (t.isHidden ·.kind) (s.taken rule).1)
          (lookaheadStop - topStop (s.taken rule).2)
          (topLevel (s.taken rule).2 < s.decidedLevel || (s.taken rule).1.any isFragile) := by
  rw [taken, ← core_closeError, ← decidedLevel_closeError]
  rfl

theorem nextSerial_pushSkipped (t : Tables) (s : ParseStack) (pieces : List Subtree) :
    (s.pushSkipped t pieces).nextSerial = s.nextSerial := by
  unfold pushSkipped
  split
  · split
    · split <;> rfl
    · rfl
  · rfl

theorem core_suffix_entries (s : ParseStack) : s.core <:+ s.entries := List.dropWhile_suffix _

/-- The entries of a core lie on each other. -/
theorem Sound.stacked_core {kinds : Kinds} (h : s.Sound kinds) : Stacked s.core := by
  obtain ⟨top, hEntries⟩ := s.core_suffix_entries
  exact stacked_of_suffix (hEntries ▸ h.stacked)

/-- No entry is at a higher level than the one on top. -/
theorem level_le_topLevel (hStacked : Stacked es) {e : StackEntry} (hMem : e ∈ es) :
    e.level ≤ topLevel es := by
  obtain ⟨above, below, rfl⟩ := List.mem_iff_append.mp hMem
  exact topLevel_le_append hStacked

end ParseStack

namespace ParseJob
variable {job : ParseJob} {g : Grammar} {m : Automaton} {s : ParseState} {lookahead : Lookahead}

/-- Looking for the next input leaves the stack as it is, but for the number of the next subtree. -/
theorem stack_nextInput (job : ParseJob) (s : ParseState) :
    ∃ nextSerial, (job.nextInput s).2.stack = { s.stack with nextSerial } := by
  unfold nextInput
  split
  · exact ⟨_, rfl⟩
  · dsimp only
    split
    · split <;> exact ⟨_, rfl⟩
    · exact ⟨_, rfl⟩
    · exact ⟨_, rfl⟩

/-- What a step does with what is in front of it. -/
inductive Response (job : ParseJob) (c : Configuration) : ParseStep → Prop
  | reduce {rule : RuleId} {info : Production}
      (hReduce : job.tables.action c.1.stack.state (c.2.subtree.leftmost 0).1.kind = .reduce rule)
      (hRule : job.tables.rules[rule]? = some info)
      (hReduced : (c.1.stack.reduce job.tables info c.seen).1 = true) :
      Response job c
        (.next c.2 { c.1 with stack := (c.1.stack.reduce job.tables info c.seen).2 })
  | token {out : ParseStep} (hLeaf : c.2.subtree.isLeaf = true)
      (hOther : ∀ rule, job.tables.action c.1.stack.state c.2.subtree.kind ≠ .reduce rule)
      (hEffect : job.Effect c.1 c.2 out) : Response job c out
  /-- A larger subtree is taken over. -/
  | reuse (hWhole : c.2.subtree.isLeaf = false) (state : StateId) (queue : Option ReuseQueue) :
      Response job c (.ofInput (job.nextInput
        { c.1 with stack := c.1.stack.push state c.2.subtree, queue }))
  | breakUp (hWhole : c.2.subtree.isLeaf = false) : Response job c (.ofInput (job.breakUp c.1 c.2))
  | accept : Response job c (.done true c.1.stack)

/-- What a step does in each of its cases. -/
theorem step_response (hKnown : job.Assured g m s lookahead) :
    job.Response (s, lookahead) (job.step s lookahead) := by
  have hToken : (∀ rule, job.tables.action s.stack.state (lookahead.subtree.leftmost 0).1.kind ≠ .reduce rule) →
      lookahead.subtree.isLeaf = true → job.Response (s, lookahead) (job.step s lookahead) :=
    fun hOther hLeaf => .token hLeaf (kind_leftmost_of_isLeaf hLeaf ▸ hOther)
      (step_effect_of_isLeaf hKnown hLeaf)
  cases hAction : job.tables.action s.stack.state (lookahead.subtree.leftmost 0).1.kind with
  | reduce rule =>
      obtain ⟨info, hRule, hStep⟩ := hKnown.reducible.step lookahead rule hAction
      obtain ⟨info', hSame, -, -, hReduced⟩ := hKnown.reducible.stack _ _ hAction
      obtain rfl := Option.some.inj (hRule.symm.trans hSame)
      rw [hStep]
      exact .reduce hAction hRule (hReduced _)
  | accept =>
      rw [step]
      simp only [hAction]
      exact .accept
  | shift state =>
      cases hLeaf : lookahead.subtree.isLeaf with
      | true => exact hToken (by simp [hAction]) hLeaf
      | false =>
          rw [step]
          simp only [hAction, hLeaf, Bool.false_eq_true, if_false, shiftSubtree]
          split
          · exact .reuse hLeaf _ _
          · exact .breakUp hLeaf
  | error =>
      cases hLeaf : lookahead.subtree.isLeaf with
      | true => exact hToken (by simp [hAction]) hLeaf
      | false =>
          rw [step]
          simp only [hAction, stuck, hLeaf, Bool.false_eq_true, if_false]
          exact .breakUp hLeaf

/-- The step reduces `pieces`, which start at `start`, to a node. Some of them may be hidden. -/
structure Makes (job : ParseJob) (c : Configuration) (start : Nat) (pieces : List Subtree)
    (node : Subtree) : Prop where
  rule : ∃ rule info,
    job.tables.action c.1.stack.state (c.2.subtree.leftmost 0).1.kind = .reduce rule
      ∧ job.tables.rules[rule]? = some info
      ∧ pieces = (c.1.stack.taken info).1 ∧ start = ParseStack.topStop (c.1.stack.taken info).2
      ∧ node = c.1.stack.closeError.reduced job.tables info c.seen

/-- The token in front is skipped without a decision of recovery: it is invalid by itself, or the stack
must not grow. So what has been reduced because of it does not get fragile. -/
structure Passes (job : ParseJob) (c d : Configuration) : Prop where
  leaf : c.2.subtree.isLeaf = true
  cause : job.isInvalid c.2.subtree.kind = true ∨ job.limits.maxHeight ≤ c.1.stack.height
  step : job.step c.1 c.2 = .next d.2 d.1
  skipped : d.swap = job.nextInput (job.skip c.1 [c.2.subtree])

/-- On the way from `c` to `d` the token in front of `c` is passed over. -/
def Loses (job : ParseJob) (c d : Configuration) : Prop :=
  ∃ e e', job.Reaches c e ∧ c.Shares e ∧ job.Passes e e' ∧ job.Reaches e' d

/-- What a step may do to the core of the stack. -/
inductive Turn (job : ParseJob) (c d : Configuration) : Prop
  /-- What is in front is pushed. -/
  | push (e : StackEntry) (top : List StackEntry) (hCore : d.1.stack.core = e :: (top ++ c.1.stack.core))
      (hShown : ∀ f ∈ e :: top, job.tables.isHidden f.subtree.kind = false)
      (hSeen : c.seen ≤ e.stop + e.subtree.lookahead)
      (hLevel : d.1.stack.decidedLevel = c.1.stack.decidedLevel)
  | reduce {rule : RuleId} {info : Production} (e : StackEntry)
      (hReduce : job.tables.action c.1.stack.state (c.2.subtree.leftmost 0).1.kind = .reduce rule)
      (hRule : job.tables.rules[rule]? = some info)
      (hNode : e.subtree = c.1.stack.closeError.reduced job.tables info c.seen)
      (hCore : d.1.stack.core = e :: (c.1.stack.taken info).2) (hShares : c.Shares d)
      (hLevel : d.1.stack.decidedLevel
        = min c.1.stack.decidedLevel (ParseStack.topLevel (c.1.stack.taken info).2))
  | keep (hCore : d.1.stack.core = c.1.stack.core) (h : c.Shares d ∨ job.Passes c d)
      (hLevel : d.1.stack.decidedLevel = c.1.stack.decidedLevel)
  /-- Recovery makes a decision. -/
  | decide (hCore : d.1.stack.core <:+ c.1.stack.core)
      (hDecided : ParseStack.topLevel d.1.stack.core ≤ d.1.stack.decidedLevel)

/-- What is in front of a parse has a property, with all that may still come up from a previous tree. -/
structure Upcoming (P : Subtree → Prop) (s : ParseState) : Prop where
  pending : ∀ u ∈ s.pending, All P u
  queue : ∀ q, s.queue = some q → ∀ u ∈ q.ahead, All P u

section Upcoming
variable {P : Subtree → Prop} {r : ParseState}

/-- What holds of tokens and of what is ahead still does after a move. -/
theorem Upcoming.move (hTokens : ∀ u, u.IsToken → P u) (h : Upcoming P s) (hMove : job.Move s r) :
    Upcoming P r := by
  have hNew : ∀ ts : List Subtree, (∀ u ∈ ts, u.IsToken) → ∀ u ∈ ts, All P u :=
    fun ts hAll u hMem => all_of_isLeaf (hAll u hMem).leaf (hTokens u (hAll u hMem))
  cases hMove with
  | note | reduce => exact ⟨h.pending, h.queue⟩
  | read => exact ⟨List.forall_mem_append.mpr ⟨h.pending, hNew _ (by simp [isToken_readAt])⟩, h.queue⟩
  | offer q t ts hPending hQueue hAhead =>
      refine ⟨by simpa using h.queue q hQueue t (by simp [hAhead]), fun p hSome => ?_⟩
      obtain rfl := Option.some.inj hSome
      exact all_behind (q.behind_of_offer t) (h.queue q hQueue)
  | advance q p hPending hQueue hBehind =>
      refine ⟨h.pending, fun p' hSome => ?_⟩
      obtain rfl := Option.some.inj hSome
      exact all_behind hBehind (h.queue q hQueue)
  | drop => exact ⟨by simp, h.queue⟩
  | insert ts nextSerial hPending hInserted =>
      refine ⟨List.forall_mem_append.mpr ⟨hNew _ fun u hMem => ?_, h.pending⟩, h.queue⟩
      obtain ⟨serial, terminal, -, rfl⟩ := hInserted u hMem
      exact ⟨rfl, rfl⟩
  | shift t ts next hPending | skip t ts hPending =>
      exact ⟨fun u hMem => h.pending u (by simp [hPending, hMem]), h.queue⟩
  | reuse t ts next hPending =>
      refine ⟨fun u hMem => h.pending u (by simp [hPending, hMem]), fun p hSome => ?_⟩
      obtain ⟨q, hQueue, rfl⟩ := Option.map_eq_some_iff.mp hSome
      exact all_behind (.pass (.refl q)) (h.queue q hQueue)
  | cut depth ts u us hPending =>
      exact ⟨fun v hMem => h.pending v (hPending ▸ List.mem_append_right ts hMem), h.queue⟩

end Upcoming

section Turn
variable {r : ParseState} {next : Lookahead} (hKnown : job.Assured g m s lookahead)
include hKnown

end Turn
end ParseJob

section
variable {language : Language} {g : Grammar} {m : Automaton} {job : ParseJob} {s r : ParseState}
  {lookahead next : Lookahead} (hFaithful : language.tables.Faithful g m) (hProper : g.Proper)
  (h : Arises language job s lookahead)
include hFaithful hProper h

end
end IncrementalParsing
