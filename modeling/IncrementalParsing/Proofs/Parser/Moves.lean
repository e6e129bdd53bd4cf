import IncrementalParsing.Parser.Run
import IncrementalParsing.Proofs.Subtree.Unwrap
import Mathlib.Logic.Relation

/-! What a parse can do. Every step, whatever it recovers from and wherever its input comes from,
is made of the few moves listed here, so a property of parses is shown for these moves once. -/
namespace IncrementalParsing
open Subtree

namespace ReuseQueue

/-- A subtree can be reused if it is clean, without damage, firm, and not empty. -/
theorem isReusable_iff (q : ReuseQueue) (start : Nat) (t : Subtree) : q.isReusable start t = true ↔
    q.isDirty start t = false ∧ t.hasError = false ∧ t.isFragile = false ∧ 0 < t.total := by
  simp [isReusable, and_assoc, Nat.pos_iff_ne_zero]

/-- The second queue has come further in the same trees. -/
inductive Behind : ReuseQueue → ReuseQueue → Prop
  | refl (q : ReuseQueue) : Behind q q
  | pass {q r : ReuseQueue} (hBehind : Behind q r) : Behind q r.pass
  | enter {q r : ReuseQueue} (hBehind : Behind q r) : Behind q r.enter

theorem Behind.trans {p q r : ReuseQueue} (hFirst : p.Behind q) (hSecond : q.Behind r) :
    p.Behind r := by
  induction hSecond with
  | refl => exact hFirst
  | pass _ ih => exact .pass ih
  | enter _ ih => exact .enter ih

theorem behind_of_offer (q : ReuseQueue) (t : Subtree) :
    q.Behind (if t.isLeaf then q.pass else q) := by
  split
  · exact .pass (.refl q)
  · exact .refl q

/-- A queue offers nothing but a reusable subtree that it has come to. -/
theorem offer_spec (q : ReuseQueue) (position : Nat) :
    q.Behind (q.offer position).2 ∧
      ∀ t, (q.offer position).1 = some t →
        (∃ ts, (q.offer position).2.ahead = t :: ts)
          ∧ (q.offer position).2.map (q.offer position).2.start = position
          ∧ (q.offer position).2.isReusable (q.offer position).2.start t = true := by
  induction hWeight : q.weight using Nat.strongRecOn generalizing q with
  | ind n hLess =>
      have hAfter : ∀ r : ReuseQueue, r.weight < n → q.Behind r →
          q.Behind (r.offer position).2 ∧
            ∀ t, (r.offer position).1 = some t →
              (∃ ts, (r.offer position).2.ahead = t :: ts)
                ∧ (r.offer position).2.map (r.offer position).2.start = position
                ∧ (r.offer position).2.isReusable (r.offer position).2.start t = true := by
        intro r hWeight hBehind
        obtain ⟨hRest, hOffer⟩ := hLess r.weight hWeight r rfl
        exact ⟨hBehind.trans hRest, hOffer⟩
      rw [offer]
      split
      · exact ⟨.refl q, by simp⟩
      · rename_i t ts hAhead
        have hPass := hAfter q.pass (hWeight ▸ weight_pass_lt hAhead) (.pass (.refl q))
        have hEnter := hAfter q.enter (hWeight ▸ weight_enter_lt hAhead) (.enter (.refl q))
        split
        · exact ⟨.refl q, by simp⟩
        · split
          · split
            · exact hPass
            · exact hEnter
          · split
            · rename_i hReusable
              refine ⟨.refl q, fun u hSome => ?_⟩
              obtain rfl : t = u := by simpa using hSome
              refine ⟨⟨ts, hAhead⟩, ?_, hReusable⟩
              change q.map q.start = position
              omega
            · exact hEnter

end ReuseQueue

/-- The state with its lookahead in front of the other input that has been read. -/
def ParseState.facing (s : ParseState) (lookahead : Lookahead) : ParseState :=
  { s with pending := lookahead.subtree :: s.pending }

namespace ParseJob

/-- The moves of a parse. Here the pending input of a state includes its lookahead. -/
inductive Move (job : ParseJob) : ParseState → ParseState → Prop
  /-- Recovery makes a decision. -/
  | note (s : ParseState) : Move job s { s with stack := s.stack.noteDecision }
  /-- One more token is read behind those that are pending. -/
  | read (s : ParseState) (hLeaves : ∀ t ∈ s.pending, t.isLeaf = true)
      (hLast : ∀ t ∈ s.pending.getLast?, t.kind ≠ endSymbol) :
      Move job s { s with
        stack := { s.stack with nextSerial := s.stack.nextSerial + 1 }
        pending := s.pending ++
          [job.readAt s.stack.nextSerial (s.stack.stop + width s.pending)] }
  /-- A subtree of the previous tree becomes the lookahead. The queue stays in front of a larger
  one. -/
  | offer (s : ParseState) (q : ReuseQueue) (t : Subtree) (ts : List Subtree)
      (hPending : s.pending = []) (hQueue : s.queue = some q) (hAhead : q.ahead = t :: ts)
      (hStart : q.map q.start = s.stack.stop) (hReusable : q.isReusable q.start t = true) :
      Move job s { s with pending := [t], queue := some (if t.isLeaf then q.pass else q) }
  /-- The queue moves on. -/
  | advance (s : ParseState) (q r : ReuseQueue) (hPending : s.pending = [])
      (hQueue : s.queue = some q) (hBehind : q.Behind r) : Move job s { s with queue := some r }
  /-- A subtree of the previous tree is given up. -/
  | drop (s : ParseState) (t : Subtree) (hPending : s.pending = [t]) (hLeaf : t.isLeaf = false) :
      Move job s { s with pending := [] }
  /-- Tokens are inserted. -/
  | insert (s : ParseState) (ts : List Subtree) (nextSerial : Nat)
      (hLeaves : ∀ t ∈ s.pending, t.isLeaf = true)
      (hInserted : ∀ t ∈ ts, ∃ serial, ∃ terminal ∈ job.tables.insertable,
        t = .inserted serial terminal)
      (hSerials : ts.map serial = List.range' s.stack.nextSerial ts.length)
      (hNext : nextSerial = s.stack.nextSerial + ts.length) :
      Move job s { s with stack := { s.stack with nextSerial }, pending := ts ++ s.pending }
  /-- A token is shifted. -/
  | shift (s : ParseState) (t : Subtree) (ts : List Subtree) (next : StateId)
      (hPending : s.pending = t :: ts) (hLeaf : t.isLeaf = true)
      (hShift : job.tables.action s.stack.state t.kind = .shift next) :
      Move job s { s with stack := s.stack.push next t, pending := ts }
  /-- A subtree of the previous tree is shifted in the state it was built in. -/
  | reuse (s : ParseState) (t : Subtree) (ts : List Subtree) (next : StateId)
      (hPending : s.pending = t :: ts) (hLeaf : t.isLeaf = false)
      (hState : t.info.state = some s.stack.state)
      (hGoto : job.tables.goto s.stack.state t.kind = some next) :
      Move job s
        { s with stack := s.stack.push next t, pending := ts, queue := s.queue.map (·.pass) }
  /-- The top of the stack is reduced, as what was read to tell the token in front decides. -/
  | reduce (s : ParseState) (t : Subtree) (ts : List Subtree) (rule : RuleId) (info : Production)
      (lookaheadStop : Nat) (hPending : s.pending = t :: ts)
      (hReduce : job.tables.action s.stack.state (t.leftmost 0).1.kind = .reduce rule)
      (hRule : job.tables.rules[rule]? = some info)
      (hSeen : lookaheadStop = s.stack.stop + (t.leftmost 0).2 + (t.leftmost 0).1.lookahead) :
      Move job s { s with stack := (s.stack.reduce job.tables info lookaheadStop).2 }
  /-- A token is skipped. -/
  | skip (s : ParseState) (t : Subtree) (ts : List Subtree) (hPending : s.pending = t :: ts)
      (hLeaf : t.isLeaf = true) (hKind : t.kind ≠ endSymbol) :
      Move job s { s with stack := s.stack.pushSkipped job.tables [t], pending := ts }
  /-- Entries are popped, and skipped together with some tokens. -/
  | cut (s : ParseState) (depth : Nat) (ts : List Subtree) (u : Subtree) (us : List Subtree)
      (hPending : s.pending = ts ++ u :: us) (hLeaves : ∀ t ∈ s.pending, t.isLeaf = true) :
      Move job s { s with
        stack :=
          let stack := (s.stack.pop depth).2.noteDecision
          if ((s.stack.pop depth).1 ++ ts).isEmpty then stack
          else stack.pushSkipped job.tables ((s.stack.pop depth).1 ++ ts)
        pending := u :: us }

/-- Any number of moves. -/
abbrev Moves (job : ParseJob) : ParseState → ParseState → Prop :=
  Relation.ReflTransGen job.Move

/-- How a parse ends: the input is accepted, or everything is skipped in front of its end. -/
inductive Outcome (job : ParseJob) (s : ParseState) : Bool → ParseStack → Prop
  | accepted (t : Subtree) (ts : List Subtree) (hPending : s.pending = t :: ts)
      (hAccept : job.tables.action s.stack.state (t.leftmost 0).1.kind = .accept) :
      Outcome job s true s.stack
  | abandoned (t : Subtree) (ts : List Subtree) (hPending : s.pending = t :: ts)
      (hLeaf : t.isLeaf = true) (hKind : t.kind = endSymbol) :
      Outcome job s false
        (if s.stack.popAll.1.isEmpty then s.stack.popAll.2
        else s.stack.popAll.2.pushSkipped job.tables s.stack.popAll.1)

/-- Only a lookahead can be a larger subtree, and then nothing behind it has been read. -/
structure Tidy (s : ParseState) (lookahead : Lookahead) : Prop where
  pending : ∀ t ∈ s.pending, t.isLeaf = true
  whole : lookahead.subtree.isLeaf = false → s.pending = [] ∧ lookahead.queued = true

/-- The first leaf of a leaf is the leaf itself. -/
theorem leftmost_of_isLeaf {t : Subtree} (hLeaf : t.isLeaf = true) (offset : Nat) :
    t.leftmost offset = (t.info, offset + t.total) := by
  obtain ⟨info, field, _ | ⟨c, cs⟩⟩ := t
  · rfl
  · simp [isLeaf, Subtree.children] at hLeaf

theorem kind_leftmost_of_isLeaf {t : Subtree} (hLeaf : t.isLeaf = true) :
    (t.leftmost 0).1.kind = t.kind := by
  rw [leftmost_of_isLeaf hLeaf]
  rfl

theorem isLeaf_inserted (serial : Nat) (kind : SymbolId) :
    (Subtree.inserted serial kind).isLeaf = true := rfl

/-- What is read is a token of some width, found by the lexer or an error, or the end of the input. -/
theorem readAt_cases (job : ParseJob) (serial position : Nat) :
    (∃ kind padding size lookahead, 0 < padding + size
        ∧ (kind = errorSymbol ∨ ∃ place token, job.lexer.next job.text place = some token
          ∧ token.kind = kind)
        ∧ job.readAt serial position = .leaf serial kind padding size lookahead (job.isInvalid kind))
      ∨ ∃ padding, job.readAt serial position = endLeaf serial padding := by
  simp only [readAt]
  split
  · rename_i token hNext
    split
    · rename_i hUsable
      refine .inl ⟨_, _, _, _, Nat.pos_of_ne_zero fun hNone => ?_, .inr ⟨_, token, hNext, rfl⟩, rfl⟩
      -- Only what is wider than nothing is wider than nothing when it wraps around.
      replace hNone : token.width = 0 := hNone
      rw [hNone, locate, Offset.wrap_of_le (Nat.zero_le _)] at hUsable
      exact Nat.lt_irrefl 0 hUsable.1
    · split
      · exact .inr ⟨0, rfl⟩
      · rename_i hInside
        exact .inl ⟨errorSymbol, 0, job.text.size - job.locate position, 0, by omega, .inl rfl,
          by simp [isInvalid]⟩
  · exact .inr ⟨_, rfl⟩

theorem isLeaf_readAt (job : ParseJob) (serial position : Nat) :
    (job.readAt serial position).isLeaf = true := by
  rcases job.readAt_cases serial position with ⟨_, _, _, _, -, -, hRead⟩ | ⟨_, hRead⟩ <;> rw [hRead] <;> rfl

theorem serial_readAt (job : ParseJob) (serial position : Nat) :
    (job.readAt serial position).serial = serial := by
  rcases job.readAt_cases serial position with ⟨_, _, _, _, -, -, hRead⟩ | ⟨_, hRead⟩ <;> rw [hRead] <;> rfl

theorem isMissing_readAt (job : ParseJob) (serial position : Nat) :
    (job.readAt serial position).isMissing = false := by
  rcases job.readAt_cases serial position with ⟨_, _, _, _, -, -, hRead⟩ | ⟨_, hRead⟩ <;> rw [hRead] <;> rfl

variable {job : ParseJob}

/-- Fetching input takes moves only, and leaves pieces the queue has passed behind it. -/
theorem nextInput_moves (s : ParseState) (hLeaves : ∀ t ∈ s.pending, t.isLeaf = true) :
    job.Moves s ((job.nextInput s).2.facing (job.nextInput s).1)
      ∧ Tidy (job.nextInput s).2 (job.nextInput s).1 := by
  have hRead : ∀ r : ParseState, r.pending = [] →
      job.Move r ((job.readToken r r.stack.stop).2.facing
          ⟨(job.readToken r r.stack.stop).1, false⟩)
        ∧ Tidy (job.readToken r r.stack.stop).2 ⟨(job.readToken r r.stack.stop).1, false⟩ := by
    intro r hNone
    have hMove := @Move.read job r (by simp [hNone]) (by simp [hNone])
    simp only [hNone, width_nil, List.nil_append, Nat.add_zero] at hMove
    refine ⟨?_, ?_, ?_⟩
    · simpa [ParseState.facing, readToken, hNone] using hMove
    · simp [readToken, hNone]
    · simp [readToken, isLeaf_readAt]
  unfold nextInput
  split
  · rename_i t pending hPending
    refine ⟨?_, ?_, ?_⟩
    · simp only [ParseState.facing, ← hPending]
      exact .refl
    · exact fun u hMem => hLeaves u (by simp [hPending, hMem])
    · intro hWhole
      simp [hLeaves t (by simp [hPending])] at hWhole
  · rename_i hPending
    dsimp only
    split
    · rename_i t queue hOffer
      obtain ⟨q, hQueue, hOffered⟩ : ∃ q, s.queue = some q
          ∧ q.offer s.stack.stop = (some t, queue) := by
        simpa using hOffer
      obtain ⟨hBehind, hSpec⟩ := q.offer_spec s.stack.stop
      rw [hOffered] at hBehind hSpec
      obtain ⟨⟨ts, hAhead⟩, hStart, hReusable⟩ := hSpec t rfl
      have hAdvance := @Move.advance job s q queue hPending hQueue hBehind
      have hTake := @Move.offer job { s with queue := some queue } queue t ts hPending rfl
        hAhead hStart hReusable
      split
      · rename_i hLeaf
        rw [if_pos hLeaf] at hTake
        refine ⟨?_, ?_, ?_⟩
        · simpa [ParseState.facing, hPending] using
            Relation.ReflTransGen.tail (.single hAdvance) hTake
        · simp [hPending]
        · simp [hLeaf]
      · rename_i hLeaf
        rw [if_neg hLeaf] at hTake
        refine ⟨?_, ?_, ?_⟩
        · simpa [ParseState.facing, hPending] using
            Relation.ReflTransGen.tail (.single hAdvance) hTake
        · simp [hPending]
        · simp [hPending]
    · rename_i queue hOffer
      obtain ⟨q, hQueue, hOffered⟩ : ∃ q, s.queue = some q
          ∧ q.offer s.stack.stop = (none, queue) := by
        simpa using hOffer
      have hBehind := (q.offer_spec s.stack.stop).1
      rw [hOffered] at hBehind
      have hAdvance := @Move.advance job s q queue hPending hQueue hBehind
      obtain ⟨hMove, hTidy⟩ := hRead { s with queue := some queue } hPending
      exact ⟨.tail (.single hAdvance) hMove, hTidy⟩
    · obtain ⟨hMove, hTidy⟩ := hRead s hPending
      exact ⟨.single hMove, hTidy⟩

/-- Tokens that are read one behind the other. -/
def ReadFrom (job : ParseJob) : (position : Nat) → List Subtree → Prop
  | _, [] => True
  | position, t :: ts =>
      (∃ serial, t = job.readAt serial position) ∧ job.ReadFrom (position + t.total) ts

theorem ReadFrom.isLeaf {position : Nat} {ts : List Subtree} (h : job.ReadFrom position ts) :
    ∀ t ∈ ts, t.isLeaf = true := by
  induction ts generalizing position with
  | nil => simp
  | cons t ts ih =>
      obtain ⟨⟨serial, rfl⟩, hRest⟩ := h
      intro u hMem
      rcases List.mem_cons.mp hMem with rfl | hMem
      · exact isLeaf_readAt _ _ _
      · exact ih hRest u hMem

/-- Tokens that are read ahead are put behind those that are known. -/
theorem readMore_moves (count : Nat) (s : ParseState) (known : List Subtree) (found : Array Subtree)
    (hLeaves : ∀ t ∈ known, t.isLeaf = true) (hLast : ∀ t ∈ known.getLast?, t.kind ≠ endSymbol) :
    ∃ new serial, job.ReadFrom (s.stack.stop + width known) new
      ∧ (job.readMore s (s.stack.stop + width known) found count).1.toList = found.toList ++ new
      ∧ (job.readMore s (s.stack.stop + width known) found count).2
          = { s with stack := { s.stack with nextSerial := serial } }
      ∧ job.Moves { s with pending := known }
          { s with stack := { s.stack with nextSerial := serial }, pending := known ++ new } := by
  induction count generalizing s known found with
  | zero =>
      refine ⟨[], s.stack.nextSerial, trivial, by simp [readMore], rfl, ?_⟩
      simpa using Relation.ReflTransGen.refl
  | succ count ih =>
      let t := job.readAt s.stack.nextSerial (s.stack.stop + width known)
      let after : ParseState :=
        { s with stack := { s.stack with nextSerial := s.stack.nextSerial + 1 } }
      have hMove : job.Move { s with pending := known } { after with pending := known ++ [t] } :=
        Move.read { s with pending := known } hLeaves hLast
      have hRead : job.readToken s (s.stack.stop + width known) = (t, after) := rfl
      rw [readMore, hRead]
      dsimp only
      split
      · exact ⟨[t], s.stack.nextSerial + 1, ⟨⟨_, rfl⟩, trivial⟩, by simp, rfl, .single hMove⟩
      · rename_i hKind
        have hPosition : s.stack.stop + width known + t.total
            = after.stack.stop + width (known ++ [t]) := by
          simp [after, ParseStack.stop, Nat.add_assoc]
        rw [hPosition]
        obtain ⟨new, serial, hNew, hFound, hAfter, hMoves⟩ :=
          ih after (known ++ [t]) (found.push t)
            (by simpa [or_imp, forall_and, t, isLeaf_readAt] using hLeaves) (by simpa using hKind)
        refine ⟨t :: new, serial, ⟨⟨_, rfl⟩, hPosition ▸ hNew⟩, ?_, hAfter, ?_⟩
        · rw [hFound]
          simp
        · simpa [after] using Relation.ReflTransGen.head hMove hMoves

theorem upToEnd_isPrefix (ts : List Subtree) : upToEnd ts <+: ts := by
  induction ts with
  | nil => exact List.prefix_rfl
  | cons t ts ih =>
      rw [upToEnd]
      split
      · exact ⟨ts, rfl⟩
      · exact (List.prefix_cons_inj t).mpr ih

/-- Looking past the lookahead reads tokens, and shows the first ones. -/
theorem lookPast_moves (s : ParseState) (lookahead : Lookahead) (hTidy : Tidy s lookahead)
    (hLeaf : lookahead.subtree.isLeaf = true) :
    ∃ new serial, job.ReadFrom (s.stack.stop + width (lookahead.subtree :: s.pending)) new
      ∧ (job.lookPast s lookahead.subtree).2
          = { s with stack := { s.stack with nextSerial := serial }, pending := s.pending ++ new }
      ∧ (job.lookPast s lookahead.subtree).1 <+: lookahead.subtree :: (s.pending ++ new)
      ∧ job.Moves (s.facing lookahead) ((job.lookPast s lookahead.subtree).2.facing lookahead) := by
  let limit := max job.limits.maxSkipped 1
  let known := lookahead.subtree :: s.pending.take limit
  let count :=
    if (known.getLast?.getD lookahead.subtree).kind == endSymbol then 0
    else limit + 1 - known.length
  let more := job.readMore s (s.stack.stop + width known) #[] count
  have hLook : job.lookPast s lookahead.subtree =
      (upToEnd (known ++ more.1.toList), { more.2 with pending := more.2.pending ++ more.1.toList }) :=
    rfl
  rw [hLook]
  by_cases hCount : count = 0
  · have hMore : more = (#[], s) := by simp only [more, hCount]; rfl
    rw [hMore]
    refine ⟨[], s.stack.nextSerial, trivial, rfl, ?_, ?_⟩
    · rw [List.append_nil, List.append_nil]
      exact (upToEnd_isPrefix _).trans
        ((List.prefix_cons_inj _).mpr (List.take_prefix limit s.pending))
    · simp only [List.append_nil]
      exact .refl
  · have hCond : ((known.getLast?.getD lookahead.subtree).kind == endSymbol) = false := by
      refine Bool.eq_false_iff.mpr fun hEnd => hCount ?_
      simp [count, hEnd]
    have hKnown : known = lookahead.subtree :: s.pending := by
      have hLength : count = limit + 1 - known.length := by simp [count, hCond]
      simp only [known, List.length_cons, List.length_take] at hLength
      exact congrArg (lookahead.subtree :: ·) (List.take_of_length_le (by omega))
    have hLast : ∀ t ∈ known.getLast?, t.kind ≠ endSymbol := by
      intro t hMem hKind
      simp [Option.mem_def.mp hMem, hKind] at hCond
    have hLeaves : ∀ t ∈ known, t.isLeaf = true := by
      rw [hKnown]
      exact List.forall_mem_cons.mpr ⟨hLeaf, hTidy.pending⟩
    obtain ⟨new, serial, hNew, hFound, hAfter, hMoves⟩ :=
      @readMore_moves job count s known #[] hLeaves hLast
    rw [hKnown] at hNew hMoves
    have hMore : more.1.toList = new := hFound
    replace hAfter : more.2 = { s with stack := { s.stack with nextSerial := serial } } := hAfter
    rw [hMore, hAfter, hKnown]
    exact ⟨new, serial, hNew, rfl, upToEnd_isPrefix _, hMoves⟩

end ParseJob

namespace ResumePoint

theorem mem_enqueue {p q : ResumePoint} {queue : List ResumePoint} :
    q ∈ enqueue p queue ↔ q = p ∨ q ∈ queue := by
  induction queue with
  | nil => simp [enqueue]
  | cons r queue ih =>
      rw [enqueue]
      split
      · simp
      · rw [List.mem_cons, ih, List.mem_cons]
        exact or_left_comm

/-- What stands in a queue after its first point has not been accepted skips no other number of tokens. -/
theorem skipped_of_mem_advance {popCosts : Array Nat} {p q : ResumePoint} {queue : List ResumePoint}
    (hMem : q ∈ advance popCosts p queue) : q.skipped = p.skipped ∨ q ∈ queue := by
  unfold advance at hMem
  split at hMem
  · rcases mem_enqueue.mp hMem with rfl | hMem
    · exact .inl rfl
    · exact .inr hMem
  · exact .inr hMem

/-- A search finds what is accepted, and skips only as many tokens as some point it starts from. -/
theorem searchM_spec {popCosts : Array Nat} {accept : Nat → Nat → Bool} {limit : Nat}
    {queue : List ResumePoint} {skipped popped : Nat}
    (hFound : Id.run (searchM popCosts (fun k d => pure (accept k d)) limit queue)
      = some (skipped, popped)) :
    accept skipped popped = true ∧ ∃ p ∈ queue, p.skipped = skipped := by
  induction limit generalizing queue with
  | zero => simp [searchM] at hFound
  | succ limit ih =>
      cases queue with
      | nil => simp [searchM] at hFound
      | cons p queue =>
          rw [searchM, pure_bind] at hFound
          split at hFound
          · rename_i hAccept
            obtain ⟨rfl, rfl⟩ : p.skipped = skipped ∧ p.popped = popped := by simpa using hFound
            exact ⟨hAccept, p, by simp⟩
          · obtain ⟨hAccept, q, hMem, hSkipped⟩ := ih hFound
            refine ⟨hAccept, ?_⟩
            rcases skipped_of_mem_advance hMem with hSame | hMem
            · exact ⟨p, by simp, hSame.symm.trans hSkipped⟩
            · exact ⟨q, by simp [hMem], hSkipped⟩

/-- A resume point that is found was accepted, and leaves a token to go on from. -/
theorem best?_spec {popCosts : Array Nat} {tokenCount : Nat} {accept : Nat → Nat → Bool}
    {skipped popped : Nat} (hFound : best? popCosts tokenCount accept = some (skipped, popped)) :
    accept skipped popped = true ∧ skipped < tokenCount := by
  unfold best? bestM at hFound
  split at hFound
  · simp at hFound
  · obtain ⟨hAccept, p, hMem, hSkipped⟩ := searchM_spec hFound
    obtain ⟨n, hLess, rfl⟩ : ∃ n, n < tokenCount ∧ priced n 0 _ = p := by
      simpa using hMem
    exact ⟨hAccept, by rw [← hSkipped]; exact hLess⟩

end ResumePoint

namespace Tables
variable {t : Tables}

theorem mem_bridge? {lookahead : SymbolId} {length : Nat} {states : List StateId}
    {found : List SymbolId} (hFound : t.bridge? lookahead length states = some found) :
    ∀ terminal ∈ found, terminal ∈ t.insertable := by
  induction length generalizing states found with
  | zero =>
      unfold bridge? at hFound
      split at hFound
      · obtain rfl : [] = found := by simpa using hFound
        simp
      · simp at hFound
  | succ length ih =>
      obtain ⟨first, hMem, hFirst⟩ := List.exists_of_findSome?_eq_some hFound
      split at hFirst
      · simp at hFirst
      · obtain ⟨rest, hRest, rfl⟩ := Option.map_eq_some_iff.mp hFirst
        intro terminal hTerminal
        rcases List.mem_cons.mp hTerminal with rfl | hTerminal
        · exact hMem
        · exact ih hRest terminal hTerminal

/-- What is inserted is no longer than allowed. -/
theorem exists_bridge? {lookahead : SymbolId} {maxLength : Nat} {states : List StateId}
    {found : List SymbolId} (hFound : t.bridgeOf? states lookahead maxLength = some found) :
    ∃ length, length ≤ maxLength ∧ t.bridge? lookahead length states = some found := by
  have hFrom : ∀ more length, t.bridgeFrom? lookahead states more length = some found →
      ∃ last, last < length + more ∧ t.bridge? lookahead last states = some found := by
    intro more
    induction more with
    | zero => simp [bridgeFrom?]
    | succ more ih =>
        intro length hFound
        unfold bridgeFrom? at hFound
        split at hFound
        · rename_i sequence hSequence
          obtain rfl : sequence = found := by simpa using hFound
          exact ⟨length, by omega, hSequence⟩
        · obtain ⟨last, hLast, hBridge⟩ := ih _ hFound
          exact ⟨last, by omega, hBridge⟩
  obtain ⟨length, hLength, hBridge⟩ := hFrom maxLength 1 hFound
  exact ⟨length, by omega, hBridge⟩

/-- Only terminals that may be inserted are part of a bridge. -/
theorem mem_bridgeOf? {lookahead : SymbolId} {maxLength : Nat} {states : List StateId}
    {found : List SymbolId} (hFound : t.bridgeOf? states lookahead maxLength = some found) :
    ∀ terminal ∈ found, terminal ∈ t.insertable := by
  obtain ⟨length, -, hBridge⟩ := exists_bridge? hFound
  exact mem_bridge? hBridge

end Tables

namespace ParseJob
variable {job : ParseJob}

/-- A step goes on with moves, or ends the parse after some. -/
def Leads (job : ParseJob) (s : ParseState) : ParseStep → Prop
  | .next lookahead r => job.Moves s (r.facing lookahead) ∧ Tidy r lookahead
  | .done accepted stack => ∃ r, job.Moves s r ∧ Outcome job r accepted stack

theorem Leads.of_moves {s r : ParseState} {next : ParseStep} (hMoves : job.Moves s r)
    (h : job.Leads r next) : job.Leads s next := by
  cases next with
  | next lookahead t => exact ⟨hMoves.trans h.1, h.2⟩
  | done accepted stack =>
      obtain ⟨t, hRest, hOutcome⟩ := h
      exact ⟨t, hMoves.trans hRest, hOutcome⟩

/-- Fetching input leads on by moves. -/
theorem leads_nextInput (s : ParseState) (hLeaves : ∀ t ∈ s.pending, t.isLeaf = true) :
    job.Leads s (.ofInput (job.nextInput s)) :=
  nextInput_moves s hLeaves

theorem leads_advance (s : ParseState) (hNone : s.pending = [])
    (advance : ReuseQueue → ReuseQueue) (hAdvance : ∀ q : ReuseQueue, q.Behind (advance q)) :
    job.Leads s (.ofInput (job.nextInput { s with queue := s.queue.map advance })) := by
  obtain ⟨stack, pending, queue⟩ := s
  obtain rfl : pending = [] := hNone
  cases queue with
  | none => exact leads_nextInput _ (by simp)
  | some q =>
      have hMove := @Move.advance job ⟨stack, [], some q⟩ q (advance q) rfl rfl (hAdvance q)
      exact .of_moves (.single hMove) (leads_nextInput _ (by simp))

/-- Skipping a token leads on by moves. -/
theorem leads_skipOne (s : ParseState) (lookahead : Lookahead)
    (hLeaves : ∀ t ∈ s.pending, t.isLeaf = true) (hLeaf : lookahead.subtree.isLeaf = true)
    (hKind : lookahead.subtree.kind ≠ endSymbol) :
    job.Leads (s.facing lookahead) (.ofRepair (job.skipOne s lookahead.subtree)) := by
  have hSkip : job.Move (s.facing lookahead) (job.skip s [lookahead.subtree]) :=
    Move.skip (s.facing lookahead) lookahead.subtree s.pending rfl hLeaf hKind
  exact .of_moves (.single hSkip) (leads_nextInput _ hLeaves)

/-- At the end of the text giving up leads to the root by moves. -/
theorem leads_giveUp (s : ParseState) (lookahead : Lookahead)
    (hLeaf : lookahead.subtree.isLeaf = true) (hKind : lookahead.subtree.kind = endSymbol) :
    job.Leads (s.facing lookahead) (.ofRepair (job.giveUp s)) := by
  have hStep : ParseStep.ofRepair (job.giveUp s) = .done false
      (if s.stack.popAll.1.isEmpty then s.stack.popAll.2
      else s.stack.popAll.2.pushSkipped job.tables s.stack.popAll.1) := by
    cases hNone : s.stack.popAll.1.isEmpty <;> simp [giveUp, ParseStep.ofRepair, hNone, skip]
  rw [hStep]
  exact ⟨_, .refl, .abandoned lookahead.subtree s.pending rfl hLeaf hKind⟩

/-- Inserting what is missing leads on by moves, if all of it can be inserted. -/
theorem leads_insertMissing (s : ParseState) (lookahead : Lookahead)
    (hTidy : Tidy s lookahead) (hLeaf : lookahead.subtree.isLeaf = true) (first : SymbolId)
    (rest : List SymbolId) (hInsertable : ∀ k ∈ first :: rest, k ∈ job.tables.insertable) :
    job.Leads (s.facing lookahead) (.ofRepair (insertMissing s first rest lookahead.subtree)) := by
  let serial := s.stack.nextSerial
  let inserted := rest.zipIdx.map fun entry => Subtree.inserted (serial + 1 + entry.2) entry.1
  have hInserted : ∀ t ∈ inserted, ∃ serial, ∃ terminal ∈ job.tables.insertable,
      t = .inserted serial terminal := by
    intro t hMem
    obtain ⟨⟨terminal, i⟩, hEntry, rfl⟩ := List.mem_map.mp hMem
    exact ⟨_, terminal, hInsertable terminal (by simp [List.fst_mem_of_mem_zipIdx hEntry]), rfl⟩
  have hLength : serial + 1 + rest.length
      = serial + (Subtree.inserted serial first :: inserted).length := by
    simp [inserted, Nat.add_right_comm, Nat.add_assoc]
  have hSerials : (Subtree.inserted serial first :: inserted).map Subtree.serial
      = List.range' serial (Subtree.inserted serial first :: inserted).length := by
    have hRest : inserted.map Subtree.serial = (List.range' 0 rest.length).map (serial + 1 + ·) := by
      rw [← List.zipIdx_map_snd, List.map_map, List.map_map]
      rfl
    rw [List.map_cons, hRest, List.map_add_range', List.length_cons, List.range'_succ]
    simp [inserted]
    rfl
  refine ⟨?_, ?_, ?_⟩
  · refine .tail (.single (Move.note (s.facing lookahead))) ?_
    exact Move.insert { s.facing lookahead with stack := s.stack.noteDecision }
      (.inserted serial first :: inserted) (serial + 1 + rest.length)
      (List.forall_mem_cons.mpr ⟨hLeaf, hTidy.pending⟩)
      (List.forall_mem_cons.mpr ⟨⟨serial, first, hInsertable first (by simp), rfl⟩, hInserted⟩)
      hSerials hLength
  · intro t hMem
    rcases List.mem_append.mp hMem with hMem | hMem
    · obtain ⟨serial, terminal, -, rfl⟩ := hInserted t hMem
      rfl
    · rcases List.mem_cons.mp hMem with rfl | hMem
      · exact hLeaf
      · exact hTidy.pending t hMem
  · simp [isLeaf_inserted]

/-- Recovery goes on at one of the tokens that it has seen. -/
theorem ofRepair_resumeAt (s : ParseState) (lookahead : Lookahead) (tokens : List Subtree)
    (skipped popped : Nat) (hTokens : tokens <+: lookahead.subtree :: s.pending)
    (hSkipped : skipped < tokens.length) :
    ∃ u us, tokens[skipped]? = some u
      ∧ tokens.take skipped ++ u :: us = lookahead.subtree :: s.pending
      ∧ ParseStep.ofRepair (job.resumeAt s tokens skipped popped) = .next ⟨u, false⟩ { s with
          stack :=
            let stack := (s.stack.pop popped).2.noteDecision
            if ((s.stack.pop popped).1 ++ tokens.take skipped).isEmpty then stack
            else stack.pushSkipped job.tables ((s.stack.pop popped).1 ++ tokens.take skipped)
          pending := us } := by
  obtain ⟨rest, hRest⟩ := hTokens
  have hNext : (if skipped = 0 then (tokens.head?, s.pending)
      else (s.pending[skipped - 1]?, s.pending.drop skipped))
      = (some tokens[skipped], tokens.drop (skipped + 1) ++ rest) := by
    cases tokens with
    | nil => simp at hSkipped
    | cons t ts =>
        obtain ⟨rfl, hPending⟩ : t = lookahead.subtree ∧ ts ++ rest = s.pending := by
          simpa using hRest
        cases skipped with
        | zero => simp [hPending]
        | succ skipped =>
            have hLess : skipped < ts.length := by simpa using hSkipped
            rw [if_neg (by omega), ← hPending]
            simp [List.getElem?_append_left hLess, List.getElem?_eq_getElem hLess,
              List.drop_append_of_le_length hLess]
  refine ⟨tokens[skipped], tokens.drop (skipped + 1) ++ rest, List.getElem?_eq_getElem hSkipped, ?_, ?_⟩
  · rw [← hRest, ← List.cons_append, ← List.append_assoc, List.getElem_cons_drop,
      List.take_append_drop]
  · simp only [resumeAt, hNext, skip]
    split <;> rfl

/-- Resuming further on leads there by moves. -/
theorem leads_resumeAt (s : ParseState) (lookahead : Lookahead) (hTidy : Tidy s lookahead)
    (hLeaf : lookahead.subtree.isLeaf = true) (tokens : List Subtree) (skipped popped : Nat)
    (hTokens : tokens <+: lookahead.subtree :: s.pending) (hSkipped : skipped < tokens.length) :
    job.Leads (s.facing lookahead) (.ofRepair (job.resumeAt s tokens skipped popped)) := by
  obtain ⟨u, us, -, hSplit, hStep⟩ :=
    @ofRepair_resumeAt job s lookahead tokens skipped popped hTokens hSkipped
  have hLeaves : ∀ t ∈ u :: us, t.isLeaf = true := by
    intro t hMem
    have hAhead : t ∈ lookahead.subtree :: s.pending := hSplit ▸ List.mem_append_right _ hMem
    rcases List.mem_cons.mp hAhead with rfl | hMem
    · exact hLeaf
    · exact hTidy.pending t hMem
  have hCut := @Move.cut job (s.facing lookahead) popped (tokens.take skipped) u us
    hSplit.symm (List.forall_mem_cons.mpr ⟨hLeaf, hTidy.pending⟩)
  rw [hStep]
  refine ⟨.single hCut, ?_, ?_⟩
  · exact fun t hRest => hLeaves t (by simp [hRest])
  · simp [hLeaves u (by simp)]

/-- Looking past the lookahead is part of a step that goes on from there. -/
theorem leads_lookPast (s : ParseState) (lookahead : Lookahead) (hTidy : Tidy s lookahead)
    (hLeaf : lookahead.subtree.isLeaf = true) {next : ParseStep}
    (h : Tidy (job.lookPast s lookahead.subtree).2 lookahead →
      (job.lookPast s lookahead.subtree).1
        <+: lookahead.subtree :: (job.lookPast s lookahead.subtree).2.pending →
      job.Leads ((job.lookPast s lookahead.subtree).2.facing lookahead) next) :
    job.Leads (s.facing lookahead) next := by
  obtain ⟨new, serial, hNew, hLook, hTokens, hMoves⟩ := @lookPast_moves job s lookahead hTidy hLeaf
  have hLeaves : ∀ t ∈ (job.lookPast s lookahead.subtree).2.pending, t.isLeaf = true := by
    intro t hMem
    rw [hLook] at hMem
    rcases List.mem_append.mp hMem with hMem | hMem
    · exact hTidy.pending t hMem
    · exact hNew.isLeaf t hMem
  have hPrefix : (job.lookPast s lookahead.subtree).1
      <+: lookahead.subtree :: (job.lookPast s lookahead.subtree).2.pending := by
    rw [hLook]
    exact hTokens
  exact .of_moves hMoves (h ⟨hLeaves, by simp [hLeaf]⟩ hPrefix)

-- The goals below hold whole recoveries, which nothing is to evaluate.
attribute [local irreducible] Leads in
/-- Whatever the repair is, it leads on by moves. -/
theorem leads_repair (s : ParseState) (lookahead : Lookahead) (hTidy : Tidy s lookahead)
    (hLeaf : lookahead.subtree.isLeaf = true) :
    job.Leads (s.facing lookahead) (.ofRepair (job.repair s lookahead.subtree)) := by
  unfold repair
  dsimp only
  split
  · rename_i hInvalid
    refine leads_skipOne s lookahead hTidy.pending hLeaf ?_
    simp only [Bool.and_eq_true, Bool.not_eq_true', beq_eq_false_iff_ne] at hInvalid
    exact hInvalid.1
  · split
    · rename_i first rest hBridge
      exact leads_insertMissing s lookahead hTidy hLeaf first rest (Tables.mem_bridgeOf? hBridge)
    · refine leads_lookPast s lookahead hTidy hLeaf fun hAfter hPrefix => ?_
      split
      · rename_i skipped popped hPoint
        exact leads_resumeAt _ lookahead hAfter hLeaf _ _ _ hPrefix
          (ResumePoint.best?_spec hPoint).2
      · split
        · rename_i hEnd
          exact leads_giveUp _ lookahead hLeaf (by simpa using hEnd)
        · rename_i hEnd
          refine .of_moves (.single (.note _)) ?_
          exact leads_skipOne { (job.lookPast s lookahead.subtree).2 with
            stack := (job.lookPast s lookahead.subtree).2.stack.noteDecision }
            lookahead hAfter.pending hLeaf (by simpa using hEnd)

/-- Breaking up a subtree leads on by moves. -/
theorem leads_breakUp (s : ParseState) (lookahead : Lookahead) (hTidy : Tidy s lookahead)
    (hLeaf : lookahead.subtree.isLeaf = false) :
    job.Leads (s.facing lookahead) (.ofInput (job.breakUp s lookahead)) := by
  have hNone := (hTidy.whole hLeaf).1
  have hDrop : job.Move (s.facing lookahead) { s with pending := [] } :=
    Move.drop (s.facing lookahead) lookahead.subtree (by simp [ParseState.facing, hNone]) hLeaf
  have hSame : { s with pending := [] } = s := by rw [← hNone]
  rw [hSame] at hDrop
  refine .of_moves (.single hDrop) ?_
  unfold breakUp
  split
  · exact leads_advance s hNone ReuseQueue.enter fun q => .enter (.refl q)
  · exact leads_nextInput s hTidy.pending

/-- Without an action for its lookahead a parser leads on by moves. -/
theorem leads_stuck (s : ParseState) (lookahead : Lookahead) (hTidy : Tidy s lookahead) :
    job.Leads (s.facing lookahead) (job.stuck s lookahead) := by
  unfold stuck
  split
  · rename_i hLeaf
    exact leads_repair s lookahead hTidy hLeaf
  · rename_i hLeaf
    exact leads_breakUp s lookahead hTidy (by simpa using hLeaf)

/-- Shifting a token leads on by moves. -/
theorem leads_shiftToken (s : ParseState) (lookahead : Lookahead) (hTidy : Tidy s lookahead)
    (hLeaf : lookahead.subtree.isLeaf = true) {next : StateId}
    (hShift : job.tables.action s.stack.state lookahead.subtree.kind = .shift next)
    (hEnd : lookahead.subtree.kind ≠ endSymbol) :
    job.Leads (s.facing lookahead) (job.shiftToken s next lookahead.subtree) := by
  unfold shiftToken
  split
  · have hSkip := @Move.skip job (s.facing lookahead) lookahead.subtree s.pending rfl hLeaf hEnd
    exact .of_moves (.single hSkip) (leads_nextInput _ hTidy.pending)
  · have hMove := @Move.shift job (s.facing lookahead) lookahead.subtree s.pending next rfl
      hLeaf hShift
    exact .of_moves (.single hMove) (leads_nextInput _ hTidy.pending)

/-- Shifting a whole subtree leads on by moves. -/
theorem leads_shiftSubtree (s : ParseState) (lookahead : Lookahead) (hTidy : Tidy s lookahead)
    (hLeaf : lookahead.subtree.isLeaf = false) :
    job.Leads (s.facing lookahead) (job.shiftSubtree s lookahead) := by
  unfold shiftSubtree
  split
  · rename_i next hTarget
    unfold reuseTarget? at hTarget
    split at hTarget
    · rename_i hState
      have hMove := @Move.reuse job (s.facing lookahead) lookahead.subtree s.pending next rfl
        hLeaf hState.1 hTarget
      rw [(hTidy.whole hLeaf).2, if_pos rfl]
      exact .of_moves (.single hMove) (leads_nextInput _ hTidy.pending)
    · simp at hTarget
  · exact leads_breakUp s lookahead hTidy hLeaf

/-- The tables never shift the end of the input. -/
def StopsAtEnd (job : ParseJob) : Prop :=
  ∀ state next, job.tables.action state endSymbol ≠ .shift next

/-- Every step is made of moves, but that tables which shift the end of the input let it be skipped
as well. -/
theorem leads_step_or_skip (s : ParseState) (lookahead : Lookahead) (hTidy : Tidy s lookahead) :
    job.Leads (s.facing lookahead) (job.step s lookahead)
      ∨ (∃ next, job.tables.action s.stack.state endSymbol = .shift next)
        ∧ lookahead.subtree.isLeaf = true
        ∧ job.Leads (job.skip s [lookahead.subtree]) (job.step s lookahead) := by
  unfold step
  dsimp only
  split
  · rename_i next hShift
    split
    · rename_i hLeaf
      rw [leftmost_of_isLeaf hLeaf] at hShift
      by_cases hEnd : lookahead.subtree.kind = endSymbol
      · unfold shiftToken
        split
        · exact .inr ⟨⟨next, hEnd ▸ hShift⟩, hLeaf, leads_nextInput _ hTidy.pending⟩
        · have hMove := @Move.shift job (s.facing lookahead) lookahead.subtree s.pending next rfl
            hLeaf hShift
          exact .inl (.of_moves (.single hMove) (leads_nextInput _ hTidy.pending))
      · exact .inl (leads_shiftToken s lookahead hTidy hLeaf hShift hEnd)
    · rename_i hLeaf
      exact .inl (leads_shiftSubtree s lookahead hTidy (by simpa using hLeaf))
  · rename_i rule hReduce
    refine .inl ?_
    unfold reduceBy
    split
    · exact leads_stuck s lookahead hTidy
    · rename_i info hRule
      have hMove := @Move.reduce job (s.facing lookahead) lookahead.subtree s.pending rule
        info (s.stack.stop + (lookahead.subtree.leftmost 0).2 + (lookahead.subtree.leftmost 0).1.lookahead)
        rfl hReduce hRule rfl
      have hAfter : Tidy { s with stack := (s.stack.reduce job.tables info (s.stack.stop
          + (lookahead.subtree.leftmost 0).2 + (lookahead.subtree.leftmost 0).1.lookahead)).2 }
          lookahead := ⟨hTidy.pending, hTidy.whole⟩
      dsimp only
      split
      · exact ⟨.single hMove, hAfter⟩
      · exact .of_moves (.single hMove) (leads_stuck _ lookahead hAfter)
  · rename_i hAccept
    exact .inl ⟨_, .refl, .accepted lookahead.subtree s.pending rfl hAccept⟩
  · exact .inl (leads_stuck s lookahead hTidy)

/-- Every step is made of moves. -/
theorem leads_step (hStops : job.StopsAtEnd) (s : ParseState) (lookahead : Lookahead)
    (hTidy : Tidy s lookahead) : job.Leads (s.facing lookahead) (job.step s lookahead) :=
  (leads_step_or_skip s lookahead hTidy).resolve_right
    fun ⟨⟨next, hShift⟩, _⟩ => hStops s.stack.state next hShift

/-- A whole run is made of moves. -/
theorem run_moves (hStops : job.StopsAtEnd) (limit : Nat) (s : ParseState) (lookahead : Lookahead)
    (hTidy : Tidy s lookahead) {accepted : Bool} {stack : ParseStack}
    (hRun : job.run limit s lookahead = some (accepted, stack)) :
    ∃ r, job.Moves (s.facing lookahead) r ∧ Outcome job r accepted stack := by
  induction limit generalizing s lookahead with
  | zero => simp [run] at hRun
  | succ limit ih =>
      have hStep := leads_step hStops s lookahead hTidy
      rw [run] at hRun
      split at hRun
      · rename_i next r hNext
        rw [hNext] at hStep
        obtain ⟨hMoves, hTidy'⟩ := hStep
        obtain ⟨u, hRest, hOutcome⟩ := ih r next hTidy' hRun
        exact ⟨u, hMoves.trans hRest, hOutcome⟩
      · rename_i hDone
        rw [hDone] at hStep
        obtain ⟨rfl, rfl⟩ : _ = accepted ∧ _ = stack := by simpa using hRun
        exact hStep

/-- What one move keeps, any number of them keep. -/
theorem keep_of_moves {P : ParseState → Prop} (hMove : ∀ {s r}, job.Move s r → P s → P r)
    {s r : ParseState} (hMoves : job.Moves s r) (h : P s) : P r := by
  induction hMoves with
  | refl => exact h
  | tail _ hLast ih => exact hMove hLast ih

/-- What moves keep, and skipping a token keeps, holds at the end of a run, whatever the tables. -/
theorem run_keeps {P : ParseState → Prop} (hMove : ∀ {s r}, job.Move s r → P s → P r)
    (hSkip : ∀ {s : ParseState} {lookahead : Lookahead}, lookahead.subtree.isLeaf = true →
      P (s.facing lookahead) → P (job.skip s [lookahead.subtree]))
    (limit : Nat) (s : ParseState) (lookahead : Lookahead) (hTidy : Tidy s lookahead)
    (h : P (s.facing lookahead)) {accepted : Bool} {stack : ParseStack}
    (hRun : job.run limit s lookahead = some (accepted, stack)) :
    ∃ r, P r ∧ Outcome job r accepted stack := by
  induction limit generalizing s lookahead with
  | zero => simp [run] at hRun
  | succ limit ih =>
      obtain ⟨before, hBefore, hStep⟩ : ∃ r, P r ∧ job.Leads r (job.step s lookahead) := by
        rcases leads_step_or_skip s lookahead hTidy with hStep | ⟨-, hLeaf, hStep⟩
        · exact ⟨_, h, hStep⟩
        · exact ⟨_, hSkip hLeaf h, hStep⟩
      rw [run] at hRun
      split at hRun
      · rename_i next r hNext
        rw [hNext] at hStep
        exact ih r next hStep.2 (keep_of_moves hMove hStep.1 hBefore) hRun
      · rename_i hDone
        rw [hDone] at hStep
        obtain ⟨rfl, rfl⟩ : _ = accepted ∧ _ = stack := by simpa using hRun
        obtain ⟨r, hRest, hOutcome⟩ := hStep
        exact ⟨r, keep_of_moves hMove hRest hBefore, hOutcome⟩

/-- Whether a parse accepts its input, if it comes to an end within `limit` steps. -/
def verdict? (job : ParseJob) (limit : Nat) (queue : Option ReuseQueue) (nextSerial : Nat) :
    Option Bool :=
  let (lookahead, s) := job.nextInput (start queue nextSerial)
  (job.run limit s lookahead).map (·.1)

theorem exists_verdict? {limit : Nat} {queue : Option ReuseQueue} {nextSerial : Nat}
    {made : Subtree × Nat} (hParse : job.parseWithin limit queue nextSerial = some made) :
    ∃ accepted, job.verdict? limit queue nextSerial = some accepted := by
  obtain ⟨⟨accepted, stack⟩, hRun, -⟩ := Option.map_eq_some_iff.mp hParse
  exact ⟨accepted, Option.map_eq_some_iff.mpr ⟨_, hRun, rfl⟩⟩

/-- A parse makes its root from the stack that moves have led to. -/
theorem parseWithin_moves (hStops : job.StopsAtEnd) {limit : Nat} {queue : Option ReuseQueue}
    {nextSerial : Nat} {made : Subtree × Nat}
    (hParse : job.parseWithin limit queue nextSerial = some made) :
    ∃ r accepted stack, job.verdict? limit queue nextSerial = some accepted
      ∧ job.Moves (start queue nextSerial) r ∧ Outcome job r accepted stack
      ∧ made = stack.toRoot job.tables job.text.size accepted := by
  obtain ⟨hMoves, hTidy⟩ := @nextInput_moves job (start queue nextSerial) (by simp [start])
  obtain ⟨⟨accepted, stack⟩, hRun, rfl⟩ := Option.map_eq_some_iff.mp hParse
  obtain ⟨r, hRest, hOutcome⟩ := run_moves hStops limit _ _ hTidy hRun
  exact ⟨r, accepted, stack, Option.map_eq_some_iff.mpr ⟨_, hRun, rfl⟩, hMoves.trans hRest, hOutcome,
    rfl⟩

/-- The root of a parse is made from a stack that keeps what moves and skipping keep. -/
theorem parseWithin_keeps {P : ParseState → Prop} (hMove : ∀ {s r}, job.Move s r → P s → P r)
    (hSkip : ∀ {s : ParseState} {lookahead : Lookahead}, lookahead.subtree.isLeaf = true →
      P (s.facing lookahead) → P (job.skip s [lookahead.subtree]))
    {limit : Nat} {queue : Option ReuseQueue} {nextSerial : Nat} (hStart : P (start queue nextSerial))
    {made : Subtree × Nat} (hParse : job.parseWithin limit queue nextSerial = some made) :
    ∃ r accepted stack, P r ∧ Outcome job r accepted stack
      ∧ made = stack.toRoot job.tables job.text.size accepted := by
  obtain ⟨hMoves, hTidy⟩ := @nextInput_moves job (start queue nextSerial) (by simp [start])
  obtain ⟨⟨accepted, stack⟩, hRun, rfl⟩ := Option.map_eq_some_iff.mp hParse
  obtain ⟨r, hKept, hOutcome⟩ := run_keeps hMove hSkip limit _ _ hTidy (keep_of_moves hMove hMoves hStart) hRun
  exact ⟨r, accepted, stack, hKept, hOutcome, rfl⟩

end ParseJob
end IncrementalParsing
