import IncrementalParsing.Proofs.Letters.Language
import IncrementalParsing.Proofs.Parser.Arising
import Mathlib.Data.Prod.Lex
import Mathlib.Algebra.BigOperators.Group.List.Basic

/-! Where recovery goes on. The search for a resume point looks at the pairs of a number of skipped
tokens and a number of popped entries in the order of their costs, at each of them once. So what it
finds is the first of all pairs that are accepted. This is so as long as the costs can be counted, and a pair
is only accepted if a trial comes to an end, as a language of letters shows. -/
namespace IncrementalParsing

namespace ResumePoint
variable {popCosts : Array Nat} {p q : ResumePoint} {queue : List ResumePoint} {tokenCount limit : Nat}

/-- The place of a point in the order of all points. -/
def rank (p : ResumePoint) : ℕ ×ₗ ℕ ×ₗ ℕ := toLex (p.cost, toLex (p.skipped, p.popped))

/-- One point is tried before another if it ranks lower. -/
theorem before_iff : p.before q = true ↔ p.rank < q.rank := by
  simp [before, rank, Prod.Lex.toLex_lt_toLex]

/-- A point that is put in a queue is in it, with the others. -/
theorem enqueue_perm (p : ResumePoint) (queue : List ResumePoint) :
    (enqueue p queue).Perm (p :: queue) := by
  induction queue with
  | nil => exact .refl _
  | cons q queue ih =>
      rw [enqueue]
      split
      · exact .refl _
      · exact (ih.cons q).trans (.swap p q queue)

/-- It is put where its rank says. -/
theorem enqueue_ordered (hOrdered : queue.Pairwise (rank · < rank ·))
    (hApart : ∀ q ∈ queue, q.rank ≠ p.rank) : (enqueue p queue).Pairwise (rank · < rank ·) := by
  induction queue with
  | nil => simp [enqueue]
  | cons q queue ih =>
      obtain ⟨hFirst, hRest⟩ := List.pairwise_cons.mp hOrdered
      rw [enqueue]
      split
      · rename_i hBefore
        have hLess : p.rank < q.rank := before_iff.mp hBefore
        refine List.pairwise_cons.mpr ⟨fun r hMem => ?_, hOrdered⟩
        rcases List.mem_cons.mp hMem with rfl | hMem
        · exact hLess
        · exact hLess.trans (hFirst r hMem)
      · rename_i hBehind
        have hLess : q.rank < p.rank :=
          lt_of_le_of_ne (not_lt.mp fun h => hBehind (before_iff.mpr h)) (hApart q (by simp))
        refine List.pairwise_cons.mpr ⟨fun r hMem => ?_, ih hRest fun r hMem => hApart r (by simp [hMem])⟩
        rcases mem_enqueue.mp hMem with rfl | hMem
        · exact hLess
        · exact hFirst r hMem

/-- The point of a pair in a search with these costs. -/
def pointAt (popCosts : Array Nat) (skipped popped : Nat) : ResumePoint :=
  priced skipped popped (popCosts.getD popped 0)

/-- A point that a search for this many tokens can come to. -/
structure Possible (popCosts : Array Nat) (tokenCount : Nat) (p : ResumePoint) : Prop where
  skipped : p.skipped < tokenCount
  popped : p.popped < popCosts.size
  eq : p = pointAt popCosts p.skipped p.popped

/-- A line of points goes on by one more entry that is popped, until there is none left. -/
theorem advance_eq (popCosts : Array Nat) (p : ResumePoint) (queue : List ResumePoint) :
    advance popCosts p queue = if p.popped + 1 < popCosts.size then
      enqueue (pointAt popCosts p.skipped (p.popped + 1)) queue else queue := by
  by_cases hMore : p.popped + 1 < popCosts.size
  · simp [advance, pointAt, hMore, Array.getD]
  · simp [advance, hMore]

/-- The points that are taken from the queue, in their order, if none is accepted. -/
def visits (popCosts : Array Nat) : (limit : Nat) → List ResumePoint → List ResumePoint
  | 0, _ => []
  | _ + 1, [] => []
  | limit + 1, p :: queue => p :: visits popCosts limit (advance popCosts p queue)

/-- What is skipped and popped. -/
def pair (p : ResumePoint) : Nat × Nat := (p.skipped, p.popped)

/-- A search tests the points that it visits, one after the other, until one is accepted. -/
theorem searchM_eq_findM? {m : Type → Type} [Monad m] [LawfulMonad m] (test : Nat → Nat → m Bool)
    (limit : Nat) (queue : List ResumePoint) :
    searchM popCosts test limit queue =
      Option.map pair <$> (visits popCosts limit queue).findM? fun p => test p.skipped p.popped := by
  induction limit generalizing queue with
  | zero => simp [searchM, visits, List.findM?]
  | succ limit ih =>
      cases queue with
      | nil => simp [searchM, visits, List.findM?]
      | cons p queue =>
          rw [searchM, visits, List.findM?, map_bind]
          congr 1
          funext accepted
          cases accepted with
          | true => simp [pair]
          | false => simpa using ih _

/-! ### What a search visits -/

/-- A queue in the middle of a search. -/
structure Frontier (popCosts : Array Nat) (tokenCount : Nat) (queue : List ResumePoint) : Prop where
  possible : ∀ p ∈ queue, Possible popCosts tokenCount p
  /-- There is one point for each number of skipped tokens. -/
  apart : (queue.map skipped).Nodup

/-- The points that are still to be visited for the points of a queue. -/
def remaining (popCosts : Array Nat) (queue : List ResumePoint) : Nat :=
  (queue.map fun p => popCosts.size - p.popped).sum

theorem Frontier.notMem (h : Frontier popCosts tokenCount (p :: queue)) (hMem : q ∈ queue) :
    q.skipped ≠ p.skipped := by
  intro hSame
  have hApart : p.skipped ∉ queue.map skipped := (List.nodup_cons.mp (by simpa using h.apart)).1
  exact hApart (List.mem_map.mpr ⟨q, hMem, hSame⟩)

/-- A frontier stays one when its first point is replaced by the next of its line. -/
theorem Frontier.advance (h : Frontier popCosts tokenCount (p :: queue)) :
    Frontier popCosts tokenCount (advance popCosts p queue) := by
  obtain ⟨hFirst, hRest⟩ := List.forall_mem_cons.mp h.possible
  have hApart : p.skipped ∉ queue.map ResumePoint.skipped ∧ (queue.map ResumePoint.skipped).Nodup := by
    simpa using h.apart
  rw [advance_eq]
  split
  · rename_i hMore
    refine ⟨fun q hMem => ?_, ?_⟩
    · rcases mem_enqueue.mp hMem with rfl | hMem
      · exact ⟨hFirst.skipped, hMore, rfl⟩
      · exact hRest q hMem
    · exact ((enqueue_perm _ queue).map ResumePoint.skipped).nodup_iff.mpr (List.nodup_cons.mpr hApart)
  · exact ⟨hRest, hApart.2⟩

theorem remaining_cons (popCosts : Array Nat) (p : ResumePoint) (queue : List ResumePoint) :
    remaining popCosts (p :: queue) = popCosts.size - p.popped + remaining popCosts queue :=
  List.sum_cons

theorem remaining_enqueue (popCosts : Array Nat) (p : ResumePoint) (queue : List ResumePoint) :
    remaining popCosts (enqueue p queue) = popCosts.size - p.popped + remaining popCosts queue := by
  rw [← remaining_cons]
  exact ((enqueue_perm p queue).map _).sum_eq

/-- Then one point less is to come. -/
theorem remaining_advance (h : Frontier popCosts tokenCount (p :: queue)) :
    remaining popCosts (advance popCosts p queue) + 1 = remaining popCosts (p :: queue) := by
  have hPopped := (h.possible p (by simp)).popped
  rw [remaining_cons, advance_eq]
  split
  · rw [remaining_enqueue]
    simp only [pointAt, priced]
    omega
  · omega

/-- The points that are reached from a queue by popping more. -/
def Reached (popCosts : Array Nat) (tokenCount : Nat) (queue : List ResumePoint) (p : ResumePoint) :
    Prop :=
  Possible popCosts tokenCount p ∧ ∃ q ∈ queue, q.skipped = p.skipped ∧ q.popped ≤ p.popped

/-- What is reached after the first point pops more than that, or it skips another number of tokens. -/
theorem Frontier.not_reached_advance (h : Frontier popCosts tokenCount (p :: queue)) :
    ¬ Reached popCosts tokenCount (ResumePoint.advance popCosts p queue) p := by
  rintro ⟨-, q, hMem, hSkipped, hLe⟩
  rw [advance_eq] at hMem
  split at hMem
  · rcases mem_enqueue.mp hMem with rfl | hMem
    · exact absurd hLe (Nat.not_succ_le_self _)
    · exact h.notMem hMem hSkipped
  · exact h.notMem hMem hSkipped

/-- What is reached from a queue is its first point, or it is reached from the rest. -/
theorem Frontier.reached_iff (h : Frontier popCosts tokenCount (p :: queue)) {r : ResumePoint} :
    Reached popCosts tokenCount (p :: queue) r ↔
      r = p ∨ Reached popCosts tokenCount (ResumePoint.advance popCosts p queue) r := by
  obtain ⟨hFirst, -⟩ := List.forall_mem_cons.mp h.possible
  rw [advance_eq]
  constructor
  · rintro ⟨hReal, q, hMem, hSkipped, hLe⟩
    rcases List.mem_cons.mp hMem with rfl | hMem
    · rcases Nat.eq_or_lt_of_le hLe with hSame | hLess
      · exact .inl (by rw [hReal.eq, hFirst.eq, hSkipped, hSame])
      · refine .inr ⟨hReal, pointAt popCosts q.skipped (q.popped + 1), ?_, hSkipped, hLess⟩
        have hBound := hReal.popped
        rw [if_pos (by omega)]
        exact mem_enqueue.mpr (.inl rfl)
    · refine .inr ⟨hReal, q, ?_, hSkipped, hLe⟩
      split
      · exact mem_enqueue.mpr (.inr hMem)
      · exact hMem
  · rintro (rfl | ⟨hReal, q, hMem, hSkipped, hLe⟩)
    · exact ⟨hFirst, r, by simp, rfl, Nat.le_refl _⟩
    · split at hMem
      · rcases mem_enqueue.mp hMem with rfl | hMem
        · exact ⟨hReal, p, by simp, hSkipped, Nat.le_of_succ_le hLe⟩
        · exact ⟨hReal, q, by simp [hMem], hSkipped, hLe⟩
      · exact ⟨hReal, q, by simp [hMem], hSkipped, hLe⟩

/-- A search with enough steps visits all that is reached from its queue, and nothing twice. -/
theorem Frontier.visits (h : Frontier popCosts tokenCount queue)
    (hLimit : remaining popCosts queue ≤ limit) :
    (visits popCosts limit queue).Nodup
      ∧ ∀ r, r ∈ visits popCosts limit queue ↔ Reached popCosts tokenCount queue r := by
  induction limit generalizing queue with
  | zero =>
      cases queue with
      | nil => simp [ResumePoint.visits, Reached]
      | cons p queue => have := remaining_advance h; omega
  | succ limit ih =>
      cases queue with
      | nil => simp [ResumePoint.visits, Reached]
      | cons p queue =>
          have hRemaining := remaining_advance h
          obtain ⟨hNodup, hAll⟩ := ih h.advance (by omega)
          rw [ResumePoint.visits]
          refine ⟨List.nodup_cons.mpr ⟨fun hMem => ?_, hNodup⟩, fun r => ?_⟩
          · exact h.not_reached_advance ((hAll p).mp hMem)
          · rw [List.mem_cons, hAll, h.reached_iff]

/-! ### The order of the visits -/

/-- Popping more never costs less. -/
def Rising (popCosts : Array Nat) : Prop := popCosts.toList.Pairwise (· ≤ ·)

theorem Rising.getD_le (hRising : Rising popCosts) {d e : Nat} (hLe : d ≤ e)
    (hBound : e < popCosts.size) : popCosts.getD d 0 ≤ popCosts.getD e 0 := by
  rcases Nat.eq_or_lt_of_le hLe with rfl | hLess
  · exact Nat.le_refl _
  · have hEntries := List.pairwise_iff_getElem.mp hRising d e (by simp; omega) (by simpa) hLess
    simpa [Array.getD, hBound, show d < popCosts.size by omega] using hEntries

/-- The cost of every pair can be counted. -/
def Counted (popCosts : Array Nat) (tokenCount : Nat) : Prop :=
  ∀ k < tokenCount, ∀ cost ∈ popCosts, skipCost * k + cost < Offset.bound

/-- Costs that can be counted are exact. -/
theorem Possible.cost (hCounted : Counted popCosts tokenCount) (h : Possible popCosts tokenCount p) :
    p.cost = skipCost * p.skipped + popCosts.getD p.popped 0 := by
  have hCost : popCosts.getD p.popped 0 ∈ popCosts := by
    simp [Array.getD, h.popped]
  conv_lhs => rw [h.eq, pointAt, priced]
  exact Offset.add_eq (hCounted _ h.skipped _ hCost)

theorem rank_lt (hRising : Rising popCosts) (hCounted : Counted popCosts tokenCount)
    (hP : Possible popCosts tokenCount p) (hQ : Possible popCosts tokenCount q)
    (hSkipped : p.skipped = q.skipped) (hLess : p.popped < q.popped) : p.rank < q.rank := by
  have hCost := hRising.getD_le (Nat.le_of_lt hLess) hQ.popped
  simp only [rank, Prod.Lex.toLex_lt_toLex', hP.cost hCounted, hQ.cost hCounted, hSkipped]
  exact ⟨by omega, fun _ => ⟨Nat.le_refl _, fun _ => hLess⟩⟩

/-- A queue in order stays in order. -/
theorem Frontier.advance_ordered (h : Frontier popCosts tokenCount (p :: queue))
    (hOrdered : queue.Pairwise (rank · < rank ·)) :
    (ResumePoint.advance popCosts p queue).Pairwise (rank · < rank ·) := by
  rw [advance_eq]
  split
  · refine enqueue_ordered hOrdered fun q hMem hSame => h.notMem hMem ?_
    exact congrArg (fun r => (ofLex (ofLex r).2).1) hSame
  · exact hOrdered

/-- Everything that is reached after the first point comes behind it. -/
theorem Frontier.rank_lt_of_reached (hRising : Rising popCosts) (hCounted : Counted popCosts tokenCount)
    (h : Frontier popCosts tokenCount (p :: queue)) (hOrdered : (p :: queue).Pairwise (rank · < rank ·))
    {r : ResumePoint} (hReached : Reached popCosts tokenCount (ResumePoint.advance popCosts p queue) r) :
    p.rank < r.rank := by
  obtain ⟨hReal, q, hMem, hSkipped, hLe⟩ := hReached
  have hPossible := h.advance.possible q hMem
  have hFrom : q.rank ≤ r.rank := by
    rcases Nat.eq_or_lt_of_le hLe with hSame | hLess
    · rw [hPossible.eq, hReal.eq, hSkipped, hSame]
    · exact (rank_lt hRising hCounted hPossible hReal hSkipped hLess).le
  refine lt_of_lt_of_le ?_ hFrom
  rw [advance_eq] at hMem
  split at hMem
  · rcases mem_enqueue.mp hMem with rfl | hMem
    · exact rank_lt hRising hCounted (h.possible p (by simp)) hPossible rfl (Nat.lt_succ_self _)
    · exact (List.pairwise_cons.mp hOrdered).1 q hMem
  · exact (List.pairwise_cons.mp hOrdered).1 q hMem

/-- With enough steps the points are visited in their order. -/
theorem Frontier.visits_ordered (hRising : Rising popCosts) (hCounted : Counted popCosts tokenCount)
    (h : Frontier popCosts tokenCount queue) (hOrdered : queue.Pairwise (rank · < rank ·))
    (hLimit : remaining popCosts queue ≤ limit) :
    (ResumePoint.visits popCosts limit queue).Pairwise (rank · < rank ·) := by
  induction limit generalizing queue with
  | zero => simp [ResumePoint.visits]
  | succ limit ih =>
      cases queue with
      | nil => simp [ResumePoint.visits]
      | cons p queue =>
          have hRemaining := remaining_advance h
          rw [ResumePoint.visits]
          refine List.pairwise_cons.mpr ⟨fun r hMem => ?_, ?_⟩
          · exact h.rank_lt_of_reached hRising hCounted hOrdered
              (((h.advance.visits (by omega)).2 r).mp hMem)
          · exact ih h.advance (h.advance_ordered (List.pairwise_cons.mp hOrdered).2)
              (by omega)

/-! ### The whole search -/

/-- The points that a search starts from. -/
def seeds (popCosts : Array Nat) (tokenCount : Nat) : List ResumePoint :=
  (List.range tokenCount).map fun skipped => pointAt popCosts skipped 0

/-- The first points of all lines are a frontier. -/
theorem frontier_seeds (hSome : 0 < popCosts.size) (tokenCount : Nat) :
    Frontier popCosts tokenCount (seeds popCosts tokenCount) where
  possible := by
    intro p hMem
    obtain ⟨k, hLess, rfl⟩ := List.mem_map.mp hMem
    exact ⟨List.mem_range.mp hLess, hSome, rfl⟩
  apart := by
    simpa [seeds, List.map_map, Function.comp_def, pointAt, priced] using List.nodup_range

/-- They come in the order of their ranks. -/
theorem seeds_ordered (hSome : 0 < popCosts.size) (hCounted : Counted popCosts tokenCount) :
    (seeds popCosts tokenCount).Pairwise (rank · < rank ·) := by
  refine List.pairwise_map.mpr (List.pairwise_lt_range.imp_of_mem fun {k l} hK hL hLess => ?_)
  have hFirst : Possible popCosts tokenCount (pointAt popCosts k 0) := ⟨List.mem_range.mp hK, hSome, rfl⟩
  have hSecond : Possible popCosts tokenCount (pointAt popCosts l 0) := ⟨List.mem_range.mp hL, hSome, rfl⟩
  refine Prod.Lex.toLex_lt_toLex.mpr (.inl ?_)
  rw [hFirst.cost hCounted, hSecond.cost hCounted]
  exact Nat.add_lt_add_right (Nat.mul_lt_mul_of_pos_left hLess (by decide)) _

theorem remaining_seeds (popCosts : Array Nat) (tokenCount : Nat) :
    remaining popCosts (seeds popCosts tokenCount) = tokenCount * popCosts.size := by
  have hEach : (seeds popCosts tokenCount).map (fun p => popCosts.size - p.popped)
      = List.replicate tokenCount popCosts.size := by
    simp [seeds, pointAt, priced, Function.comp_def, List.map_const']
  rw [remaining, hEach, List.sum_replicate_nat]

/-- All points that are possible are reached from there. -/
theorem reached_seeds (popCosts : Array Nat) (tokenCount : Nat) (p : ResumePoint) :
    Reached popCosts tokenCount (seeds popCosts tokenCount) p ↔ Possible popCosts tokenCount p := by
  refine ⟨fun h => h.1, fun h => ⟨h, pointAt popCosts p.skipped 0, ?_, rfl, Nat.zero_le _⟩⟩
  exact List.mem_map.mpr ⟨p.skipped, List.mem_range.mpr h.skipped, rfl⟩

/-- The points that the choice of a resume point visits if it accepts none. -/
def course (popCosts : Array Nat) (tokenCount : Nat) : List ResumePoint :=
  visits popCosts (tokenCount * popCosts.size) (seeds popCosts tokenCount)

/-- The choice meets every possible point, and none twice. -/
theorem course_spec (hSome : 0 < popCosts.size) (tokenCount : Nat) :
    (course popCosts tokenCount).Nodup
      ∧ ∀ p, p ∈ course popCosts tokenCount ↔ Possible popCosts tokenCount p := by
  obtain ⟨hNodup, hAll⟩ := (frontier_seeds hSome tokenCount).visits
    (Nat.le_of_eq (remaining_seeds popCosts tokenCount))
  exact ⟨hNodup, fun p => (hAll p).trans (reached_seeds popCosts tokenCount p)⟩

/-- Points are visited in the order of their ranks. -/
theorem course_ordered (hSome : 0 < popCosts.size) (hRising : Rising popCosts)
    (hCounted : Counted popCosts tokenCount) :
    (course popCosts tokenCount).Pairwise (rank · < rank ·) :=
  (frontier_seeds hSome tokenCount).visits_ordered hRising hCounted (seeds_ordered hSome hCounted)
    (Nat.le_of_eq (remaining_seeds popCosts tokenCount))

/-- The search makes the test for the points of its course, one by one, until it succeeds. -/
theorem bestM_eq_findM? {m : Type → Type} [Monad m] [LawfulMonad m] (hSome : 0 < popCosts.size)
    (tokenCount : Nat) (test : Nat → Nat → m Bool) :
    bestM popCosts tokenCount test =
      Option.map pair <$> (course popCosts tokenCount).findM? fun p => test p.skipped p.popped := by
  rw [course, ← searchM_eq_findM?, bestM]
  simp [hSome, seeds, pointAt, Array.getD]

/-- So it finds the first point of the course that passes. -/
theorem best?_eq_find? (hSome : 0 < popCosts.size) (tokenCount : Nat)
    (accept : Nat → Nat → Bool) :
    best? popCosts tokenCount accept =
      ((course popCosts tokenCount).find? fun p => accept p.skipped p.popped).map pair := by
  rw [best?, bestM_eq_findM? hSome, List.findM?_pure, map_pure]
  rfl

/-- No pair is met twice. -/
theorem nodup_course (hSome : 0 < popCosts.size) (tokenCount : Nat) :
    ((course popCosts tokenCount).map pair).Nodup := by
  obtain ⟨hNodup, hAll⟩ := course_spec hSome tokenCount
  refine List.pairwise_map.mpr (hNodup.imp_of_mem fun {p q} hFirst hSecond hApart hSame => hApart ?_)
  obtain ⟨hSkipped, hPopped⟩ := Prod.mk.inj hSame
  rw [((hAll p).mp hFirst).eq, ((hAll q).mp hSecond).eq, hSkipped, hPopped]

/-- Among the pairs that are open, this one costs least. Of those that cost the same it skips the
fewest tokens, and then it pops the fewest entries. -/
def IsCheapest (popCost : Nat → Nat) (Open : Nat → Nat → Prop) (skipped popped : Nat) : Prop :=
  Open skipped popped ∧ ∀ k d, Open k d →
    toLex (skipCost * skipped + popCost popped, toLex (skipped, popped))
      ≤ toLex (skipCost * k + popCost d, toLex (k, d))

/-- The pairs of a search that are accepted. -/
def Accepted (popCosts : Array Nat) (tokenCount : Nat) (accept : Nat → Nat → Bool)
    (skipped popped : Nat) : Prop :=
  skipped < tokenCount ∧ popped < popCosts.size ∧ accept skipped popped = true

/-- A test that keeps a record of what it has been asked. -/
def noting {α : Type} (accept : α → Bool) (a : α) : StateM (List α) Bool :=
  fun noted => (accept a, noted ++ [a])

/-- What is tested are the first elements, as far as the one that is found. -/
theorem findM?_noting {α β : Type} (accept : β → Bool) (f : α → β) (as : List α) (noted : List β) :
    ∃ tested, tested <+: as.map f
      ∧ (as.findM? fun a => noting accept (f a)).run noted =
          (as.find? fun a => accept (f a), noted ++ tested) := by
  induction as generalizing noted with
  | nil => exact ⟨[], List.prefix_rfl, by simp; rfl⟩
  | cons a as ih =>
      rw [List.findM?, List.find?]
      cases hAccept : accept (f a) with
      | true =>
          refine ⟨[f a], by simp, ?_⟩
          simp [noting, StateT.run, bind, StateT.bind, hAccept]
          rfl
      | false =>
          obtain ⟨tested, hPrefix, hRun⟩ := ih (noted ++ [f a])
          refine ⟨f a :: tested, by simpa using hPrefix, ?_⟩
          simpa [noting, StateT.run, bind, StateT.bind, hAccept] using hRun

/-- No pair is tested twice, and recording the tests changes nothing. -/
theorem bestM_noting (hSome : 0 < popCosts.size) (tokenCount : Nat)
    (accept : Nat → Nat → Bool) :
    ∃ tested, (bestM popCosts tokenCount fun k d => noting (Function.uncurry accept) (k, d)).run []
        = (best? popCosts tokenCount accept, tested)
      ∧ tested.Nodup := by
  obtain ⟨tested, hPrefix, hRun⟩ :=
    findM?_noting (Function.uncurry accept) pair (course popCosts tokenCount) []
  refine ⟨tested, ?_, hPrefix.sublist.nodup (nodup_course hSome tokenCount)⟩
  rw [bestM_eq_findM? hSome, best?_eq_find? hSome]
  change (Option.map pair <$>
    (course popCosts tokenCount).findM? fun p => noting (Function.uncurry accept) p.pair).run [] = _
  rw [StateT.run_map, hRun]
  rfl

theorem possible_iff {k d : Nat} :
    Possible popCosts tokenCount (pointAt popCosts k d) ↔ k < tokenCount ∧ d < popCosts.size :=
  ⟨fun h => ⟨h.skipped, h.popped⟩, fun h => ⟨h.1, h.2, rfl⟩⟩

/-- What is found has been accepted. -/
theorem accepted_of_best? (hSome : 0 < popCosts.size) {accept : Nat → Nat → Bool} {k d : Nat}
    (hBest : best? popCosts tokenCount accept = some (k, d)) :
    Accepted popCosts tokenCount accept k d := by
  rw [best?_eq_find? hSome] at hBest
  obtain ⟨p, hFound, hPair⟩ := Option.map_eq_some_iff.mp hBest
  obtain ⟨rfl, rfl⟩ := Prod.mk.inj hPair
  have hPossible := ((course_spec hSome tokenCount).2 p).mp (List.mem_of_find?_eq_some hFound)
  have hAccept := List.find?_some hFound
  exact ⟨hPossible.skipped, hPossible.popped, hAccept⟩

/-- Nothing is found if nothing is accepted. -/
theorem best?_eq_none_iff (hSome : 0 < popCosts.size) (tokenCount : Nat)
    (accept : Nat → Nat → Bool) :
    best? popCosts tokenCount accept = none ↔
      ∀ k d, ¬ Accepted popCosts tokenCount accept k d := by
  obtain ⟨-, hAll⟩ := course_spec hSome tokenCount
  rw [best?_eq_find? hSome, Option.map_eq_none_iff, List.find?_eq_none]
  constructor
  · rintro hNone k d ⟨hSkipped, hPopped, hAccept⟩
    exact hNone (pointAt popCosts k d) ((hAll _).mpr (possible_iff.mpr ⟨hSkipped, hPopped⟩)) hAccept
  · intro hNone p hMem hAccept
    have hPossible := (hAll p).mp hMem
    exact hNone _ _ ⟨hPossible.skipped, hPossible.popped, hAccept⟩

/-- What is found first in an ordered list comes before everything else there that is accepted. -/
theorem find?_eq_some_iff_of_ordered {ps : List ResumePoint} (hOrdered : ps.Pairwise (rank · < rank ·))
    {accept : ResumePoint → Bool} {p : ResumePoint} :
    ps.find? accept = some p ↔
      p ∈ ps ∧ accept p = true ∧ ∀ q ∈ ps, accept q = true → p.rank ≤ q.rank := by
  induction ps with
  | nil => simp
  | cons r ps ih =>
      obtain ⟨hFirst, hRest⟩ := List.pairwise_cons.mp hOrdered
      rw [List.find?_cons]
      cases hAccept : accept r with
      | true =>
          constructor
          · rintro hSame
            obtain rfl : r = p := by simpa using hSame
            refine ⟨by simp, hAccept, fun q hMem _ => ?_⟩
            rcases List.mem_cons.mp hMem with rfl | hMem
            · exact le_rfl
            · exact (hFirst q hMem).le
          · rintro ⟨hMem, -, hLeast⟩
            rcases List.mem_cons.mp hMem with rfl | hMem
            · rfl
            · exact absurd (hFirst p hMem) (not_lt.mpr (hLeast r (by simp) hAccept))
      | false =>
          rw [ih hRest, List.mem_cons]
          constructor
          · rintro ⟨hMem, hTaken, hLeast⟩
            refine ⟨.inr hMem, hTaken, fun q hOther hQ => ?_⟩
            rcases List.mem_cons.mp hOther with rfl | hOther
            · simp [hAccept] at hQ
            · exact hLeast q hOther hQ
          · rintro ⟨rfl | hMem, hTaken, hLeast⟩
            · simp [hAccept] at hTaken
            · exact ⟨hMem, hTaken, fun q hOther => hLeast q (by simp [hOther])⟩

/-- With costs that rise and sums that can be counted, the cheapest point that is accepted is found. -/
theorem best?_eq_some_iff (hSome : 0 < popCosts.size) (hRising : Rising popCosts)
    (hCounted : Counted popCosts tokenCount) (accept : Nat → Nat → Bool) (k d : Nat) :
    best? popCosts tokenCount accept = some (k, d) ↔
      IsCheapest (popCosts.getD · 0) (Accepted popCosts tokenCount accept) k d := by
  obtain ⟨-, hAll⟩ := course_spec hSome tokenCount
  have hOrdered := course_ordered hSome hRising hCounted
  have hRank : ∀ p, Possible popCosts tokenCount p →
      p.rank = toLex (skipCost * p.skipped + popCosts.getD p.popped 0, toLex (p.skipped, p.popped)) :=
    fun p hPossible => by rw [rank, hPossible.cost hCounted]
  rw [best?_eq_find? hSome, Option.map_eq_some_iff]
  constructor
  · rintro ⟨p, hFound, hPair⟩
    obtain ⟨rfl, rfl⟩ := Prod.mk.inj hPair
    obtain ⟨hMem, hAccept, hLeast⟩ := (find?_eq_some_iff_of_ordered hOrdered).mp hFound
    have hPossible := (hAll p).mp hMem
    refine ⟨⟨hPossible.skipped, hPossible.popped, hAccept⟩, fun k d ⟨hK, hD, hOpen⟩ => ?_⟩
    have hOther : Possible popCosts tokenCount (pointAt popCosts k d) := possible_iff.mpr ⟨hK, hD⟩
    rw [← hRank p hPossible]
    exact (hLeast _ ((hAll _).mpr hOther) hOpen).trans_eq (hRank _ hOther)
  · rintro ⟨⟨hSkipped, hPopped, hAccept⟩, hLeast⟩
    have hPossible : Possible popCosts tokenCount (pointAt popCosts k d) :=
      possible_iff.mpr ⟨hSkipped, hPopped⟩
    refine ⟨pointAt popCosts k d, (find?_eq_some_iff_of_ordered hOrdered).mpr
      ⟨(hAll _).mpr hPossible, hAccept, fun q hMem hOpen => ?_⟩, rfl⟩
    have hOther := (hAll q).mp hMem
    rw [hRank _ hPossible, hRank q hOther]
    exact hLeast q.skipped q.popped ⟨hOther.skipped, hOther.popped, hOpen⟩

end ResumePoint

namespace ParseStack

/-- The entries that count as part of a rule, the top one first. -/
def solid (s : ParseStack) : List StackEntry := s.entries.filter fun entry => !entry.extra

/-- The tokens in the topmost entries that are not extra. An entry without tokens counts as one. -/
def popCost (s : ParseStack) (depth : Nat) : Nat :=
  ((s.solid.take depth).map fun entry => max entry.subtree.tokens 1).sum

theorem popCost_zero (s : ParseStack) : s.popCost 0 = 0 := by simp [popCost]

/-- More entries cost more. -/
theorem popCost_lt (s : ParseStack) {d e : Nat} (hLess : d < e) (hBound : e ≤ s.solid.length) :
    s.popCost d < s.popCost e := by
  have hStep : ∀ n < s.solid.length, s.popCost n < s.popCost (n + 1) := by
    intro n hBelow
    simp only [popCost, List.take_succ_eq_append_getElem hBelow, List.map_append, List.sum_append,
      List.map_cons, List.map_nil, List.sum_cons, List.sum_nil]
    omega
  induction e with
  | zero => omega
  | succ e ih =>
      rcases Nat.eq_or_lt_of_le (Nat.le_of_lt_succ hLess) with rfl | hBelow
      · exact hStep d hBound
      · exact (ih hBelow (by omega)).trans (hStep e hBound)

theorem foldl_totals (entries : List StackEntry) (total : Nat) (costs : Array Nat) :
    (entries.foldl (fun (total, costs) entry =>
      let total := total + max entry.subtree.tokens 1
      (total, costs.push total)) (total, costs)).2.toList =
    costs.toList ++ (List.range entries.length).map fun n =>
      total + ((entries.take (n + 1)).map fun entry => max entry.subtree.tokens 1).sum := by
  induction entries generalizing total costs with
  | nil => simp
  | cons entry entries ih =>
      rw [List.foldl_cons, ih, List.length_cons, List.range_succ_eq_map]
      simp [Nat.add_assoc, Function.comp_def]

/-- The costs are those of popping each number of entries. -/
theorem toList_popCosts (s : ParseStack) :
    s.popCosts.toList = (List.range (s.solid.length + 1)).map s.popCost := by
  rw [popCosts, foldl_totals, List.range_succ_eq_map]
  simp [popCost, solid, Function.comp_def]

theorem size_popCosts (s : ParseStack) : s.popCosts.size = s.solid.length + 1 := by
  rw [← Array.length_toList, toList_popCosts]
  simp

theorem getD_popCosts (s : ParseStack) {depth : Nat} (hDepth : depth ≤ s.solid.length) :
    s.popCosts.getD depth 0 = s.popCost depth := by
  rw [Array.getD_eq_getD_getElem?, ← Array.getElem?_toList, toList_popCosts]
  simp [Nat.lt_succ_of_le hDepth]

theorem popCosts_increasing (s : ParseStack) : s.popCosts.toList.Pairwise (· < ·) := by
  rw [toList_popCosts]
  refine List.pairwise_map.mpr (List.pairwise_lt_range.imp_of_mem fun {d e} _ hMem hLess => ?_)
  exact s.popCost_lt hLess (Nat.le_of_lt_succ (List.mem_range.mp hMem))

end ParseStack

namespace ParseJob
variable (job : ParseJob) (stack : ParseStack) (tokens : List Subtree)

/-- There is a token behind the skipped ones, it is valid, and the states below the popped entries
take it. -/
def CanResume (skipped popped : Nat) : Prop :=
  popped ≤ stack.solid.length ∧ ∃ t, tokens[skipped]? = some t ∧ job.isInvalid t.kind = false
    ∧ job.tables.takes (stack.states.drop popped) t.kind = true

/-- What recovery asks of a pair. -/
def resumeTest (skipped popped : Nat) : Bool :=
  let kind := (tokens.map (·.kind)).toArray.getD skipped errorSymbol
  !job.isInvalid kind
    && job.tables.takes ((resumePoint?.suffixes stack.states #[]).getD popped []) kind

theorem resumePoint?_eq :
    job.resumePoint? stack tokens =
      ResumePoint.best? stack.popCosts tokens.length (job.resumeTest stack tokens) := rfl

theorem canResume_iff (skipped popped : Nat) :
    job.CanResume stack tokens skipped popped ↔
      ResumePoint.Accepted stack.popCosts tokens.length (job.resumeTest stack tokens)
        skipped popped := by
  rw [CanResume, ResumePoint.Accepted, stack.size_popCosts, Nat.lt_succ_iff, resumeTest,
    getD_suffixes]
  constructor
  · rintro ⟨hPopped, t, hToken, hValid, hTakes⟩
    obtain ⟨hBound, -⟩ := List.getElem?_eq_some_iff.mp hToken
    exact ⟨hBound, hPopped, by simp [hToken, hValid, hTakes]⟩
  · rintro ⟨hBound, hPopped, hTest⟩
    simp only [Array.getD_eq_getD_getElem?, List.getElem?_toArray, List.getElem?_map,
      List.getElem?_eq_getElem hBound, Option.map_some, Option.getD_some, Bool.and_eq_true,
      Bool.not_eq_true'] at hTest
    exact ⟨hPopped, tokens[skipped], List.getElem?_eq_getElem hBound, hTest.1, hTest.2⟩

theorem isCheapest_iff (skipped popped : Nat) :
    ResumePoint.IsCheapest stack.popCost (job.CanResume stack tokens) skipped popped ↔
      ResumePoint.IsCheapest (stack.popCosts.getD · 0)
        (ResumePoint.Accepted stack.popCosts tokens.length (job.resumeTest stack tokens))
        skipped popped := by
  have hCost : ∀ k d, job.CanResume stack tokens k d →
      stack.popCosts.getD d 0 = stack.popCost d := fun k d h => stack.getD_popCosts h.1
  simp only [ResumePoint.IsCheapest, ← canResume_iff]
  refine and_congr_right fun hOpen => forall₂_congr fun k d => imp_congr_right fun h => ?_
  rw [hCost _ _ hOpen, hCost _ _ h]

end ParseJob

open ResumePoint in
/-- Popping costs nothing at first and then always more. The choice of a resume point finds a pair that
is accepted, if there is one, and tests no pair twice. With costs that do not fall it finds the cheapest
of them, as long as the costs can be counted. So recovery goes on at the cheapest pair at which it can,
and never skips the last token that it has read. -/
theorem resumes_cheapest :
    (∀ stack : ParseStack,
      stack.popCosts[0]? = some 0 ∧ stack.popCosts.toList.Pairwise (· < ·))
    ∧ (∀ (popCosts : Array Nat) (tokenCount : Nat) (accept : Nat → Nat → Bool),
      0 < popCosts.size →
        (popCosts.toList.Pairwise (· ≤ ·) → Counted popCosts tokenCount → ∀ k d,
          best? popCosts tokenCount accept = some (k, d) ↔
            IsCheapest (popCosts.getD · 0) (Accepted popCosts tokenCount accept) k d)
        ∧ (∀ k d, best? popCosts tokenCount accept = some (k, d) →
          Accepted popCosts tokenCount accept k d)
        ∧ (best? popCosts tokenCount accept = none ↔
          ∀ k d, ¬ Accepted popCosts tokenCount accept k d)
        ∧ ∃ tested, (bestM popCosts tokenCount fun k d =>
              noting (Function.uncurry accept) (k, d)).run []
            = (best? popCosts tokenCount accept, tested)
          ∧ tested.Nodup)
    ∧ ∀ (job : ParseJob) (stack : ParseStack) (tokens : List Subtree),
      (Counted stack.popCosts tokens.length → ∀ k d, job.resumePoint? stack tokens = some (k, d) ↔
        IsCheapest stack.popCost (job.CanResume stack tokens) k d)
      ∧ (∀ k d, job.resumePoint? stack tokens = some (k, d) →
        job.CanResume stack tokens k d ∧ k < tokens.length)
      ∧ (job.resumePoint? stack tokens = none ↔ ∀ k d, ¬ job.CanResume stack tokens k d) := by
  refine ⟨fun stack => ⟨?_, stack.popCosts_increasing⟩, ?_, ?_⟩
  · rw [← Array.getElem?_toList, stack.toList_popCosts]
    simp [stack.popCost_zero]
  · intro popCosts tokenCount accept hSome
    exact ⟨fun hRising hCounted => best?_eq_some_iff hSome hRising hCounted accept,
      fun k d => accepted_of_best? hSome, best?_eq_none_iff hSome tokenCount accept,
      bestM_noting hSome tokenCount accept⟩
  · intro job stack tokens
    have hSome : 0 < stack.popCosts.size := by simp [stack.size_popCosts]
    have hRising : Rising stack.popCosts := stack.popCosts_increasing.imp Nat.le_of_lt
    refine ⟨fun hCounted k d => ?_, fun k d hBest => ?_, ?_⟩
    · rw [job.resumePoint?_eq, job.isCheapest_iff, best?_eq_some_iff hSome hRising hCounted]
    · have hAccepted := accepted_of_best? hSome hBest
      exact ⟨(job.canResume_iff stack tokens k d).mpr hAccepted, hAccepted.1⟩
    · rw [job.resumePoint?_eq, best?_eq_none_iff hSome]
      simp only [job.canResume_iff]

open ResumePoint in
/-- Popping three entries of one token each costs as much as skipping a token. -/
theorem resumes_cheapest_of_tie :
    let accept k d := (k == 1 && d == 0) || d == 3
    0 < #[0, 1, 2, 3].size ∧ #[0, 1, 2, 3].toList.Pairwise (· ≤ ·) ∧ Counted #[0, 1, 2, 3] 2
      ∧ IsCheapest (#[0, 1, 2, 3].getD · 0) (Accepted #[0, 1, 2, 3] 2 accept) 0 3 := by
  intro accept
  have hSome : 0 < #[0, 1, 2, 3].size := by decide
  have hRising : #[0, 1, 2, 3].toList.Pairwise (· ≤ ·) := by decide
  have hCounted : Counted #[0, 1, 2, 3] 2 := by
    simp [Counted, skipCost, Offset.bound]
    omega
  have hBest : best? #[0, 1, 2, 3] 2 accept = some (0, 3) := by decide
  exact ⟨hSome, hRising, hCounted,
    ((resumes_cheapest.2.1 #[0, 1, 2, 3] 2 accept hSome).1 hRising hCounted 0 3).mp hBest⟩

/-- A terminal is shifted behind some reductions, however many they are. -/
def Tables.Shifts (t : Tables) (states : List StateId) (terminal : SymbolId) : Prop :=
  ∃ count last next, t.Reductions terminal states count last
    ∧ t.action (last.headD 0) terminal = .shift next

/-- A parser could go on with a token behind the skipped ones, over the states below the popped entries. -/
def ParseJob.MayResume (job : ParseJob) (stack : ParseStack) (tokens : List Subtree)
    (skipped popped : Nat) : Prop :=
  popped ≤ stack.solid.length ∧ ∃ t, tokens[skipped]? = some t ∧ job.isInvalid t.kind = false
    ∧ job.tables.Shifts (stack.states.drop popped) t.kind

namespace Letters

/-- Sentences are `cb`, and some `a` with a `c` behind them. The list of the `a` is built from its end,
when `c` comes up. -/
def listing : Grammar :=
  grammar 3 [⟨"s", ⟨false, true, false, false⟩⟩, ⟨"list", ⟨false, true, false, false⟩⟩] #[
    ⟨⟨5, [.plain 6, .plain 4]⟩, none⟩,
    ⟨⟨6, [.plain 2, .plain 6]⟩, none⟩,
    ⟨⟨6, [.plain 2]⟩, none⟩,
    ⟨⟨5, [.plain 4, .plain 3]⟩, none⟩]

def listingTables : Tables :=
  tables listing 8 [
    [.error, .error, .shift 1, .error, .shift 2],
    [.error, .error, .shift 1, .error, .reduce 2],
    [.error, .error, .error, .shift 6, .error],
    [.accept, .error, .error, .error, .error],
    [.error, .error, .error, .error, .shift 7],
    [.error, .error, .error, .error, .reduce 1],
    [.reduce 3, .error, .error, .error, .error],
    [.reduce 0, .error, .error, .error, .error]] [
    [some 3, some 4], [none, some 5], [none, none], [none, none], [none, none], [none, none],
    [none, none], [none, none]]

theorem built_listing : listingTables.Built := by
  have hPlain : GrammarDraft.Plain listing (letters 3)
      [⟨"s", ⟨false, true, false, false⟩⟩, ⟨"list", ⟨false, true, false, false⟩⟩] := {
    symbols := rfl
    terminalEntries := by decide
    nonterminalEntries := by decide +kernel
    names := by decide +kernel
    room := by decide
    fields := by decide
    rules := by decide +kernel
    terminalCount := rfl
    start := by decide
    productive := by decide +kernel
    precedence := rfl }
  exact built_tables hPlain (by decide +kernel)

/-- The stack behind some `a`. -/
def rowOf : Nat → ParseStack
  | 0 => .empty 0
  | count + 1 => (rowOf count).push 1 (.leaf count 2 0 1 0 false)

/-- What is left behind a row of `a`: a `b` that cannot be there, a `c`, and the end. -/
def restOf (count : Nat) : List Subtree :=
  [.leaf count 3 0 1 0 false, .leaf (count + 1) 4 0 1 0 false, ParseJob.endLeaf (count + 2) 0]

theorem openError_rowOf (count : Nat) : (rowOf count).openError = #[] := by
  induction count with
  | zero => rfl
  | succ count ih => simp [rowOf, ParseStack.push, ParseStack.closeError, ih]

/-- All entries of a row are alike, but for where they are. -/
theorem solid_rowOf (count : Nat) : (rowOf count).solid.map (fun e => (e.state, max e.subtree.tokens 1))
    = List.replicate count (1, 1) := by
  induction count with
  | zero => rfl
  | succ count ih =>
      rw [List.replicate_succ, ← ih]
      simp [rowOf, ParseStack.push, ParseStack.closeError, openError_rowOf, ParseStack.stacked,
        ParseStack.solid, Subtree.tokens, Subtree.leaf, Subtree.info]

theorem length_solid_rowOf (count : Nat) : (rowOf count).solid.length = count := by
  simpa using congrArg List.length (solid_rowOf count)

theorem states_rowOf (count : Nat) : (rowOf count).states = List.replicate count 1 := by
  simpa [ParseStack.states, ParseStack.solid, Function.comp_def]
    using congrArg (List.map Prod.fst) (solid_rowOf count)

/-- Each entry of a row is a token of its own. -/
theorem popCost_rowOf {count depth : Nat} (hDepth : depth ≤ count) : (rowOf count).popCost depth = depth := by
  have hCosts : (rowOf count).solid.map (fun e => max e.subtree.tokens 1) = List.replicate count 1 := by
    simpa [Function.comp_def] using congrArg (List.map Prod.snd) (solid_rowOf count)
  rw [ParseStack.popCost, List.map_take, hCosts, List.take_replicate, Nat.min_eq_left hDepth,
    List.sum_replicate_nat, Nat.mul_one]

/-- In front of a `c` the last `a` becomes a list, and each list becomes one with the `a` below it. -/
theorem reductions_row (count : Nat) :
    listingTables.Reductions 4 (List.replicate (count + 2) 1) (count + 2) [4] := by
  have hBelow : listingTables.goto 1 6 = some 5 := by decide +kernel
  have hLast (states : List StateId) :
      listingTables.reduction? 4 (1 :: 1 :: states) = some (5 :: 1 :: states) :=
    @Tables.reduction?_of_reduce listingTables 4 (1 :: 1 :: states) 2 ⟨6, [.plain 2]⟩ 5
      (show listingTables.action 1 4 = .reduce 2 by decide +kernel) (by decide +kernel) hBelow
  have hNext (states : List StateId) :
      listingTables.reduction? 4 (5 :: 1 :: 1 :: states) = some (5 :: 1 :: states) :=
    @Tables.reduction?_of_reduce listingTables 4 (5 :: 1 :: 1 :: states) 1 ⟨6, [.plain 2, .plain 6]⟩ 5
      (show listingTables.action 5 4 = .reduce 1 by decide +kernel) (by decide +kernel) hBelow
  have hList (more : Nat) :
      listingTables.Reductions 4 (5 :: List.replicate (more + 1) 1) (more + 1) [4] := by
    induction more with
    | zero => exact .head (by decide +kernel) .none
    | succ more ih => exact .head (hNext _) ih
  exact .head (hLast _) (hList count)

/-- So a trial takes a `c` as long as there are not too many `a`. -/
theorem takes_row_iff (count : Nat) :
    listingTables.takes (List.replicate (count + 2) 1) 4 = true ↔ count + 2 < Tables.maxTrial := by
  have hRow := reductions_row count
  rw [Tables.takes, Tables.after?]
  constructor
  · intro hTakes
    by_contra hMany
    rw [Tables.act_eq_none_of_reductions hRow (Nat.not_lt.mp hMany)] at hTakes
    exact absurd hTakes Bool.false_ne_true
  · intro hFew
    obtain ⟨more, hMore⟩ := Nat.exists_eq_add_of_lt hFew
    have hLimit : Tables.maxTrial = (more + 1) + (count + 2) := by omega
    have hShift : listingTables.action 4 4 = .shift 7 := by decide +kernel
    have hAct : listingTables.act 4 (more + 1) [4] = some [7, 4] := by
      simp only [Tables.act, List.headD_cons, hShift]
    rw [hLimit, Tables.act_of_reductions hRow, hAct, Option.isSome_some]

/-- No `b` can be behind an `a`, or at the start. -/
theorem action_row (count : Nat) : listingTables.action ((List.replicate count 1).headD 0) 3 = .error := by
  cases count with
  | zero => decide +kernel
  | succ count => exact show listingTables.action 1 3 = .error by decide +kernel

theorem not_takes_row (count : Nat) : listingTables.takes (List.replicate count 1) 3 = false := by
  simp only [Tables.takes, Tables.after?, Tables.maxTrial, Tables.act, action_row, Option.isSome_none]

theorem not_shifts_row (count : Nat) : ¬ listingTables.Shifts (List.replicate count 1) 3 := by
  rintro ⟨steps, last, next, hReductions, hShift⟩
  obtain rfl := Tables.eq_of_reductions_of_error (action_row count) hReductions
  exact absurd (hShift.symm.trans (action_row count)) (by simp)

/-- Only the `b` is skipped where the `c` behind it can follow after as few pops as it can at all. -/
theorem isCheapest_rowOf {count popped : Nat} {Open : Nat → Nat → Prop} (hOpen : Open 1 popped)
    (hFew : popped ≤ 3) (hBound : popped ≤ count)
    (hLeast : ∀ k d, Open k d → d ≤ count ∧ 1 ≤ k ∧ (k = 1 → popped ≤ d)) :
    ResumePoint.IsCheapest (rowOf count).popCost Open 1 popped := by
  refine ⟨hOpen, fun k d h => ?_⟩
  obtain ⟨hPopped, hSkipped, hMore⟩ := hLeast k d h
  rw [popCost_rowOf hPopped, popCost_rowOf hBound]
  simp only [Prod.Lex.toLex_le_toLex', ResumePoint.skipCost]
  omega

/-- A parse of letters in a list. -/
def listingJob : ParseJob := (parser listingTables).job .empty

theorem isInvalid_listingJob : listingJob.isInvalid 4 = false := by decide +kernel

variable {count : Nat}

/-- A parser could skip the `b` alone, however many `a` there are. -/
theorem mayResume_rowOf (hSome : 2 ≤ count) :
    ResumePoint.IsCheapest (rowOf count).popCost (listingJob.MayResume (rowOf count) (restOf count)) 1 0 := by
  refine isCheapest_rowOf ⟨Nat.zero_le _, _, rfl, isInvalid_listingJob, ?_⟩ (by omega) (by omega) ?_
  · obtain ⟨more, rfl⟩ := Nat.exists_eq_add_of_le' hSome
    have hShift : listingTables.action 4 4 = .shift 7 := by decide +kernel
    rw [List.drop_zero, states_rowOf]
    exact ⟨_, _, 7, reductions_row more, hShift⟩
  · rintro k d ⟨hPopped, t, hToken, -, hShifts⟩
    rw [length_solid_rowOf] at hPopped
    rw [states_rowOf, List.drop_replicate] at hShifts
    refine ⟨hPopped, Nat.one_le_iff_ne_zero.mpr ?_, fun _ => Nat.zero_le _⟩
    rintro rfl
    obtain rfl := Option.some.inj hToken
    exact not_shifts_row _ hShifts

/-- Recovery pops as many `a` as are too many for a trial. -/
theorem canResume_rowOf (hMany : count = Tables.maxTrial + 1) :
    ResumePoint.IsCheapest (rowOf count).popCost (listingJob.CanResume (rowOf count) (restOf count)) 1 2 := by
  have hLarge : 4 ≤ count := by simp [hMany, Tables.maxTrial]
  have hTakes (d : Nat) (hFew : d + 2 ≤ count) :
      listingTables.takes (List.replicate (count - d) 1) 4 = true ↔ 2 ≤ d := by
    obtain ⟨more, hMore⟩ := Nat.exists_eq_add_of_le' (show 2 ≤ count - d by omega)
    rw [hMore, takes_row_iff]
    omega
  refine isCheapest_rowOf ⟨?_, _, rfl, isInvalid_listingJob, ?_⟩ (by omega) (by omega) ?_
  · rw [length_solid_rowOf]
    omega
  · rw [states_rowOf, List.drop_replicate]
    exact (hTakes 2 hLarge).mpr (Nat.le_refl 2)
  · rintro k d ⟨hPopped, t, hToken, -, hTaken⟩
    rw [length_solid_rowOf] at hPopped
    rw [states_rowOf, List.drop_replicate] at hTaken
    refine ⟨hPopped, Nat.one_le_iff_ne_zero.mpr ?_, ?_⟩
    · rintro rfl
      obtain rfl := Option.some.inj hToken
      exact absurd (hTaken.symm.trans (not_takes_row _)) Bool.noConfusion
    · rintro rfl
      obtain rfl := Option.some.inj hToken
      by_cases hFew : d + 2 ≤ count
      · exact (hTakes d hFew).mp hTaken
      · omega

/-- The costs of a row are small. -/
theorem counted_rowOf (hFew : count + 6 < Offset.bound) :
    ResumePoint.Counted (rowOf count).popCosts (restOf count).length := by
  intro k hSkipped cost hMem
  rw [← Array.mem_toList_iff, ParseStack.toList_popCosts, length_solid_rowOf] at hMem
  obtain ⟨d, hPopped, rfl⟩ := List.mem_map.mp hMem
  have hBound := Nat.le_of_lt_succ (List.mem_range.mp hPopped)
  have hRest : (restOf count).length = 3 := rfl
  rw [popCost_rowOf hBound, ResumePoint.skipCost]
  omega

/-- So recovery does not skip the `b` alone where there are too many `a`. -/
theorem resumePoint?_rowOf (hMany : count = Tables.maxTrial + 1) :
    listingJob.resumePoint? (rowOf count) (restOf count) = some (1, 2) := by
  have hSome : 0 < (rowOf count).popCosts.size := by simp [ParseStack.size_popCosts]
  have hRising : ResumePoint.Rising (rowOf count).popCosts :=
    (rowOf count).popCosts_increasing.imp Nat.le_of_lt
  have hCounted := counted_rowOf (show count + 6 < Offset.bound by simp [hMany, Tables.maxTrial, Offset.bound])
  rw [ParseJob.resumePoint?_eq, ResumePoint.best?_eq_some_iff hSome hRising hCounted,
    ← ParseJob.isCheapest_iff]
  exact canResume_rowOf hMany

end Letters

open ResumePoint Letters in
/-- Costs that are too high to be counted go around, so a pair that costs more may be found first. And a
token that is behind more reductions than a trial has room for is taken for one that cannot be shifted:
behind 10001 letters that are still to be put in a list, two of them are popped, although only the `b`
would have to be skipped. -/
theorem not_always_cheapest :
    (best? #[0, Offset.bound - 1] 2 (fun _ popped => popped == 1) = some (1, 1)
      ∧ IsCheapest (#[0, Offset.bound - 1].getD · 0)
        (Accepted #[0, Offset.bound - 1] 2 fun _ popped => popped == 1) 0 1)
    ∧ listingTables.Built
    ∧ IsCheapest (rowOf 10001).popCost (listingJob.MayResume (rowOf 10001) (restOf 10001)) 1 0
    ∧ listingJob.resumePoint? (rowOf 10001) (restOf 10001) = some (1, 2) := by
  refine ⟨⟨by decide +kernel, ⟨⟨by decide, by decide, rfl⟩, ?_⟩⟩, built_listing,
    mayResume_rowOf (by omega), resumePoint?_rowOf rfl⟩
  rintro k d ⟨hSkipped, hPopped, hAccept⟩
  obtain rfl : d = 1 := by simpa using hAccept
  simp only [Prod.Lex.toLex_le_toLex', skipCost]
  omega

end IncrementalParsing
