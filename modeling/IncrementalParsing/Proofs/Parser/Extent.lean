import IncrementalParsing.Proofs.Parser.Widths

/-! How much of the text a parse has at hand. A move reads a token behind it, or takes one over from the
previous tree, or makes it no larger. So what a root takes up lies within the text, and what was read for
it as well, if the lexer looks no further. -/
namespace IncrementalParsing
open Subtree

namespace ParseJob
variable {job : ParseJob} {kinds : Kinds} {s r : ParseState}

/-- The subtrees on the stack and those that are pending, in the order of the text. -/
def hand (s : ParseState) : List Subtree := s.stack.material ++ s.pending

/-- Popped entries that are skipped with what stands behind them take up no more than before. -/
theorem SizedBy.tighter_cut (h : SizedBy kinds s) (depth : Nat) {ts : List Subtree}
    (hTokens : ∀ u ∈ ts, All (Measured kinds) u) :
    Tighter (if ((s.stack.pop depth).1 ++ ts).isEmpty then (s.stack.pop depth).2.noteDecision
      else (s.stack.pop depth).2.noteDecision.pushSkipped job.tables
        ((s.stack.pop depth).1 ++ ts)).material (s.stack.material ++ ts) := by
  obtain ⟨hPopped, -, hPieces, -⟩ := ParseStack.sound_pop h.sound depth
  have hWhole : Tighter ((s.stack.pop depth).2.material ++ ((s.stack.pop depth).1 ++ ts))
      (s.stack.material ++ ts) := by
    rw [← List.append_assoc, ParseStack.material_pop]
    exact (ParseStack.tighter_closeError _).append (.refl ts)
  split
  · rename_i hNone
    rw [List.isEmpty_iff.mp hNone, List.append_nil] at hWhole
    exact hWhole
  · refine (ParseStack.tighter_pushSkipped job.tables (ParseStack.sound_noteDecision hPopped) ?_).trans hWhole
    simpa [or_imp, forall_and] using And.intro hPieces hTokens

/-- However a parse ends, its stack takes up no more than before. -/
theorem SizedBy.tighter_outcome (h : SizedBy kinds s) {accepted : Bool} {stack : ParseStack}
    (hOutcome : job.Outcome s accepted stack) : Tighter stack.material s.stack.material := by
  cases hOutcome with
  | accepted => exact .refl _
  | abandoned =>
      obtain ⟨hPopped, -, hPieces, -⟩ := ParseStack.sound_popAll h.sound
      have hWhole : Tighter (s.stack.popAll.2.material ++ s.stack.popAll.1) s.stack.material := by
        rw [ParseStack.material_popAll]
        exact ParseStack.tighter_closeError _
      split
      · rename_i hEmpty
        rw [List.isEmpty_iff.mp hEmpty, List.append_nil] at hWhole
        exact hWhole
      · exact (ParseStack.tighter_pushSkipped job.tables hPopped hPieces).trans hWhole

/-- What a move does to what is at hand: it takes up no more, or one more token is read, or one is taken
over from the queue. -/
inductive Grows (job : ParseJob) (s r : ParseState) : Prop
  | less (hTighter : Tighter (hand r) (hand s))
      (hQueue : ∀ q, r.queue = some q → ∃ p, s.queue = some p ∧ p.Behind q)
  | read (serial : Nat) (hHand : hand r = hand s ++ [job.readAt serial (width (hand s))])
      (hQueue : r.queue = s.queue)
  | offer (p : ReuseQueue) (t : Subtree) (ts : List Subtree) (hHand : hand r = hand s ++ [t])
      (hOld : s.queue = some p) (hAhead : p.ahead = t :: ts) (hStart : p.map p.start = width (hand s))
      (hReusable : p.isReusable p.start t = true) (hQueue : ∀ q, r.queue = some q → p.Behind q)

theorem Grows.of_same_queue (hTighter : Tighter (hand r) (hand s)) (hQueue : r.queue = s.queue) :
    job.Grows s r :=
  .less hTighter fun q hSome => ⟨q, hQueue ▸ hSome, .refl q⟩

theorem SizedBy.grows_skip (h : SizedBy kinds s) {t : Subtree} {ts : List Subtree}
    (hPending : s.pending = t :: ts) :
    job.Grows s { s with stack := s.stack.pushSkipped job.tables [t], pending := ts } := by
  refine .of_same_queue ?_ rfl
  have hToken := h.pending t (by simp [hPending])
  rw [hand, hand, hPending, List.append_cons]
  exact (ParseStack.tighter_pushSkipped job.tables h.sound (by simpa using hToken)).append (.refl ts)

/-- The decision for a reduction was read already, for the subtree in front. -/
theorem SizedBy.tighter_reduce (hSuits : job.Suits kinds) (h : SizedBy kinds s) {t : Subtree}
    {ts : List Subtree} (hPending : s.pending = t :: ts) (info : Production) {lookaheadStop : Nat}
    (hSeen : lookaheadStop = s.stack.stop + (t.leftmost 0).2 + (t.leftmost 0).1.lookahead) :
    Tighter (hand { s with stack := (s.stack.reduce job.tables info lookaheadStop).2 }) (hand s) := by
  obtain ⟨hSound, hStop, hReach⟩ := hSuits.reduce h.sound info lookaheadStop
  have hFront := leftmost_le t (h.pending t (by simp [hPending])) 0
  rw [h.sound.stop_eq_width] at hSeen
  rw [hSound.stop_eq_width, h.sound.stop_eq_width] at hStop
  simp only [hand, hPending]
  refine ⟨?_, ?_⟩
  · rw [width_append, width_append]
    omega
  · rw [reach_append, reach_append, reach_cons]
    omega

/-- One move, as far as what is at hand is concerned. -/
theorem SizedBy.grows (hSuits : job.Suits kinds) (h : SizedBy kinds s) (hMove : job.Move s r) :
    job.Grows s r := by
  cases hMove with
  | note => exact .of_same_queue (.refl _) rfl
  | read hLeaves hLast =>
      refine .read s.stack.nextSerial ?_ rfl
      have hFront : s.stack.stop + width s.pending = width (hand s) := by
        rw [hand, width_append, ← h.sound.stop_eq_width]
      rw [← hFront, hand, hand, List.append_assoc]
      rfl
  | offer q t ts hPending hQueue hAhead hStart hReusable =>
      refine .offer q t ts ?_ hQueue hAhead ?_ hReusable fun p hSome => ?_
      · simp only [hand, hPending, List.append_nil]
      · rw [hStart, h.sound.stop_eq_width, hand, hPending, List.append_nil]
      · obtain rfl := Option.some.inj hSome
        exact q.behind_of_offer t
  | advance q p hPending hQueue hBehind =>
      refine .less (.refl _) fun p' hSome => ⟨q, hQueue, ?_⟩
      obtain rfl := Option.some.inj hSome
      exact hBehind
  | drop t hPending =>
      refine .of_same_queue ?_ rfl
      rw [hand, hand, hPending]
      exact (Tighter.refl _).append ⟨Nat.zero_le _, Nat.zero_le _⟩
  | insert ts nextSerial hLeaves hInserted =>
      have hNone : Tighter ts [] := tighter_nil fun u hMem => by
        obtain ⟨serial, terminal, -, rfl⟩ := hInserted u hMem
        exact ⟨rfl, rfl⟩
      exact .of_same_queue ((Tighter.refl _).append (hNone.append (.refl s.pending))) rfl
  | shift t ts next hPending =>
      refine .of_same_queue ?_ rfl
      rw [hand, hand, hPending, List.append_cons]
      exact (ParseStack.tighter_push ..).append (.refl ts)
  | reuse t ts next hPending =>
      refine .less ?_ fun p hSome => ?_
      · rw [hand, hand, hPending, List.append_cons]
        exact (ParseStack.tighter_push ..).append (.refl ts)
      · obtain ⟨q, hQueue, rfl⟩ := Option.map_eq_some_iff.mp hSome
        exact ⟨q, hQueue, .pass (.refl q)⟩
  | reduce t ts rule info lookaheadStop hPending hReduce hRule hSeen =>
      exact .of_same_queue (h.tighter_reduce hSuits hPending info hSeen) rfl
  | skip t ts hPending => exact h.grows_skip hPending
  | cut depth ts u us hPending =>
      refine .of_same_queue ?_ rfl
      have hTokens : ∀ v ∈ ts, All (Measured kinds) v :=
        fun v hMem => h.pending v (by rw [hPending]; exact List.mem_append_left _ hMem)
      rw [hand, hand, hPending, ← List.append_assoc]
      exact (h.tighter_cut depth hTokens).append (.refl _)

/-- A way to tell how much of the text subtrees take up, with what a token that is read may add to it. -/
structure Extent (job : ParseJob) (extent : List Subtree → Nat) (bound : Nat) : Prop where
  empty : extent [] ≤ bound
  mono : ∀ {ts us : List Subtree}, Tighter ts us → extent ts ≤ extent us
  append : ∀ {ts : List Subtree} {u : Subtree}, extent ts ≤ bound → width ts + extent [u] ≤ bound →
    extent (ts ++ [u]) ≤ bound
  read : ∀ (serial : Nat) {position : Nat}, position ≤ job.text.size →
    position + extent [job.readAt serial position] ≤ bound

/-- Tokens that end where offsets are lie within the text. -/
theorem extent_width (hRange : job.lexer.InRange) : job.Extent width job.text.size where
  empty := Nat.zero_le _
  mono hTighter := hTighter.width
  append _ hNext := by rwa [width_append]
  read serial position hInside := by
    rw [width_cons, width_nil, Nat.add_zero]
    rcases readAt_of_le hRange serial hInside with ⟨t, hToken, hRead⟩ | ⟨-, hRead⟩
    · rw [hRead]
      exact (token?_width hToken).2
    · rw [hRead]
      change position + (job.text.size - position + 0) ≤ _
      omega

section Confined
variable {extent : List Subtree → Nat} {bound : Nat}

/-- Whatever the queue will offer takes up no more than the bound, from where it lies now. -/
def Offers (extent : List Subtree → Nat) (bound : Nat) (q : ReuseQueue) : Prop :=
  ∀ r, q.Behind r → ∀ t ts, r.ahead = t :: ts → r.isReusable r.start t = true →
    r.map r.start + extent [t] ≤ bound

theorem Offers.behind {q p : ReuseQueue} (h : Offers extent bound q) (hBehind : q.Behind p) :
    Offers extent bound p :=
  fun r hLater => h r (hBehind.trans hLater)

/-- All that is at hand, or will be taken over, takes up no more than the bound. -/
structure Confined (extent : List Subtree → Nat) (bound : Nat) (s : ParseState) : Prop where
  queue : ∀ q, s.queue = some q → Offers extent bound q
  fits : extent (hand s) ≤ bound

theorem Confined.grows (hExtent : job.Extent extent bound) (hGrows : job.Grows s r)
    (hInside : width (hand s) ≤ job.text.size) (h : Confined extent bound s) : Confined extent bound r := by
  cases hGrows with
  | less hTighter hQueue =>
      refine ⟨fun q hSome => ?_, (hExtent.mono hTighter).trans h.fits⟩
      obtain ⟨p, hOld, hBehind⟩ := hQueue q hSome
      exact (h.queue p hOld).behind hBehind
  | read serial hHand hQueue =>
      refine ⟨fun q hSome => h.queue q (hQueue ▸ hSome), ?_⟩
      rw [hHand]
      exact hExtent.append h.fits (hExtent.read serial hInside)
  | offer p t ts hHand hOld hAhead hStart hReusable hQueue =>
      refine ⟨fun q hSome => (h.queue p hOld).behind (hQueue q hSome), ?_⟩
      rw [hHand]
      exact hExtent.append h.fits (hStart ▸ h.queue p hOld p (.refl p) t ts hAhead hReusable)

end Confined

/-- Whatever is taken apart, the root of a parse is as wide as the text, and what is below it is measured. -/
theorem Suits.measured_parseWithin (hSuits : job.Suits kinds) {queue : Option ReuseQueue}
    (hQueue : ∀ q, queue = some q → ∀ u ∈ q.ahead, All (Measured kinds) u) {limit nextSerial : Nat}
    {made : Subtree × Nat} (hParse : job.parseWithin limit queue nextSerial = some made) :
    made.1.padding = 0 ∧ made.1.total = job.text.size ∧ ∀ u ∈ made.1.children, All (Measured kinds) u := by
  obtain ⟨r, accepted, stack, hSized, hOutcome, rfl⟩ :=
    parseWithin_keeps (P := fun s => SizedBy kinds s) (fun hMove h => h.move hSuits hMove)
      (fun _ h => h.skip job.tables rfl) (sizedBy_start hQueue nextSerial) hParse
  exact ⟨rfl, Nat.zero_add _, (ParseStack.tighter_toRoot job.tables (hSized.outcome hOutcome) _ accepted).1⟩

/-- What the root of a parse holds takes up no more than a move may add to, and what the queue offers. -/
theorem Suits.extent_parseWithin (hSuits : job.Suits kinds) (hRange : job.lexer.InRange)
    {extent : List Subtree → Nat} {bound : Nat} (hExtent : job.Extent extent bound) {queue : Option ReuseQueue}
    (hQueue : ∀ q, queue = some q → (∀ u ∈ q.ahead, All (Measured kinds) u)
      ∧ Offers width job.text.size q ∧ Offers extent bound q) {limit nextSerial : Nat} {made : Subtree × Nat}
    (hParse : job.parseWithin limit queue nextSerial = some made) : extent made.1.children ≤ bound := by
  have hStart : SizedBy kinds (start queue nextSerial) ∧ Confined width job.text.size (start queue nextSerial)
      ∧ Confined extent bound (start queue nextSerial) :=
    ⟨sizedBy_start (fun q hSome => (hQueue q hSome).1) nextSerial,
      ⟨fun q hSome => (hQueue q hSome).2.1, Nat.zero_le _⟩,
      ⟨fun q hSome => (hQueue q hSome).2.2, hExtent.empty⟩⟩
  have hGrow : ∀ {s r}, job.Grows s r → Confined width job.text.size s ∧ Confined extent bound s →
      Confined width job.text.size r ∧ Confined extent bound r :=
    fun hGrows h => ⟨h.1.grows (extent_width hRange) hGrows h.1.fits, h.2.grows hExtent hGrows h.1.fits⟩
  obtain ⟨r, accepted, stack, ⟨hSized, -, hConfined⟩, hOutcome, rfl⟩ :=
    parseWithin_keeps (P := fun s => SizedBy kinds s ∧ Confined width job.text.size s ∧ Confined extent bound s)
      (fun hMove h => ⟨h.1.move hSuits hMove, hGrow (h.1.grows hSuits hMove) h.2⟩)
      (fun _ h => ⟨h.1.skip job.tables rfl, hGrow (h.1.grows_skip rfl) h.2⟩) hStart hParse
  have hRoot := (ParseStack.tighter_toRoot job.tables (hSized.outcome hOutcome) job.text.size accepted).2
  have hHand : Tighter stack.material (hand r) := by
    have hPending : Tighter [] r.pending := ⟨Nat.zero_le _, Nat.zero_le _⟩
    simpa [hand] using (hSized.tighter_outcome hOutcome).append hPending
  exact (hExtent.mono (hRoot.trans hHand)).trans hConfined.fits

/-- The root of a parse holds no more than the text, if tokens end where offsets are. -/
theorem Suits.width_parseWithin (hSuits : job.Suits kinds) (hRange : job.lexer.InRange)
    {queue : Option ReuseQueue} (hQueue : ∀ q, queue = some q → (∀ u ∈ q.ahead, All (Measured kinds) u)
      ∧ Offers width job.text.size q) {limit nextSerial : Nat} {made : Subtree × Nat}
    (hParse : job.parseWithin limit queue nextSerial = some made) : width made.1.children ≤ job.text.size :=
  hSuits.extent_parseWithin hRange (extent_width hRange)
    (fun q hSome => ⟨(hQueue q hSome).1, (hQueue q hSome).2, (hQueue q hSome).2⟩) hParse

end ParseJob
end IncrementalParsing
