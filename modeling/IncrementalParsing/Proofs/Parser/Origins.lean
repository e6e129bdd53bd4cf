import IncrementalParsing.Proofs.Parser.Sights
import IncrementalParsing.Proofs.Tree.Identities

/-! Where the nodes of a tree come from. Every node without damage that is no token was made by a reduction
of the parse, at its place. -/
namespace IncrementalParsing
open Subtree

/-- As long as no numbers are given out, no nodes are made. -/
theorem Subtree.Renews.sublist {p q : Stock} (h : Renews p q) (hSame : q.1 = p.1) : q.2.Sublist p.2 := by
  induction h with
  | refl => exact List.Sublist.refl _
  | tail hBefore hStep ih =>
      have hLe := Renews.le hBefore
      cases hStep with
      | drop hLess => exact hLess.trans (ih hSame)
      | make => exact absurd hSame (Nat.ne_of_gt (Nat.lt_succ_of_le hLe))

namespace ParseStack
variable {Q : Nat × Subtree → Prop} {kinds : Kinds} {t : Tables} {s : ParseStack} {ts us : List Subtree}

/-- The nodes on a stack and of subtrees behind it all have a property at their places. -/
def Everywhere (Q : Nat × Subtree → Prop) (s : ParseStack) (ts : List Subtree) : Prop :=
  ∀ x ∈ (s.stock ts).2, Q x

/-- What holds of all nodes still does where each is an old one or was there. -/
theorem Everywhere.of_renews {r : ParseStack} (h : s.Everywhere Q ts)
    (hRenews : Renews (s.stock ts) (r.stock us)) (hSerial : r.nextSerial = s.nextSerial) :
    r.Everywhere Q us :=
  fun x hMem => h x ((hRenews.sublist hSerial).subset hMem)

theorem Everywhere.withSerial (h : s.Everywhere Q ts) (nextSerial : Nat) :
    ({ s with nextSerial } : ParseStack).Everywhere Q ts := h

theorem Everywhere.noteDecision (h : s.Everywhere Q ts) : s.noteDecision.Everywhere Q ts := h

/-- Skipped pieces keep what holds of them when they go below an `ERROR` node. -/
theorem Everywhere.pushSkipped (h : s.Everywhere Q (us ++ ts)) (hSound : s.Sound kinds)
    (hPieces : ∀ u ∈ us, All (Measured kinds) u) : (s.pushSkipped t us).Everywhere Q ts :=
  h.of_renews (renews_pushSkipped t hSound hPieces ts) (nextSerial_pushSkipped t s us)

/-- A property that tokens have and what is damaged. -/
structure Ready (Q : Nat × Subtree → Prop) : Prop where
  token : ∀ x, x.2.IsToken → Q x
  damaged : ∀ x, x.2.hasError = true → Q x

section Ready
variable (hReady : Ready Q)
include hReady

theorem ready_of_tokens (start : Nat) (hTokens : ∀ u ∈ us, u.IsToken) :
    ∀ x ∈ placedAll start us, Q x := by
  induction us generalizing start with
  | nil => simp
  | cons u us ih =>
      obtain ⟨hToken, hRest⟩ := List.forall_mem_cons.mp hTokens
      rw [placedAll_cons, placed_eq, List.isEmpty_iff.mp hToken.leaf, placedAll_nil, List.singleton_append,
        List.forall_mem_cons]
      exact ⟨hReady.token _ (isToken_withField.mpr hToken), ih _ hRest⟩

/-- Tokens can be put on top of anything, since they are ready. -/
theorem Everywhere.tokens (h : s.Everywhere Q ts) (hTokens : ∀ u ∈ us, u.IsToken) :
    s.Everywhere Q (ts ++ us) := by
  intro x hMem
  rw [stock, ← List.append_assoc, placedAll_append, List.mem_append] at hMem
  exact hMem.elim (h x) (ready_of_tokens hReady _ hTokens x)

/-- Tokens may be skipped along with what is behind the stack. -/
theorem Everywhere.skip (h : s.Everywhere Q us) (hSound : s.Sound kinds)
    (hPieces : ∀ u ∈ us, All (Measured kinds) u)
    (hTokens : ∀ u ∈ ts, u.IsToken ∧ All (Measured kinds) u) :
    (s.pushSkipped t (us ++ ts)).Everywhere Q [] := by
  have hAll := h.tokens hReady fun u hMem => (hTokens u hMem).1
  rw [← List.append_nil (us ++ ts)] at hAll
  refine hAll.pushSkipped hSound fun u hMem => ?_
  exact (List.mem_append.mp hMem).elim (hPieces u) fun hToken => (hTokens u hToken).2

theorem Everywhere.skipTokens (h : s.Everywhere Q []) (hSound : s.Sound kinds)
    (hTokens : ∀ u ∈ ts, u.IsToken ∧ All (Measured kinds) u) :
    (s.pushSkipped t ts).Everywhere Q [] := by
  have hSkipped := @Everywhere.skip Q kinds t s ts [] hReady h hSound (by simp) hTokens
  rwa [List.nil_append] at hSkipped

theorem Everywhere.closeError (h : s.Everywhere Q ts) : s.closeError.Everywhere Q ts := by
  rcases s.stock_closeError ts with hSame | ⟨front, x, back, hStock, hAfter, -, hError⟩
  · rwa [hSame]
  · intro y hMem
    rw [Everywhere, hStock] at h
    rw [hAfter, List.mem_append, List.mem_cons] at hMem
    rcases hMem with hMem | rfl | hMem
    · exact h y (List.mem_append_left _ hMem)
    · exact hReady.damaged y hError
    · exact h y (List.mem_append_right _ hMem)

/-- A piece that is pushed moves from the hand to the stack. -/
theorem Everywhere.push (h : s.Everywhere Q (u :: ts)) (next : StateId) :
    (s.push next u).Everywhere Q ts := by
  rw [Everywhere, ParseStack.push, stock_stacked openError_closeError]
  exact h.closeError hReady

theorem Everywhere.putBack (trailing : List StackEntry) (h : s.Everywhere Q (content trailing ++ ts)) :
    (trailing.foldr (fun entry s => s.closeError.pushAside entry.subtree) s).Everywhere Q ts := by
  induction trailing generalizing ts with
  | nil => exact h
  | cons e es ih =>
      rw [content_cons, List.append_assoc] at h
      have hPushed := (ih h).closeError hReady
      rw [List.foldr_cons, Everywhere, pushAside, stock_stacked openError_closeError]
      exact hPushed

/-- Popped entries move from the stack to the hand. -/
theorem Everywhere.pop (h : s.Everywhere Q ts) (depth : Nat) :
    (s.pop depth).2.Everywhere Q ((s.pop depth).1 ++ ts) := by
  rw [Everywhere, stock_pop]
  exact h.closeError hReady

theorem Everywhere.popAll (h : s.Everywhere Q ts) : s.popAll.2.Everywhere Q (s.popAll.1 ++ ts) := by
  rw [Everywhere, stock_popAll]
  exact h.closeError hReady

/-- A reduction that puts its node on the stack makes nothing else. -/
theorem Everywhere.reduce (h : s.Everywhere Q ts) (hSound : s.Sound kinds)
    (hHidden : ∀ k, t.isHidden k = true → kinds.spliced k = true)
    (hError : t.isHidden errorSymbol = false) {info : Production} {lookaheadStop : Nat}
    (hReduced : (s.reduce t info lookaheadStop).1 = true)
    (hNode : Q (topStop (s.closeError.uncovered info).entries,
      (s.closeError.reduced t info lookaheadStop).withField none)) :
    (s.reduce t info lookaheadStop).2.Everywhere Q ts := by
  have hClosed := h.closeError hReady
  obtain ⟨front, rest, back, hStock, hAfter, hLess⟩ := stock_reduced (sound_closeError hSound).1
    openError_closeError hHidden hError info lookaheadStop ts
  have hBase : (s.closeError.uncovered info).Everywhere Q (s.closeError.reduced t info lookaheadStop
      :: (content (s.closeError.entries.takeWhile (·.extra)) ++ ts)) := by
    intro x hMem
    rw [Everywhere, hStock] at hClosed
    rw [hAfter, List.mem_append, List.mem_cons] at hMem
    rcases hMem with hMem | rfl | hMem
    · exact hClosed x (List.mem_append_left _ hMem)
    · exact hNode
    · exact hClosed x (List.mem_append_right _ (hLess.subset hMem))
  rw [reduce_eq] at hReduced ⊢
  dsimp only at hReduced ⊢
  split
  · exact (hBase.push hReady _).putBack hReady _
  · rename_i hGoto
    simp [hGoto] at hReduced

/-- The nodes below the root have the property if those on the stack have it. -/
theorem Everywhere.toRoot (h : s.Everywhere Q []) (hSound : s.Sound kinds)
    (hSpliced : kinds.spliced = t.splices) (hStart : t.start ≠ errorSymbol)
    (hError : t.isHidden errorSymbol = false) (length : Nat) (accepted : Bool) :
    ∀ x ∈ placedAll 0 (s.toRoot t length accepted).1.children, Q x := fun x hMem =>
  h.closeError hReady x ((placedAll_toRoot hSound hSpliced hStart hError length accepted).subset hMem)

end Ready
end ParseStack

namespace ParseJob
variable {language : Language} {g : Grammar} {m : Automaton} {job : ParseJob} {s : ParseState}
  {lookahead : Lookahead}

/-- A step reduces on the lookahead. The node records the state of the entries that are left, and goes on
top of them with the state that the tables lead to. -/
structure Reduces (job : ParseJob) (s : ParseState) (lookahead : Lookahead) (node : Subtree)
    (below : List StackEntry) (r : ParseState) : Prop where
  rule : ∃ rule, job.tables.action s.stack.state lookahead.subtree.kind = .reduce rule
  step : job.step s lookahead = .next lookahead r
  state : node.info.state = some (ParseStack.topState below)
  entry : ∃ entry, r.stack.Tops entry below ∧ entry.subtree.withField none = node
    ∧ job.tables.goto (ParseStack.topState below) node.kind = some entry.state
  level : r.stack.decidedLevel ≤ ParseStack.topLevel below
  stop : r.stack.stop = s.stack.stop

/-- A node at its place was made by a reduction on the way from a configuration, unless it is a token or
damaged. -/
def Originates (job : ParseJob) (from' : ParseState × Lookahead) (x : Nat × Subtree) : Prop :=
  x.2.isLeaf = false → x.2.hasError = false → ∃ s below r, job.Reaches from' s
    ∧ job.Reduces s.1 s.2 x.2 below r ∧ ParseStack.topStop below = x.1

/-- Fetching the next piece of input makes no node on the stack. -/
theorem everywhere_nextInput {Q : Nat × Subtree → Prop} (h : s.stack.Everywhere Q []) :
    (job.nextInput s).2.stack.Everywhere Q [] := by
  obtain ⟨nextSerial, hStack⟩ := job.stack_nextInput s
  rw [hStack]
  exact h.withSerial nextSerial

/-- A reduction on a token puts its node on the stack. -/
theorem reduces_of_makes (hKnown : job.Assured g m s lookahead) (hLeaf : lookahead.subtree.isLeaf = true)
    {start : Nat} {pieces : List Subtree} {node : Subtree} (h : job.Makes (s, lookahead) start pieces node)
    {next : Lookahead} {r : ParseState} (hStep : job.step s lookahead = .next next r) :
    ∃ below, job.Reduces s lookahead node below r ∧ ParseStack.topStop below = start := by
  obtain ⟨rule, info, hReduce, hRule, -, hStart, hNode⟩ := h.rule
  obtain ⟨info', hSame, hReduction⟩ := hKnown.reducible.step lookahead rule hReduce
  obtain ⟨info'', hOther, -, -, hReduced⟩ := hKnown.reducible.stack _ _ hReduce
  obtain rfl := Option.some.inj (hRule.symm.trans hSame)
  obtain rfl := Option.some.inj (hRule.symm.trans hOther)
  obtain ⟨trailing, state, hEntries, hExtra, -, hGoto, hOpen, hLevel⟩ :=
    ParseStack.exists_entries_reduce (hReduced (Configuration.seen (s, lookahead)))
  obtain ⟨rfl, rfl⟩ := ParseStep.next.inj (hStep.symm.trans hReduction)
  refine ⟨(s.stack.closeError.uncovered info).entries, ?_, ?_⟩
  · exact {
      rule := ⟨rule, kind_leftmost_of_isLeaf hLeaf ▸ hReduce⟩
      step := hReduction
      state := by rw [hNode]; rfl
      entry := ⟨_, ⟨hOpen, trailing, hEntries, hExtra, rfl⟩, by rw [hNode]; rfl, by rw [hNode]; exact hGoto⟩
      level := hLevel.trans_le (Nat.min_le_right _ _)
      stop := hKnown.sized.stop_reduce hKnown.generated hKnown.proper info _ }
  · rw [ParseStack.entries_uncovered, hStart]

/-- Cutting the stack makes no node apart from the `ERROR` node it leaves behind. -/
theorem everywhere_cutAt {Q : Nat × Subtree → Prop} (hReady : ParseStack.Ready Q) {stack : ParseStack}
    (h : stack.Everywhere Q []) (hSound : stack.Sound job.tables.widths) (depth : Nat) {ts : List Subtree}
    (hTokens : ∀ u ∈ ts, u.IsToken) : (job.cutAt stack depth ts).Everywhere Q [] := by
  obtain ⟨hPopped, -, hPieces, -⟩ := ParseStack.sound_pop hSound depth
  have hBelow := h.pop hReady depth
  rw [List.append_nil] at hBelow
  unfold cutAt
  split
  · rename_i hNone
    rw [(List.append_eq_nil_iff.mp (List.isEmpty_iff.mp hNone)).1] at hBelow
    exact hBelow.noteDecision
  · exact hBelow.noteDecision.skip hReady (ParseStack.sound_noteDecision hPopped) hPieces
      fun v hMem => ⟨hTokens v hMem, measured_widths_of_isLeaf (hTokens v hMem).leaf⟩

/-- Giving up throws the whole stack below one `ERROR` node. -/
theorem everywhere_giveUp {Q : Nat × Subtree → Prop} (hReady : ParseStack.Ready Q) {stack : ParseStack}
    (h : stack.Everywhere Q []) (hSound : stack.Sound job.tables.widths) {last : ParseStack}
    (hLast : last = if stack.popAll.1.isEmpty then stack.popAll.2
      else stack.popAll.2.pushSkipped job.tables stack.popAll.1) :
    last.Everywhere Q [] ∧ last.Sound job.tables.widths := by
  obtain ⟨hPopped, -, hPieces, -⟩ := ParseStack.sound_popAll hSound
  have hBelow := h.popAll hReady
  rw [hLast]
  split
  · rename_i hNone
    rw [List.isEmpty_iff.mp hNone] at hBelow
    exact ⟨hBelow, hPopped⟩
  · exact ⟨hBelow.pushSkipped hPopped hPieces, (ParseStack.sound_pushSkipped job.tables hPopped hPieces).1⟩

section Steps
variable {Q : Nat × Subtree → Prop} (hReady : ParseStack.Ready Q) (hKnown : job.Assured g m s lookahead)
  (hSupplied : job.Supplied g m (s.facing lookahead)) (h : s.stack.Everywhere Q [])
include hReady hKnown h

include hSupplied in
/-- What is done about a token makes no nodes but tokens and damage, besides reductions. -/
theorem everywhere_token (hLeaf : lookahead.subtree.isLeaf = true)
    (hOther : ∀ rule, job.tables.action s.stack.state lookahead.subtree.kind ≠ .reduce rule)
    {next : Lookahead} {r : ParseState} (hEffect : job.Effect s lookahead (.next next r)) :
    r.stack.Everywhere Q [] := by
  have hSound : s.stack.Sound job.tables.widths := hKnown.sized.sound
  have hLeaves : ∀ u ∈ lookahead.subtree :: s.pending, u.isLeaf = true :=
    List.forall_mem_cons.mpr ⟨hLeaf, hKnown.along.tidy.pending⟩
  have hInFront : ∀ u ∈ lookahead.subtree :: s.pending, u.IsToken := fun u hMem =>
    hSupplied.token hMem (hLeaves u hMem)
  have hToken : ∀ u ∈ [lookahead.subtree], u.IsToken ∧ All (Measured job.tables.widths) u := by
    simpa using ⟨hInFront lookahead.subtree (by simp), measured_widths_of_isLeaf hLeaf⟩
  generalize hOut : ParseStep.next next r = out at hEffect
  cases hEffect with
  | @shift state hShift =>
      obtain ⟨rfl, rfl⟩ := ParseStep.next.inj hOut
      have hPushed := (h.tokens hReady fun u hMem => (hToken u hMem).1).push hReady state
      exact @everywhere_nextInput job { s with stack := s.stack.push state lookahead.subtree } _ hPushed
  | reduce lookaheadStop hReduce => exact absurd hReduce (hOther _)
  | skip | overflow =>
      obtain ⟨rfl, rfl⟩ := ParseStep.next.inj hOut
      exact @everywhere_nextInput job (job.skip s [lookahead.subtree]) _ (h.skipTokens hReady hSound hToken)
  | insert hInput hInserted =>
      obtain ⟨rfl, rfl⟩ := ParseStep.next.inj hOut
      exact h
  | @cut ts us new u depth nextSerial hNew hInput =>
      obtain ⟨rfl, rfl⟩ := ParseStep.next.inj hOut
      have hTokens : ∀ v ∈ lookahead.subtree :: s.pending ++ new, v.IsToken :=
        List.forall_mem_append.mpr ⟨hInFront, hNew.isToken⟩
      exact everywhere_cutAt hReady (h.withSerial nextSerial) (hSound.withSerial nextSerial) depth
        fun v hMem => hTokens v (hInput ▸ List.mem_append_left _ hMem)
  | @pass new nextSerial hNew =>
      obtain ⟨rfl, rfl⟩ := ParseStep.next.inj hOut
      let noted : ParseState := { s with
        stack := ({ s.stack with nextSerial } : ParseStack).noteDecision
        pending := s.pending ++ new }
      have hNoted : noted.stack.Everywhere Q [] := (h.withSerial nextSerial).noteDecision
      exact @everywhere_nextInput job (job.skip noted [lookahead.subtree]) _ (hNoted.skipTokens hReady
        (ParseStack.sound_noteDecision (hSound.withSerial nextSerial)) hToken)
  | accept => simp at hOut
  | giveUp => simp at hOut

include hSupplied in
/-- Besides the node of a reduction, and what it takes over, a step makes no nodes but tokens and damage. -/
theorem everywhere_step {next : Lookahead} {r : ParseState} (hStep : job.step s lookahead = .next next r)
    (hWhole : lookahead.subtree.isLeaf = false → ∀ x ∈ placed s.stack.stop lookahead.subtree, Q x)
    (hNode : ∀ start pieces node, job.Makes (s, lookahead) start pieces node → Q (start, node)) :
    r.stack.Everywhere Q [] := by
  have hSound : s.stack.Sound job.tables.widths := hKnown.sized.sound
  have hResponse := step_response hKnown
  rw [hStep] at hResponse
  generalize hOut : ParseStep.next next r = out at hResponse
  cases hResponse with
  | @reduce rule info hReduce hRule hReduced =>
      obtain ⟨rfl, rfl⟩ := ParseStep.next.inj hOut
      refine h.reduce hReady hSound isHidden_widths
        (not_splices_errorSymbol hKnown.generated hKnown.proper).1 hReduced ?_
      rw [ParseStack.entries_uncovered]
      exact hNode _ _ _ ⟨rule, info, hReduce, hRule, rfl, rfl, rfl⟩
  | token hLeaf hOther hEffect => exact everywhere_token hReady hKnown hSupplied h hLeaf hOther (hOut ▸ hEffect)
  | reuse hLeaf state queue =>
      obtain ⟨rfl, rfl⟩ := ParseStep.next.inj hOut
      have hTaken : s.stack.Everywhere Q [lookahead.subtree] := by
        intro x hMem
        rw [ParseStack.stock, placedAll_append, Nat.zero_add, ← hSound.stop_eq_width, placedAll_cons,
          placedAll_nil, List.append_nil, List.mem_append] at hMem
        exact hMem.elim (fun hBefore => h x (by simpa [ParseStack.stock] using hBefore)) (hWhole hLeaf x)
      exact @everywhere_nextInput job { s with stack := s.stack.push state lookahead.subtree, queue } _
        (hTaken.push hReady state)
  | breakUp hLeaf =>
      obtain ⟨rfl, rfl⟩ := ParseStep.next.inj hOut
      unfold breakUp
      split
      · exact everywhere_nextInput h
      · exact everywhere_nextInput h
  | accept => simp at hOut

/-- The end of a parse makes nothing but damage. -/
theorem everywhere_done {accepted : Bool} {stack : ParseStack}
    (hStep : job.step s lookahead = .done accepted stack) :
    stack.Everywhere Q [] ∧ stack.Sound job.tables.widths := by
  have hSound : s.stack.Sound job.tables.widths := hKnown.sized.sound
  have hResponse := step_response hKnown
  rw [hStep] at hResponse
  generalize hOut : ParseStep.done accepted stack = out at hResponse
  cases hResponse with
  | token hLeaf hOther hEffect =>
      subst hOut
      generalize hOut : ParseStep.done accepted stack = out at hEffect
      cases hEffect with
      | accept =>
          obtain ⟨rfl, rfl⟩ := ParseStep.done.inj hOut
          exact ⟨h, hSound⟩
      | giveUp nextSerial =>
          obtain ⟨-, hLast⟩ := ParseStep.done.inj hOut
          exact everywhere_giveUp hReady (h.withSerial nextSerial) (hSound.withSerial nextSerial) hLast
      | shift | reduce | skip | overflow | insert | cut | pass => exact absurd hOut ParseStep.noConfusion
  | accept =>
      obtain ⟨rfl, rfl⟩ := ParseStep.done.inj hOut
      exact ⟨h, hSound⟩
  | reduce | reuse | breakUp => exact absurd hOut ParseStep.noConfusion

end Steps

theorem ready_originates (from' : ParseState × Lookahead) : ParseStack.Ready (job.Originates from') where
  token := fun _ hToken hInner => absurd (hToken.leaf.symm.trans hInner) Bool.true_eq_false.mp
  damaged := fun _ hError _ hWhole => absurd (hError.symm.trans hWhole) Bool.true_eq_false.mp

/-- The stack that a run leaves bears nodes that originate from the run. -/
theorem originates_of_run (hFaithful : language.tables.Faithful g m) (hProper : g.Proper)
    {from' : ParseState × Lookahead} {limit : Nat} (hOrdinary : Ordinary language job s lookahead)
    (hReach : job.Reaches from' (s, lookahead)) (h : s.stack.Everywhere (job.Originates from') [])
    {accepted : Bool} {stack : ParseStack} (hRun : job.run limit s lookahead = some (accepted, stack)) :
    stack.Everywhere (job.Originates from') [] ∧ stack.Sound job.tables.widths := by
  have hReady := job.ready_originates from'
  induction limit generalizing s lookahead with
  | zero => simp [run] at hRun
  | succ limit ih =>
      rw [run] at hRun
      split at hRun
      · rename_i next r hStep
        have hKnown := hOrdinary.assured hFaithful hProper
        have hLeaf := (hOrdinary.unaided hFaithful hProper).isLeaf
        refine ih (hOrdinary.step hFaithful hProper hStep) (hReach.tail hStep) ?_ hRun
        have hSupplied := hOrdinary.arises.supplied hFaithful.toGenerated hProper
        refine everywhere_step hReady hKnown hSupplied h hStep
          (fun hWhole => ?_) fun start pieces node hMakes _ _ => ?_
        · exact absurd (hLeaf.symm.trans hWhole) Bool.true_eq_false.mp
        · obtain ⟨below, hReduces, hStart⟩ := reduces_of_makes hKnown hLeaf hMakes hStep
          exact ⟨(s, lookahead), below, r, hReach, hReduces, hStart⟩
      · rename_i hStep
        obtain ⟨rfl, rfl⟩ := Prod.mk.inj (Option.some.inj hRun)
        exact everywhere_done hReady (hOrdinary.assured hFaithful hProper) h hStep

end ParseJob

/-- Where a parse from scratch begins. -/
def Parser.opening (p : Parser) (text : ByteArray) : ParseState × Lookahead :=
  ((p.job text).nextInput (ParseJob.start none p.nextSerial)).swap

section
variable {p : Parser} {text : ByteArray}

/-- A parse opens in an ordinary configuration. -/
theorem Parser.ordinary_opening (hRoomy : (p.job text).Roomy (p.opening text).1 (p.opening text).2) :
    ParseJob.Ordinary p.language (p.job text) (p.opening text).1 (p.opening text).2 where
  arises := .parse p rfl text p.nextSerial
  queue := ((p.job text).unaided_start p.nextSerial).queue
  roomy := hRoomy

theorem Parser.entries_opening (p : Parser) (text : ByteArray) :
    (p.opening text).1.stack.entries = [] ∧ (p.opening text).1.stack.openError = #[] := by
  obtain ⟨t, nextSerial, hNext, -⟩ :=
    @ParseJob.exists_nextInput (p.job text) (ParseJob.start none p.nextSerial) rfl
  rw [Parser.opening, hNext]
  exact ⟨rfl, rfl⟩

/-- Every node of a tree that is no token and without damage was made by a reduction, at its place. -/
theorem Parser.originates_of_parse {g : Grammar} {m : Automaton}
    (hFaithful : p.language.tables.Faithful g m) (hProper : g.Proper)
    (hRoomy : (p.job text).Roomy (p.opening text).1 (p.opening text).2) {tree : Tree}
    (hParse : p.parse text = some tree) :
    ∀ n ∈ tree.inner, (p.job text).Originates (p.opening text) n.spot := by
  have hOrdinary := Parser.ordinary_opening hRoomy
  obtain ⟨made, hMade, hTree⟩ := Parser.runWith_eq_some hParse
  rw [ParseJob.parseWithin] at hMade
  obtain ⟨⟨accepted, stack⟩, hRun, rfl⟩ := Option.map_eq_some_iff.mp hMade
  have hNone : (p.opening text).1.stack.Everywhere ((p.job text).Originates (p.opening text)) [] := by
    intro x hMem
    obtain ⟨hEntries, hOpen⟩ := p.entries_opening text
    simp [ParseStack.stock, ParseStack.material, hEntries, hOpen] at hMem
  obtain ⟨hMade, hSound⟩ := ParseJob.originates_of_run hFaithful hProper hOrdinary .refl hNone hRun
  obtain ⟨hError, hStart⟩ := @ParseJob.not_splices_errorSymbol (p.job text) g m hFaithful.toGenerated hProper
  have hNodes := hMade.toRoot (ParseJob.ready_originates _) hSound rfl hStart.symm hError text.size accepted
  have hRoot : tree.root = (stack.toRoot (p.job text).tables text.size accepted).1 := congrArg Tree.root hTree
  obtain ⟨verdict, hVerdict⟩ := Parser.exists_verdict? hParse
  have hLaid := (Grown.parse p rfl hParse hVerdict).laid hFaithful.toGenerated hProper
  rw [← hRoot, ← spots_inner hLaid] at hNodes
  exact fun n hMem => hNodes n.spot (List.mem_map_of_mem hMem)

end
end IncrementalParsing
