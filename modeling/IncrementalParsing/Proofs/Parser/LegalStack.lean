import IncrementalParsing.Proofs.Parser.StackContent
import IncrementalParsing.Proofs.Subtree.Flattening
import IncrementalParsing.Proofs.Tables.Progress
import Mathlib.Data.List.TakeWhile

/-! The stack as a path through the automaton. Extra entries stand aside of the path, so the
children that a reduction finds are those of its rule, whatever has been skipped between them. -/
namespace IncrementalParsing
namespace ParseStack
open Subtree

/-- The entries that count, as steps of the automaton, the last one first. -/
def steps (entries : List StackEntry) : List (SymbolId × StateId) :=
  (entries.filter fun entry => !entry.extra).map fun entry => (entry.subtree.kind, entry.state)

/-- Every entry that counts is a transition from the state below it. The others are error nodes
and repeat the state below them. -/
def Aligned (m : Automaton) : List StackEntry → Prop
  | [] => True
  | entry :: entries =>
      (if entry.extra then entry.state = topState entries ∧ entry.subtree.kind = errorSymbol
        else (entry.subtree.kind, entry.state) ∈ m.transitions.getD (topState entries) []
          ∧ entry.subtree.kind ≠ errorSymbol)
        ∧ Aligned m entries

section Aligned
variable {m : Automaton} {es fs : List StackEntry}

/-- Entries under others are aligned by themselves. -/
theorem Aligned.of_append (h : Aligned m (es ++ fs)) : Aligned m fs := by
  induction es with
  | nil => exact h
  | cons e es ih => exact ih h.2

@[simp] theorem steps_nil : steps [] = [] := rfl

theorem steps_cons_of_extra {e : StackEntry} (hExtra : e.extra = true) (es : List StackEntry) :
    steps (e :: es) = steps es := by
  simp [steps, hExtra]

/-- An entry that is not extra is a step from the state below it. -/
theorem steps_cons_of_not_extra {e : StackEntry} (hExtra : e.extra = false)
    (es : List StackEntry) : steps (e :: es) = (e.subtree.kind, e.state) :: steps es := by
  simp [steps, hExtra]

/-- The steps lead to the state on top. -/
theorem Aligned.endOf_steps (h : Aligned m es) : Automaton.endOf (steps es) = topState es := by
  induction es with
  | nil => rfl
  | cons e es ih =>
      cases hExtra : e.extra with
      | true =>
          have hState := h.1
          rw [if_pos hExtra] at hState
          rw [steps_cons_of_extra hExtra, ih h.2, topState_cons, hState.1]
      | false =>
          rw [steps_cons_of_not_extra hExtra]
          rfl

/-- The steps are a path through the automaton. -/
theorem Aligned.path (h : Aligned m es) : m.Path (steps es) := by
  induction es with
  | nil => exact .nil
  | cons e es ih =>
      have hHead := h.1
      cases hExtra : e.extra with
      | true =>
          rw [steps_cons_of_extra hExtra]
          exact ih h.2
      | false =>
          rw [if_neg (by simp [hExtra])] at hHead
          rw [steps_cons_of_not_extra hExtra]
          refine .cons (ih h.2) ?_
          rw [h.2.endOf_steps]
          exact hHead.1

theorem steps_dropWhile_extra (es : List StackEntry) :
    steps (es.dropWhile (·.extra)) = steps es := by
  induction es with
  | nil => rfl
  | cons e es ih =>
      cases hExtra : e.extra with
      | true => rw [List.dropWhile_cons_of_pos hExtra, ih, steps_cons_of_extra hExtra]
      | false => rw [List.dropWhile_cons_of_neg (by simp [hExtra])]

/-- The children of a reduction leave the path without its last steps. -/
theorem steps_takeChildren (slots : List Slot) (es : List StackEntry) (taken : List Subtree) :
    steps (takeChildren slots es taken).2 = (steps es).drop slots.length := by
  induction es generalizing slots taken with
  | nil => cases slots <;> rfl
  | cons e es ih =>
      cases slots with
      | nil => rfl
      | cons slot slots =>
          rw [takeChildren]
          cases hExtra : e.extra with
          | true => rw [if_pos rfl, ih, steps_cons_of_extra hExtra]
          | false =>
              rw [if_neg (by simp), ih, steps_cons_of_not_extra hExtra]
              rfl

/-- The children that are taken off a path stand for the slots they are taken for. -/
theorem outline_takeChildren (slots : List Slot) (h : Aligned m es) (taken : List Subtree)
    {seen rest : List (SymbolId × StateId)} (hSteps : steps es = seen ++ rest)
    (hSymbols : seen.map (·.1) = slots.map (·.symbol)) :
    outline (takeChildren slots es taken).1 = slotOutline slots.reverse ++ outline taken := by
  induction es generalizing slots taken seen with
  | nil =>
      obtain ⟨rfl, rfl⟩ : seen = [] ∧ rest = [] := by simpa using hSteps.symm
      obtain rfl : slots = [] := by simpa using hSymbols.symm
      simp [takeChildren, slotOutline]
  | cons e es ih =>
      cases slots with
      | nil => simp [takeChildren, slotOutline]
      | cons slot slots =>
          have hHead := h.1
          rw [takeChildren]
          cases hExtra : e.extra with
          | true =>
              rw [if_pos hExtra] at hHead
              rw [steps_cons_of_extra hExtra] at hSteps
              have hOutline := ih (slot :: slots) h.2 (e.subtree.withField none :: taken) hSteps hSymbols
              rw [if_pos rfl, hOutline, outline_cons_of_error (by simpa using hHead.2)]
          | false =>
              rw [if_neg (by simp [hExtra])] at hHead
              rw [steps_cons_of_not_extra hExtra] at hSteps
              cases seen with
              | nil => simp at hSymbols
              | cons step seen =>
                  obtain ⟨rfl, hSeen⟩ : (e.subtree.kind, e.state) = step
                      ∧ steps es = seen ++ rest := by simpa using hSteps
                  obtain ⟨hKind, hMore⟩ : e.subtree.kind = slot.symbol
                      ∧ seen.map (·.1) = slots.map (·.symbol) := by simpa using hSymbols
                  have hOutline := ih slots h.2 (e.subtree.withField slot.field :: taken) hSeen hMore
                  rw [if_neg (by simp), hOutline, outline_cons_of_ne (by simpa using hHead.2)]
                  simp [slotOutline, hKind]

end Aligned

/-- A property of nodes that does not depend on their part, and that error nodes have as they are
closed, over nothing that dissolves. -/
structure Lasting (t : Tables) (P : Subtree → Prop) : Prop where
  withField : ∀ field u, P u → P (u.withField field)
  error : ∀ serial state children, children ≠ [] → (∀ c ∈ children, dissolves t c = false) →
    P (branch serial errorSymbol state children 0 false)

/-- A subtree as it stands on the stack. Its nodes have a property, and if it is an error node there
is something in it. -/
structure Settled (P : Subtree → Prop) (u : Subtree) : Prop where
  nodes : All P u
  filled : u.kind = errorSymbol → u.isLeaf = false

/-- A stack that is a path, with subtrees on it whose nodes all have a property. -/
structure Legal (t : Tables) (P : Subtree → Prop) (m : Automaton) (s : ParseStack) : Prop where
  aligned : Aligned m s.entries
  entries : ∀ e ∈ s.entries, Settled P e.subtree
  opened : ∀ u ∈ s.openError.toList, All P u ∧ dissolves t u = false

section Legal
variable {P : Subtree → Prop} {g : Grammar} {m : Automaton} {t : Tables} {s : ParseStack}

/-- A subtree that is settled stays so in another part. -/
theorem Settled.withField (hLasting : Lasting t P) {u : Subtree} (h : Settled P u)
    (field : Option FieldId) : Settled P (u.withField field) :=
  ⟨h.nodes.withField hLasting.withField _, by simpa using h.filled⟩

theorem Settled.imp {Q : Subtree → Prop} (hImp : ∀ u, P u → Q u) {u : Subtree} (h : Settled P u) :
    Settled Q u :=
  ⟨h.nodes.imp hImp, h.filled⟩

@[simp] theorem dissolves_withField (field : Option FieldId) (u : Subtree) :
    dissolves t (u.withField field) = dissolves t u := by
  simp [dissolves]

/-- The stack of a parse that has not begun is legal. -/
theorem legal_empty (nextSerial : Nat) : Legal t P m (empty nextSerial) :=
  ⟨trivial, by simp [empty], by simp [empty]⟩

theorem Legal.imp {Q : Subtree → Prop} (hImp : ∀ u, P u → Q u) (h : s.Legal t P m) :
    s.Legal t Q m :=
  ⟨h.aligned, fun e hMem => (h.entries e hMem).imp hImp,
    fun u hMem => ⟨(h.opened u hMem).1.imp hImp, (h.opened u hMem).2⟩⟩

/-- A stack over fewer entries is legal. -/
theorem Legal.of_entries (h : s.Legal t P m) {r : ParseStack} {top : List StackEntry}
    (hEntries : s.entries = top ++ r.entries)
    (hOpened : ∀ u ∈ r.openError.toList, All P u ∧ dissolves t u = false) : r.Legal t P m where
  aligned := (hEntries ▸ h.aligned).of_append
  entries := fun e hMem => h.entries e (hEntries ▸ List.mem_append_right top hMem)
  opened := hOpened

theorem Legal.pushAside (h : s.Legal t P m) {u : Subtree} (hKind : u.kind = errorSymbol)
    (hNode : Settled P u) : (s.pushAside u).Legal t P m where
  aligned := ⟨by simp [state, hKind], h.aligned⟩
  entries := by
    intro e hMem
    rcases List.mem_cons.mp hMem with rfl | hMem
    · exact hNode
    · exact h.entries e hMem
  opened := h.opened

/-- Closing the open error node keeps the state. -/
theorem state_closeError : s.closeError.state = s.state := by
  unfold closeError
  split <;> rfl

/-- An error node is extra, so the path stays the same. -/
theorem steps_closeError : steps s.closeError.entries = steps s.entries := by
  unfold closeError
  split
  · rfl
  · exact steps_cons_of_extra rfl _

/-- An error node that is closed is settled. -/
theorem Legal.closeError (hLasting : Lasting t P) (h : s.Legal t P m) : s.closeError.Legal t P m := by
  unfold ParseStack.closeError
  split
  · exact h
  · rename_i hOpen
    have hBare : Legal t P m { s with openError := #[], nextSerial := s.nextSerial + 1 } :=
      ⟨h.aligned, h.entries, by simp⟩
    have hFilled : (branch s.nextSerial errorSymbol (some s.state) s.openError.toList 0 false).isLeaf
        = false := by
      simpa [isLeaf] using hOpen
    refine hBare.pushAside rfl ⟨all_iff.mpr ⟨?_, fun c hChild => (h.opened c hChild).1⟩, fun _ => hFilled⟩
    exact hLasting.error _ _ _ (by simpa using hOpen) fun c hChild => (h.opened c hChild).2

/-- A subtree is pushed along an edge of the automaton. -/
theorem Legal.push (hLasting : Lasting t P) (h : s.Legal t P m) {next : StateId} {u : Subtree}
    (hMove : (u.kind, next) ∈ m.transitions.getD s.state []) (hKind : u.kind ≠ errorSymbol)
    (hNode : All P u) : (s.push next u).Legal t P m := by
  have hClosed := h.closeError hLasting
  refine ⟨⟨?_, hClosed.aligned⟩, ?_, hClosed.opened⟩
  · rw [if_neg (by simp)]
    rw [← state_closeError] at hMove
    exact ⟨hMove, hKind⟩
  · intro e hMem
    rcases List.mem_cons.mp hMem with rfl | hMem
    · exact ⟨hNode, fun hIs => absurd hIs hKind⟩
    · exact hClosed.entries e hMem

theorem Legal.noteDecision (h : s.Legal t P m) : s.noteDecision.Legal t P m :=
  ⟨h.aligned, h.entries, h.opened⟩

/-- What is skipped is taken apart until nothing dissolves any more. -/
theorem Legal.addToError (hLasting : Lasting t P) (h : s.Legal t P m) {pieces : List Subtree}
    (hPieces : ∀ u ∈ pieces, All P u) : (ParseStack.addToError t s pieces).Legal t P m := by
  refine ⟨h.aligned, h.entries, ?_⟩
  intro u hMem
  simp only [ParseStack.addToError, Array.toList_append, Array.toList_map, List.mem_append,
    List.mem_map] at hMem
  rcases hMem with hMem | ⟨v, hMem, rfl⟩
  · exact h.opened u hMem
  · refine ⟨(forall_all_unwrapped hLasting.withField pieces hPieces v hMem).withField
      hLasting.withField _, ?_⟩
    rw [dissolves_withField]
    exact not_opens_of_mem_unwrapped pieces v hMem

/-- Skipping takes at most an error node off the entries. -/
theorem entries_pushSkipped (t : Tables) (s : ParseStack) (pieces : List Subtree) :
    ∃ top, s.entries = top ++ (s.pushSkipped t pieces).entries := by
  unfold pushSkipped
  cases hOpen : s.openError.isEmpty with
  | false => exact ⟨[], by simp [addToError]⟩
  | true =>
      simp only [if_true]
      split
      · rename_i entry entries hEntries
        split
        · exact ⟨[entry], by simp [addToError, hEntries]⟩
        · exact ⟨[], by simp [addToError]⟩
      · exact ⟨[], by simp [addToError]⟩

/-- Skipping input leaves the path alone, whatever is skipped. -/
theorem steps_pushSkipped (t : Tables) (s : ParseStack) (pieces : List Subtree) :
    steps (s.pushSkipped t pieces).entries = steps s.entries := by
  unfold pushSkipped
  cases hOpen : s.openError.isEmpty with
  | false => rfl
  | true =>
      simp only [if_true]
      split
      · rename_i entry entries hEntries
        split
        · rename_i hReopen
          obtain ⟨hExtra, -⟩ : entry.extra = true ∧ entry.subtree.kind = errorSymbol := by
            simpa using hReopen
          rw [hEntries, steps_cons_of_extra hExtra]
          rfl
        · rfl
      · rfl

theorem steps_push (s : ParseStack) (next : StateId) (u : Subtree) :
    steps (s.push next u).entries = (u.kind, next) :: steps s.entries := by
  rw [← @steps_closeError s]
  exact steps_cons_of_not_extra rfl _

theorem steps_popEntries (depth : Nat) (es : List StackEntry) (popped : List Subtree) :
    steps (popEntries depth es popped).2 = (steps es).drop depth := by
  induction es generalizing depth popped with
  | nil => cases depth <;> rfl
  | cons e es ih =>
      cases depth with
      | zero => rfl
      | succ depth =>
          rw [popEntries, ih]
          cases hExtra : e.extra with
          | true =>
              rw [steps_cons_of_extra hExtra]
              rfl
          | false =>
              rw [steps_cons_of_not_extra hExtra]
              rfl

/-- Popping takes steps back. -/
theorem steps_pop (s : ParseStack) (depth : Nat) :
    steps (s.pop depth).2.entries = (steps s.entries).drop depth := by
  rw [← @steps_closeError s]
  exact steps_popEntries depth s.closeError.entries []

/-- Extra entries that are put back are no steps. -/
theorem steps_putBack (s : ParseStack) (trailing : List StackEntry) :
    steps (trailing.foldr (fun entry s => s.closeError.pushAside entry.subtree) s).entries
      = steps s.entries := by
  induction trailing with
  | nil => rfl
  | cons e es ih =>
      rw [List.foldr_cons, pushAside, stacked, steps_cons_of_extra rfl, steps_closeError, ih]

theorem states_eq (s : ParseStack) : s.states = (steps s.entries).map (·.2) := by
  simp [states, steps]

theorem Legal.pushSkipped (hLasting : Lasting t P) (h : s.Legal t P m) {pieces : List Subtree}
    (hPieces : ∀ u ∈ pieces, All P u) : (ParseStack.pushSkipped t s pieces).Legal t P m := by
  unfold ParseStack.pushSkipped
  cases hOpen : s.openError.isEmpty with
  | false => exact h.addToError hLasting hPieces
  | true =>
      have hNone : s.openError = #[] := Array.isEmpty_iff.mp hOpen
      simp only [if_true]
      split
      · rename_i entry entries hEntries
        split
        · have hLower : Legal t P m { s with entries, openStop := topStop entries } :=
            h.of_entries (show s.entries = [entry] ++ entries from hEntries) (by simp [hNone])
          refine Legal.addToError hLasting (hLower.addToError hLasting ?_) hPieces
          intro u hMem
          obtain rfl := List.mem_singleton.mp hMem
          exact (h.entries entry (by simp [hEntries])).nodes
        · have hRaised : Legal t P m { s with openStop := entry.stop } :=
            ⟨h.aligned, h.entries, h.opened⟩
          exact hRaised.addToError hLasting hPieces
      · have hGround : Legal t P m { s with openStop := 0 } := ⟨h.aligned, h.entries, h.opened⟩
        exact hGround.addToError hLasting hPieces

/-- What is popped are subtrees of the stack. -/
theorem Legal.pop (hLasting : Lasting t P) (h : s.Legal t P m) (depth : Nat) :
    (s.pop depth).2.Legal t P m ∧ ∀ u ∈ (s.pop depth).1, All P u := by
  have hClosed := h.closeError hLasting
  obtain ⟨top, hSplit, hPopped⟩ := popEntries_spec depth s.closeError.entries []
  refine ⟨hClosed.of_entries hSplit hClosed.opened, ?_⟩
  intro u hMem
  have hPieces : (s.pop depth).1 = content top := by simpa [ParseStack.pop] using hPopped
  rw [hPieces] at hMem
  obtain ⟨e, hEntry, rfl⟩ : ∃ e ∈ top, e.subtree = u := by simpa [content] using hMem
  exact (hClosed.entries e (hSplit ▸ List.mem_append_left _ hEntry)).nodes

theorem Legal.withSerial (h : s.Legal t P m) (nextSerial : Nat) : Legal t P m { s with nextSerial } :=
  ⟨h.aligned, h.entries, h.opened⟩

theorem Legal.putBack (hLasting : Lasting t P) (h : s.Legal t P m) (trailing : List StackEntry)
    (hTrailing : ∀ e ∈ trailing, e.subtree.kind = errorSymbol ∧ Settled P e.subtree) :
    (trailing.foldr (fun entry s => s.closeError.pushAside entry.subtree) s).Legal t P m := by
  induction trailing with
  | nil => exact h
  | cons e es ih =>
      have hClosed := (ih fun f hMem => hTrailing f (by simp [hMem])).closeError hLasting
      obtain ⟨hKind, hNode⟩ := hTrailing e (by simp)
      exact hClosed.pushAside hKind hNode

/-- Extra entries are error nodes. -/
theorem Aligned.kind_of_extra {es : List StackEntry} (h : Aligned m es) :
    ∀ e ∈ es, e.extra = true → e.subtree.kind = errorSymbol := by
  induction es with
  | nil => simp
  | cons e es ih =>
      intro f hMem hExtra
      rcases List.mem_cons.mp hMem with rfl | hMem
      · have hHead := h.1
        rw [if_pos hExtra] at hHead
        exact hHead.2
      · exact ih h.2 f hMem hExtra

/-- No rule is for the symbol of errors. -/
theorem lhs_ne_error (hGenerated : t.Generated g m) (hProper : g.Proper) {rule : RuleId}
    {info : Production} (hRule : t.rules[rule]? = some info) : info.lhs ≠ errorSymbol := by
  obtain ⟨source, hSource, rfl⟩ := hGenerated.rule_of_rules hRule
  have hLhs := (hProper.lhs source (Array.mem_of_getElem? hSource)).1
  exact fun hIs : source.lhs = errorSymbol => absurd (hProper.reserved.trans (hIs ▸ hLhs)) (by decide)

/-- What a reduction takes off the stack: error nodes, and a subtree for each slot of its rule if the
tables tell every rule from the others. -/
structure Taken (t : Tables) (P : Subtree → Prop) (m : Automaton) (s : ParseStack) (info : Production)
    (children : List Subtree) (base : ParseStack) : Prop where
  outline : t.rules.size ≤ ruleBound → Subtree.outline children = slotOutline info.rhs
  children : ∀ u ∈ children, Settled P u
  legal : base.Legal t P m
  steps : ParseStack.steps base.entries = (ParseStack.steps s.entries).drop info.rhs.length

theorem Taken.imp {Q : Subtree → Prop} (hImp : ∀ u, P u → Q u) {info : Production}
    {children : List Subtree} {base : ParseStack} (h : Taken t P m s info children base) :
    Taken t Q m s info children base :=
  ⟨h.outline, fun u hMem => (h.children u hMem).imp hImp, h.legal.imp hImp, h.steps⟩

/-- A reduction takes off what its rule stands for. -/
theorem Legal.taken (hGenerated : t.Generated g m) (hProper : g.Proper) (hLasting : Lasting t P)
    (h : s.Legal t P m) {symbol : SymbolId} {rule : RuleId} {info : Production}
    (hReduce : t.action s.state symbol = .reduce rule) (hRule : t.rules[rule]? = some info) :
    Taken t P m s info (takeChildren info.rhs.reverse (s.entries.dropWhile (·.extra)) []).1
      (s.uncovered info) := by
  have hSuffix : Aligned m (s.entries.dropWhile (·.extra)) := by
    have hSplit := h.aligned
    rw [← List.takeWhile_append_dropWhile (p := (·.extra)) (l := s.entries)] at hSplit
    exact hSplit.of_append
  obtain ⟨top, hSplit, -⟩ := s.entries_split info.rhs.reverse
  refine ⟨fun hFits => ?_, ?_, h.of_entries hSplit h.opened, ?_⟩
  · rw [state, ← h.aligned.endOf_steps] at hReduce
    obtain ⟨found, next, hFound, -, hSymbols, -⟩ :=
      (hGenerated.faithful hFits).reduction hProper h.aligned.path hReduce
    obtain rfl := Option.some.inj (hRule.symm.trans hFound)
    have hSteps := (List.take_append_drop info.rhs.length (steps s.entries)).symm
    rw [← steps_dropWhile_extra] at hSteps
    have hOutline := outline_takeChildren info.rhs.reverse hSuffix [] hSteps (by
      rw [steps_dropWhile_extra, ← List.reverse_reverse (List.map _ (List.take _ _)), hSymbols]
      simp [Production.symbols])
    simpa using hOutline
  · intro u hTaken
    obtain ⟨e, hEntry, field, rfl⟩ := exists_of_mem_takeChildren hTaken
    exact (h.entries e ((List.dropWhile_suffix _).subset hEntry)).withField hLasting _
  · rw [uncovered, withEntries, steps_takeChildren, steps_dropWhile_extra, List.length_reverse]

/-- Faithful tables lead on from under a reduction. -/
theorem Legal.leads_on (hFaithful : t.Faithful g m) (hProper : g.Proper) (hLasting : Lasting t P)
    (h : s.Legal t P m) {symbol : SymbolId} {rule : RuleId}
    (hReduce : t.action s.state symbol = .reduce rule) :
    ∃ info next, t.rules[rule]? = some info ∧ info.rhs.length ≤ (steps s.entries).length
      ∧ t.goto (s.uncovered info).state info.lhs = some next := by
  have hPath := hReduce
  rw [state, ← h.aligned.endOf_steps] at hPath
  obtain ⟨info, next, hRule, hBound, -, -, hGoto⟩ := hFaithful.reduction hProper h.aligned.path hPath
  have hTaken := h.taken hFaithful.toGenerated hProper hLasting hReduce hRule
  refine ⟨info, next, hRule, hBound, ?_⟩
  rw [state, ← hTaken.legal.aligned.endOf_steps, hTaken.steps]
  exact hGoto

/-- The node of a reduction has the property below it. -/
theorem all_reduced (hLasting : Lasting t P) {info : Production}
    (hTaken : ∀ u ∈ (takeChildren info.rhs.reverse (s.entries.dropWhile (·.extra)) []).1, Settled P u)
    (lookaheadStop : Nat) (hSelf : P (s.reduced t info lookaheadStop)) :
    All P (s.reduced t info lookaheadStop) := by
  refine all_iff.mpr ⟨hSelf, fun c hChild => ?_⟩
  rw [ParseStack.reduced, children_branch] at hChild
  split at hChild
  · exact (hTaken c hChild).nodes
  · exact forall_all_unwrapped hLasting.withField _ (fun u hMem => (hTaken u hMem).nodes) c hChild

/-- A reduction takes the end of its rule off the path, and puts a step in its place if the tables
lead on from there. -/
theorem Legal.steps_reduce (hGenerated : t.Generated g m) (hProper : g.Proper) (hLasting : Lasting t P)
    (h : s.Legal t P m) {symbol : SymbolId} {rule : RuleId} {info : Production}
    (hReduce : t.action s.state symbol = .reduce rule) (hRule : t.rules[rule]? = some info)
    (lookaheadStop : Nat) :
    (s.reduce t info lookaheadStop).1
        = (t.goto (Automaton.endOf ((steps s.entries).drop info.rhs.length)) info.lhs).isSome
      ∧ steps (s.reduce t info lookaheadStop).2.entries
        = (t.goto (Automaton.endOf ((steps s.entries).drop info.rhs.length)) info.lhs).toList.map
            (fun next => (info.lhs, next)) ++ (steps s.entries).drop info.rhs.length := by
  have hClosed := h.closeError hLasting
  rw [← state_closeError] at hReduce
  have hTaken := hClosed.taken hGenerated hProper hLasting hReduce hRule
  have hSteps := hTaken.steps
  rw [steps_closeError] at hSteps
  have hState : (s.closeError.uncovered info).state
      = Automaton.endOf ((steps s.entries).drop info.rhs.length) := by
    rw [state, ← hTaken.legal.aligned.endOf_steps, hSteps]
  rw [reduce_eq, ← hState, ← hSteps]
  dsimp only
  rw [steps_putBack]
  cases t.goto (s.closeError.uncovered info).state info.lhs with
  | some next => exact ⟨rfl, steps_push _ _ _⟩
  | none => exact ⟨rfl, steps_pushSkipped _ _ _⟩

/-- By faithful tables, a reduction replaces the end of the path. -/
theorem Legal.exists_steps_reduce (hFaithful : t.Faithful g m) (hProper : g.Proper)
    (hLasting : Lasting t P) (h : s.Legal t P m) {symbol : SymbolId} {rule : RuleId} {info : Production}
    (hReduce : t.action s.state symbol = .reduce rule) (hRule : t.rules[rule]? = some info)
    (lookaheadStop : Nat) :
    ∃ next, (s.reduce t info lookaheadStop).1 = true
      ∧ steps (s.reduce t info lookaheadStop).2.entries
        = (info.lhs, next) :: (steps s.entries).drop info.rhs.length := by
  obtain ⟨hDone, hSteps⟩ :=
    h.steps_reduce hFaithful.toGenerated hProper hLasting hReduce hRule lookaheadStop
  rw [state, ← h.aligned.endOf_steps] at hReduce
  obtain ⟨found, next, hFound, -, -, -, hGoto⟩ := hFaithful.reduction hProper h.aligned.path hReduce
  obtain rfl := Option.some.inj (hRule.symm.trans hFound)
  rw [hGoto] at hDone hSteps
  exact ⟨next, hDone, hSteps⟩

/-- The node of a reduction stands over what its rule did not take, or it is skipped there. -/
theorem Legal.reduce (hGenerated : t.Generated g m) (hProper : g.Proper) (hLasting : Lasting t P)
    (h : s.Legal t P m) {symbol : SymbolId} {rule : RuleId} {info : Production}
    (hReduce : t.action s.state symbol = .reduce rule) (hRule : t.rules[rule]? = some info)
    (lookaheadStop : Nat)
    (hNode : Taken t P m s.closeError info (takeChildren info.rhs.reverse
        (s.closeError.entries.dropWhile (·.extra)) []).1 (s.closeError.uncovered info) →
      P (s.closeError.reduced t info lookaheadStop)) :
    (s.reduce t info lookaheadStop).2.Legal t P m := by
  have hClosed := h.closeError hLasting
  rw [← state_closeError] at hReduce
  have hTaken := hClosed.taken hGenerated hProper hLasting hReduce hRule
  have hTrailing : ∀ e ∈ s.closeError.entries.takeWhile (·.extra),
      e.subtree.kind = errorSymbol ∧ Settled P e.subtree := by
    intro e hMem
    have hEntry := List.takeWhile_subset _ hMem
    exact ⟨hClosed.aligned.kind_of_extra e hEntry (List.mem_takeWhile_imp hMem),
      hClosed.entries e hEntry⟩
  have hAll := all_reduced hLasting hTaken.children _ (hNode hTaken)
  rw [reduce_eq]
  refine Legal.putBack hLasting ?_ _ hTrailing
  split
  · rename_i next hGoto
    have hMove := (hGenerated.goto (hGenerated.lhs_of_rule hProper hRule).2 hGoto).2
    have hKind := (hGenerated.symbol_of_transition hProper hMove).2.2
    exact hTaken.legal.push hLasting (u := s.closeError.reduced t info lookaheadStop) hMove hKind hAll
  · exact hTaken.legal.pushSkipped hLasting fun u hMem => List.mem_singleton.mp hMem ▸ hAll

end Legal

section Grammatical
variable {g : Grammar} {m : Automaton} {t : Tables} {s : ParseStack}

/-- To be grammatical is a property that error nodes have. -/
theorem lasting_grammatical (hError : t.isTerminal errorSymbol = true) :
    Lasting t (Grammatical t) where
  withField := Grammatical.withField
  error := fun _ _ _ _ _ => ⟨fun _ => .inl rfl, by simp [hError], by simp [hError]⟩

/-- What a reduction builds follows its rule. -/
theorem grammatical_reduced (hGenerated : t.Generated g m) (hProper : g.Proper)
    (hFits : t.rules.size ≤ ruleBound) (hError : t.isTerminal errorSymbol = true) {rule : RuleId}
    {info : Production}
    (hRule : t.rules[rule]? = some info)
    (hTaken : Taken t (Grammatical t) m s info
      (takeChildren info.rhs.reverse (s.entries.dropWhile (·.extra)) []).1 (s.uncovered info))
    (lookaheadStop : Nat) : Grammatical t (s.reduced t info lookaheadStop) := by
  have hMem : info ∈ t.rules := Array.mem_of_getElem? hRule
  have hShown : ∀ kind, t.isTerminal kind = true → t.isHidden kind = false :=
    fun kind hTerminal => (hGenerated.splices_of_isTerminal hProper hTerminal).1
  refine ⟨fun _ => .inr ⟨_, hMem, rfl⟩, ?_, ?_⟩
  · intro _ hHidden
    refine ⟨_, hMem, rfl, ?_⟩
    replace hHidden : t.isHidden info.lhs = true := hHidden
    rw [ParseStack.reduced, children_branch, if_pos hHidden]
    exact hTaken.outline hFits
  · intro _ hVisible
    refine ⟨_, hMem, rfl, ?_⟩
    replace hVisible : t.isHidden info.lhs = false := hVisible
    rw [ParseStack.reduced, children_branch, if_neg (by simp [hVisible])]
    refine flattens_unwrapped hShown hError _ (fun u hChild => (hTaken.children u hChild).nodes) _ _ ?_
    rw [hTaken.outline hFits]
    simp [slotOutline]

end Grammatical
end ParseStack
end IncrementalParsing
