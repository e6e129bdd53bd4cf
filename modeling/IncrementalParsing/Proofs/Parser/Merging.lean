import IncrementalParsing.Proofs.Parser.Widths
import IncrementalParsing.Proofs.Subtree.Merging
import IncrementalParsing.Proofs.Tree.Reports

/-! Skipped input in a parse. There is always at most one error node at a time on top of the stack,
open or closed, and what comes to lie on it shows something else first, so the error nodes that a
reduction finds are still apart when the hidden nodes between them are taken apart. -/
namespace IncrementalParsing
open Subtree

namespace ParseStack

/-- What may lie right above an entry: above an error node nothing but what can follow one. -/
def Covers (t : Tables) (e f : StackEntry) : Prop :=
  f.extra = true → e.extra = false ∧ Fronted t e.subtree

/-- Error nodes on a stack are apart from each other, and will be in the nodes made from them. -/
structure Woven (t : Tables) (s : ParseStack) : Prop where
  entries : s.entries.IsChain (Covers t)
  opened : s.openError ≠ #[] → ∀ e ∈ s.entries.head?, e.extra = false

section Pieces
variable {es : List StackEntry} {piece : StackEntry → List SymbolId}

/-- What entries show has its error nodes apart, and ends with one only if the top entry is one. -/
theorem apart_pieces
    (hChain : es.IsChain fun e f => f.extra = true → e.extra = false ∧ Headed (piece e))
    (hExtra : ∀ e ∈ es, e.extra = true → piece e = [errorSymbol])
    (hSpaced : ∀ e ∈ es, e.extra = false → Spaced (piece e)) :
    Apart (es.reverse.flatMap piece)
      ∧ (errorSymbol ∈ (es.reverse.flatMap piece).getLast? → ∃ e ∈ es.head?, e.extra = true) := by
  induction es with
  | nil => exact ⟨.nil, by simp⟩
  | cons e es ih =>
      obtain ⟨hAbove, hBelow⟩ := List.isChain_cons.mp hChain
      obtain ⟨hApart, hLast⟩ := ih hBelow (fun f hMem => hExtra f (by simp [hMem]))
        fun f hMem => hSpaced f (by simp [hMem])
      rw [List.reverse_cons, List.flatMap_append, List.flatMap_singleton]
      cases hKind : e.extra with
      | true =>
          -- Below an error node there is none, so what is shown below does not end with one.
          rw [hExtra e (by simp) hKind]
          refine ⟨hApart.append (.singleton _) fun hEnds => ?_, fun _ => ⟨e, rfl, hKind⟩⟩
          obtain ⟨f, hTop, hIs⟩ := hLast hEnds
          simp [hKind] at hAbove
          exact absurd hIs (by simp [hAbove f hTop])
      | false =>
          have hPiece := hSpaced e (by simp) hKind
          have hStarts : errorSymbol ∈ (es.reverse.flatMap piece).getLast? → Headed (piece e) := by
            intro hEnds
            obtain ⟨f, hTop, hIs⟩ := hLast hEnds
            exact (hAbove f hTop hIs).2
          refine ⟨hApart.append hPiece.apart fun hEnds hHead => ?_, fun hEnds => ?_⟩
          · obtain ⟨k, hFirst, hOther⟩ := hStarts hEnds
            exact hOther (Option.some.inj (hFirst.symm.trans hHead))
          · rcases List.eq_nil_or_concat (piece e) with hNone | ⟨ks, k, hSome⟩
            · rw [hNone, List.append_nil] at hEnds
              obtain ⟨k, hFirst, -⟩ := hStarts hEnds
              simp [hNone] at hFirst
            · have hEnd := hPiece.last
              rw [hSome] at hEnds hEnd
              simp_all

end Pieces

section Woven
variable {t : Tables} {P : Subtree → Prop} {g : Grammar} {m : Automaton} {s : ParseStack}

theorem woven_empty (nextSerial : Nat) : Woven t (empty nextSerial) := ⟨.nil, by simp [empty]⟩

theorem Woven.of_suffix (h : Woven t s) {r : ParseStack} {top : List StackEntry}
    (hEntries : s.entries = top ++ r.entries) (hOpen : r.openError = #[]) : Woven t r :=
  ⟨(hEntries ▸ h.entries).right_of_append, by simp [hOpen]⟩

theorem Woven.withSerial (h : Woven t s) (nextSerial : Nat) : Woven t { s with nextSerial } :=
  ⟨h.entries, h.opened⟩

theorem Woven.noteDecision (h : Woven t s) : Woven t s.noteDecision := ⟨h.entries, h.opened⟩

/-- An error node can be put where there is none. -/
theorem Woven.pushAside (h : Woven t s) (hOpen : s.openError = #[])
    (hTop : ∀ e ∈ s.entries.head?, e.extra = false) (u : Subtree) : Woven t (s.pushAside u) := by
  refine ⟨List.isChain_cons.mpr ⟨fun e hMem hExtra => ?_, h.entries⟩, fun hSome => absurd hOpen hSome⟩
  rw [hTop e hMem] at hExtra
  simp at hExtra

/-- Closing the open error leaves the errors on the stack apart. -/
theorem Woven.closeError (h : Woven t s) : Woven t s.closeError := by
  unfold ParseStack.closeError
  split
  · exact h
  · rename_i hOpen
    have hBare : Woven t { s with openError := #[], nextSerial := s.nextSerial + 1 } :=
      ⟨h.entries, by simp⟩
    exact hBare.pushAside rfl (h.opened (by simpa using hOpen)) _

/-- A piece that may follow an error can be pushed onto one. -/
theorem Woven.push (h : Woven t s) (next : StateId) {u : Subtree} (hFronted : Fronted t u) :
    Woven t (s.push next u) :=
  ⟨List.isChain_cons.mpr ⟨fun _ _ _ => ⟨rfl, hFronted⟩, h.closeError.entries⟩,
    fun hSome => absurd openError_closeError hSome⟩

/-- With no error node on top, anything can be pushed. -/
theorem Woven.push_of_plain (h : Woven t s) (hOpen : s.openError = #[]) (next : StateId) {u : Subtree}
    (hFronted : ∀ e ∈ s.entries.head?, e.extra = true → Fronted t u) : Woven t (s.push next u) := by
  refine ⟨?_, fun hSome => absurd openError_closeError hSome⟩
  rw [ParseStack.push, closeError_of_closed hOpen]
  exact List.isChain_cons.mpr ⟨fun e hMem hExtra => ⟨rfl, hFronted e hMem hExtra⟩, h.entries⟩

/-- The open error grows where no closed one is right below it. -/
theorem Woven.addToError (h : Woven t s) (hTop : ∀ e ∈ s.entries.head?, e.extra = false)
    (pieces : List Subtree) : Woven t (ParseStack.addToError t s pieces) :=
  ⟨h.entries, fun _ => hTop⟩

/-- An error node on top is opened again, so none is opened above it. -/
theorem Woven.pushSkipped (h : Woven t s) (hAligned : Aligned m s.entries) (pieces : List Subtree) :
    Woven t (ParseStack.pushSkipped t s pieces) := by
  unfold ParseStack.pushSkipped
  cases hOpen : s.openError.isEmpty with
  | false => exact h.addToError (h.opened (by simpa using hOpen)) pieces
  | true =>
      have hNone : s.openError = #[] := Array.isEmpty_iff.mp hOpen
      simp only [if_true]
      split
      · rename_i entry entries hEntries
        obtain ⟨hAbove, -⟩ := List.isChain_cons.mp (hEntries ▸ h.entries)
        split
        · rename_i hReopen
          obtain ⟨hExtra, -⟩ : entry.extra = true ∧ entry.subtree.kind = errorSymbol := by
            simpa using hReopen
          have hTop : ∀ e ∈ entries.head?, e.extra = false := by
            intro e hMem
            by_contra hIs
            have hCovers := (hAbove e hMem (by simpa using hIs)).1
            simp [hExtra] at hCovers
          have hLower : Woven t { s with entries, openStop := topStop entries } :=
            h.of_suffix (show s.entries = [entry] ++ entries from hEntries) hNone
          exact (hLower.addToError hTop _).addToError hTop pieces
        · rename_i hKept
          have hRaised : Woven t { s with openStop := entry.stop } := ⟨h.entries, h.opened⟩
          refine hRaised.addToError (fun e hMem => ?_) pieces
          obtain rfl : entry = e := by simpa [hEntries] using hMem
          by_contra hIs
          have hExtra : entry.extra = true := by simpa using hIs
          have hKind := hAligned.kind_of_extra entry (by simp [hEntries]) hExtra
          simp [hExtra, hKind] at hKept
      · rename_i hEntries
        have hGround : Woven t { s with openStop := 0 } := ⟨h.entries, h.opened⟩
        exact hGround.addToError (by simp [hEntries]) pieces

/-- Popping entries brings no two errors together. -/
theorem Woven.pop (h : Woven t s) (depth : Nat) : Woven t (s.pop depth).2 := by
  obtain ⟨top, hSplit, -⟩ := popEntries_spec depth s.closeError.entries []
  exact h.closeError.of_suffix hSplit openError_closeError

theorem Woven.popAll (h : Woven t s) : Woven t s.popAll.2 :=
  h.closeError.of_suffix (List.append_nil s.closeError.entries).symm openError_closeError

/-- At most one error node lies on top. -/
theorem Woven.takeWhile_extra (h : Woven t s) :
    s.entries.takeWhile (·.extra) = [] ∨ ∃ e, s.entries.takeWhile (·.extra) = [e] := by
  cases hEntries : s.entries with
  | nil => exact .inl rfl
  | cons e es =>
      obtain ⟨hAbove, -⟩ := List.isChain_cons.mp (hEntries ▸ h.entries)
      cases hExtra : e.extra with
      | false => exact .inl (by simp [hExtra])
      | true =>
          refine .inr ⟨e, ?_⟩
          cases es with
          | nil => simp [hExtra]
          | cons f fs =>
              have hBelow : f.extra = false := by
                by_contra hIs
                have hCovers := (hAbove f rfl (by simpa using hIs)).1
                simp [hExtra] at hCovers
              simp [hExtra, hBelow]

/-- Below the error nodes on top there is something else. -/
theorem extra_of_mem_head?_dropWhile (es : List StackEntry) :
    ∀ e ∈ (es.dropWhile (·.extra)).head?, e.extra = false := by
  intro e hMem
  have hFirst := List.head?_dropWhile_not (·.extra) es
  rw [Option.mem_def.mp hMem] at hFirst
  simpa using hFirst

theorem shownKinds_content (t : Tables) (es : List StackEntry) :
    shownKinds t (content es) = es.reverse.flatMap fun e => shownKinds t [e.subtree] := by
  induction es with
  | nil => simp
  | cons e es ih => rw [content_cons, shownKinds_append, ih, List.reverse_cons, List.flatMap_append,
      List.flatMap_singleton]

/-- Entries whose error nodes are apart and merged, one below the other. -/
structure Tended (t : Tables) (es : List StackEntry) : Prop where
  covers : es.IsChain (Covers t)
  kind : ∀ e ∈ es, e.extra = true ↔ e.subtree.kind = errorSymbol
  merged : ∀ e ∈ es, All (Merged t) e.subtree

theorem Aligned.extra_iff {es : List StackEntry} (h : Aligned m es) :
    ∀ e ∈ es, e.extra = true ↔ e.subtree.kind = errorSymbol := by
  induction es with
  | nil => simp
  | cons e es ih =>
      intro f hMem
      rcases List.mem_cons.mp hMem with rfl | hMem
      · have hHead := h.1
        split at hHead
        · rename_i hExtra
          exact iff_of_true hExtra hHead.2
        · rename_i hExtra
          exact iff_of_false hExtra hHead.2
      · exact ih h.2 f hMem

theorem Legal.tended (h : s.Legal t P m) (hMerged : ∀ u, P u → Merged t u) (hWoven : Woven t s) :
    Tended t s.entries :=
  ⟨hWoven.entries, h.aligned.extra_iff, fun e hMem => (h.entries e hMem).nodes.imp hMerged⟩

section Tended
variable {es : List StackEntry}

theorem Tended.of_append {fs : List StackEntry} (h : Tended t (es ++ fs)) :
    Tended t es ∧ Tended t fs :=
  ⟨⟨h.covers.left_of_append, fun e hMem => h.kind e (List.mem_append_left fs hMem),
      fun e hMem => h.merged e (List.mem_append_left fs hMem)⟩,
    ⟨h.covers.right_of_append, fun e hMem => h.kind e (List.mem_append_right es hMem),
      fun e hMem => h.merged e (List.mem_append_right es hMem)⟩⟩

theorem Tended.kind_ne (h : Tended t es) {e : StackEntry} (hMem : e ∈ es) (hExtra : e.extra = false) :
    e.subtree.kind ≠ errorSymbol := by
  intro hKind
  simp [(h.kind e hMem).mpr hKind] at hExtra

/-- What entries show has its error nodes apart, where each that is not extra shows its subtree or
what is below it. -/
theorem Tended.apart (hGenerated : t.Generated g m) (hProper : g.Proper) (h : Tended t es)
    {piece : StackEntry → List SymbolId}
    (hPiece : ∀ e ∈ es, piece e = shownKinds t [e.subtree] ∨ t.isTerminal e.subtree.kind = false
      ∧ piece e = shownKinds t e.subtree.children) :
    Apart (es.reverse.flatMap piece)
      ∧ (errorSymbol ∈ (es.reverse.flatMap piece).getLast? → ∃ e ∈ es.head?, e.extra = true) := by
  have hTerminals : ∀ kind, t.isTerminal kind = true → t.isHidden kind = false :=
    fun kind hTerminal => (hGenerated.splices_of_isTerminal hProper hTerminal).1
  have hError : t.isTerminal errorSymbol = true := by
    rw [hGenerated.isTerminal_iff]
    exact decide_eq_true (Nat.lt_of_lt_of_le (by decide) hProper.reserved)
  refine apart_pieces (h.covers.imp_of_mem_imp fun e f hMem _ hCovers hExtra => ?_) ?_ ?_
  · obtain ⟨hPlain, hFronted⟩ := hCovers hExtra
    refine ⟨hPlain, ?_⟩
    rcases hPiece e hMem with hShows | ⟨hNonterminal, hShows⟩
    · rw [hShows]
      exact hFronted.headed hTerminals (h.kind_ne hMem hPlain)
    · rw [hShows]
      exact hFronted.resolve_left (by simp [hNonterminal])
  · intro e hMem hExtra
    have hKind := (h.kind e hMem).mp hExtra
    rcases hPiece e hMem with hShows | ⟨hNonterminal, -⟩
    · rw [hShows, shownKinds_of_shown (hTerminals _ (hKind ▸ hError)), hKind]
    · simp [hKind, hError] at hNonterminal
  · intro e hMem hExtra
    have hMerged := (h.merged e hMem).self
    rcases hPiece e hMem with hShows | ⟨-, hShows⟩
    · rw [hShows]
      exact hMerged.spaced (h.kind_ne hMem hExtra)
    · rw [hShows]
      exact hMerged.shown (h.kind_ne hMem hExtra)

end Tended

/-- What the children of a reduction show is what lay on the stack. -/
theorem shownKinds_reduced {info : Production} {top : List StackEntry} {lookaheadStop : Nat}
    (hTaken : (takeChildren info.rhs.reverse (s.entries.dropWhile (·.extra)) []).1.map (withField none)
      = (content top).map (withField none)) :
    shownKinds t (s.reduced t info lookaheadStop).children = shownKinds t (content top) := by
  rw [← shownKinds_congr hTaken, reduced, children_branch]
  split
  · rfl
  · exact shownKinds_unwrapped t _

/-- Error nodes are merged below the node of a reduction, and if it comes to lie on an error node it
can. -/
theorem Tended.reduced (hGenerated : t.Generated g m) (hProper : g.Proper)
    (h : Tended t s.entries) (info : Production) (hLhs : info.lhs ≠ errorSymbol)
    (lookaheadStop : Nat) :
    Merged t (s.reduced t info lookaheadStop)
      ∧ ∀ e ∈ (s.uncovered info).entries.head?, e.extra = true →
        Fronted t (s.reduced t info lookaheadStop) := by
  obtain ⟨top, hTop, hTaken⟩ := takeChildren_spec info.rhs.reverse (s.entries.dropWhile (·.extra)) []
  rw [List.append_nil] at hTaken
  have hFirst := extra_of_mem_head?_dropWhile s.entries
  have hRest : Tended t (s.entries.dropWhile (·.extra)) := by
    have hSplit := h
    rw [← List.takeWhile_append_dropWhile (p := (·.extra)) (l := s.entries)] at hSplit
    exact hSplit.of_append.2
  rw [hTop] at hFirst hRest
  obtain ⟨hApart, hLast⟩ := hRest.of_append.1.apart hGenerated hProper fun e _ => .inl rfl
  rw [← shownKinds_content] at hApart hLast
  refine ⟨⟨fun _ => ?_, fun hKind => absurd hKind hLhs⟩, fun e hMem hExtra => .inr ?_⟩
  · rw [shownKinds_reduced hTaken]
    refine ⟨hApart, fun hEnds => ?_⟩
    obtain ⟨e, hMem, hExtra⟩ := hLast hEnds
    rw [hFirst e (by simp [List.head?_append, Option.mem_def.mp hMem])] at hExtra
    simp at hExtra
  · rw [shownKinds_reduced hTaken]
    replace hMem : e ∈ (takeChildren info.rhs.reverse (s.entries.dropWhile (·.extra)) []).2.head? := hMem
    rcases List.eq_nil_or_concat top with hNone | ⟨upper, bottom, hSome⟩
    · rw [hNone, List.nil_append] at hFirst
      rw [hFirst e hMem] at hExtra
      simp at hExtra
    · have hCovers := List.isChain_append.mp hRest.covers
      obtain ⟨hPlain, hFronted⟩ := hCovers.2.2 bottom (by simp [hSome]) e hMem hExtra
      have hKind := hRest.kind_ne (e := bottom) (by simp [hSome]) hPlain
      have hHeaded := hFronted.headed
        (fun kind hTerminal => (hGenerated.splices_of_isTerminal hProper hTerminal).1) hKind
      rw [hSome, List.concat_eq_append, content_append, shownKinds_append]
      exact hHeaded.append

/-- Reductions do not bring two errors together either. -/
theorem Woven.reduce (hFaithful : t.Faithful g m) (hProper : g.Proper) (hLasting : Lasting t P)
    (h : Woven t s) (hLegal : s.Legal t P m) (hMerged : ∀ u, P u → Merged t u) {symbol : SymbolId}
    {rule : RuleId} {info : Production} (hReduce : t.action s.state symbol = .reduce rule)
    (hRule : t.rules[rule]? = some info) (lookaheadStop : Nat) :
    Woven t (s.reduce t info lookaheadStop).2 := by
  have hClosed := h.closeError
  have hOpen := @openError_closeError s
  have hLegalClosed := hLegal.closeError hLasting
  rw [← state_closeError] at hReduce
  obtain ⟨found, next, hFound, -, hGoto⟩ := hLegalClosed.leads_on hFaithful hProper hLasting hReduce
  obtain rfl := Option.some.inj (hRule.symm.trans hFound)
  obtain ⟨-, hFronted⟩ := (hLegalClosed.tended hMerged hClosed).reduced hFaithful.toGenerated hProper
    info (lhs_ne_error hFaithful.toGenerated hProper hRule) lookaheadStop
  obtain ⟨top, hSplit, -⟩ := s.closeError.entries_split info.rhs.reverse
  have hBase : Woven t (s.closeError.uncovered info) := hClosed.of_suffix hSplit hOpen
  have hPushed := hBase.push_of_plain hOpen next hFronted
  have hShut : ((s.closeError.uncovered info).push next
    (s.closeError.reduced t info lookaheadStop)).openError = #[] := openError_closeError
  rw [reduce_eq]
  simp only [hGoto]
  rcases hClosed.takeWhile_extra with hNone | ⟨e, hOne⟩
  · rw [hNone]
    exact hPushed
  · rw [hOne]
    refine hPushed.closeError.pushAside openError_closeError (fun f hMem => ?_) _
    rw [closeError_of_closed hShut] at hMem
    obtain rfl := Option.some.inj hMem
    rfl

end Woven
end ParseStack

namespace Subtree
variable {t : Tables} {kinds : Kinds}

/-- What comes out of subtrees is damaged only if one of them is. -/
theorem exists_damaged_of_mem_unwrapped {opens : Subtree → Bool} (ts : List Subtree)
    (hAll : ∀ u ∈ ts, All (Measured kinds) u) : ∀ v ∈ unwrapped opens ts, v.hasError = true →
      ∃ u ∈ ts, u.hasError = true := by
  induction ts using unwrapped_induction opens with
  | nil => simp
  | opened u ts hOpens ihChildren ih =>
      intro v hMem hError
      rw [unwrapped_of_opens hOpens] at hMem
      rcases List.mem_append.mp hMem with hMem | hMem
      · obtain ⟨w, hChild, hDamaged⟩ := ihChildren (fun w hChild => by
          obtain ⟨c, hIn, rfl⟩ := List.mem_map.mp hChild
          exact ((hAll u (by simp)).child hIn).withField Measured.withField _) v hMem hError
        obtain ⟨c, hIn, rfl⟩ := List.mem_map.mp hChild
        exact ⟨u, by simp, (hAll u (by simp)).self.damaged c hIn (by simpa [orField] using hDamaged)⟩
      · obtain ⟨w, hIn, hDamaged⟩ := ih (fun w hIn => hAll w (by simp [hIn])) v hMem hError
        exact ⟨w, by simp [hIn], hDamaged⟩
  | closed u ts hClosed ih =>
      intro v hMem hError
      rw [unwrapped_of_not_opens hClosed] at hMem
      rcases List.mem_cons.mp hMem with rfl | hMem
      · exact ⟨v, by simp, hError⟩
      · obtain ⟨w, hIn, hDamaged⟩ := ih (fun w hIn => hAll w (by simp [hIn])) v hMem hError
        exact ⟨w, by simp [hIn], hDamaged⟩

/-- A node that is sound and not empty can follow an error node. -/
theorem fronted_of_sound (hHidden : ∀ k, t.isHidden k = true → kinds.spliced k = true)
    (hPlain : t.isHidden errorSymbol = false) {u : Subtree} (hMeasured : All (Measured kinds) u)
    (hFlagged : All (Flagged t) u) (hSound : u.hasError = false) (hWide : u.total ≠ 0)
    (hLeaf : u.isLeaf = false) : Fronted t u := by
  have hKind : u.kind ≠ errorSymbol := by
    intro hIs
    simp [hFlagged.self.error hIs hLeaf] at hSound
  have hSome : u.children ≠ [] := children_of_not_isLeaf hLeaf
  have hWidth := (unwrapped_conserves (opener_kind hHidden hPlain) u.children
    (fun c hChild hOpens hNone => hMeasured.self.plain hKind c hChild hNone (hHidden _ hOpens))
    fun c hChild => hMeasured.child hChild).2
  have hFilled := filled_unwrapped hPlain u.children (fun c hChild => hFlagged.child hChild)
    (hFlagged.self.filled hKind)
  have hFlaggedBelow := @forall_all_unwrapped _ (fun field v (h : Flagged t v) => h.withField field)
    (t.isHidden ·.kind) u.children fun c hChild => hFlagged.child hChild
  have hDamaged := @exists_damaged_of_mem_unwrapped kinds (t.isHidden ·.kind) u.children
    fun c hChild => hMeasured.child hChild
  rw [← hMeasured.self.total hSome] at hWidth
  right
  rw [shownKinds]
  cases hFirst : unwrapped (t.isHidden ·.kind) u.children with
  | nil => exact absurd (by simpa [hFirst] using hWidth.symm) hWide
  | cons v vs =>
      have hMem : v ∈ unwrapped (t.isHidden ·.kind) u.children := by simp [hFirst]
      refine ⟨v.kind, rfl, fun hIs => ?_⟩
      obtain ⟨c, hChild, hError⟩ := hDamaged v hMem
        ((hFlaggedBelow v hMem).self.error hIs (hFilled v hMem hIs))
      simp [hMeasured.self.damaged c hChild hError] at hSound

end Subtree

namespace ParseJob
variable {job : ParseJob} {g : Grammar} {m : Automaton}

/-- A node of a parse, with error nodes merged right below it. -/
def Neat (g : Grammar) (t : Tables) (u : Subtree) : Prop := (Rooted g u ∧ Flagged t u) ∧ Merged t u

theorem borne_neat (hUpheld : job.Upheld g m fun u => Rooted g u ∧ Flagged job.tables u) :
    job.Borne g m (Neat g job.tables) where
  generated := hUpheld.generated
  proper := hUpheld.proper
  lasting := by
    refine ⟨fun field u h => ⟨hUpheld.lasting.withField field u h.1, h.2.withField field u⟩, ?_⟩
    intro serial state children hSome hClosed
    refine ⟨hUpheld.lasting.error serial state children hSome hClosed, fun hKind => absurd rfl hKind, ?_⟩
    intro _ c hChild hKind
    simpa [ParseStack.dissolves, hKind] using hClosed c hChild
  read := fun serial position =>
    ⟨hUpheld.read serial position, merged_of_isLeaf (isLeaf_readAt job serial position)⟩
  inserted := fun serial terminal hMem => ⟨hUpheld.inserted serial terminal hMem, merged_of_isLeaf rfl⟩
  inner := fun u h => hUpheld.inner u h.1

/-- Error nodes are merged in all that is at hand, and apart on the stack, and what is taken over from
the previous tree can follow one. -/
structure Seamless (job : ParseJob) (g : Grammar) (m : Automaton) (s : ParseState) : Prop where
  lawful : job.Lawful (Neat g job.tables) m s
  woven : s.stack.Woven job.tables
  pending : ∀ u ∈ s.pending, u.isLeaf = false → Fronted job.tables u

section Move
variable (hUpheld : job.Upheld g m fun u => Rooted g u ∧ Flagged job.tables u) {s r : ParseState}
  (hMove : job.Move s r)
include hUpheld hMove

/-- A move leaves error nodes apart on the stack. -/
theorem Seamless.woven_move (hFits : g.rules.size ≤ ruleBound) (h : job.Seamless g m s) :
    r.stack.Woven job.tables := by
  have hFaithful : job.tables.Faithful g m := ⟨hUpheld.generated, hFits⟩
  have hProper := hUpheld.proper
  have hBorne := borne_neat hUpheld
  have hMerged : ∀ u, Neat g job.tables u → Merged job.tables u := fun _ hNeat => hNeat.2
  have hAligned := h.lawful.stack.aligned
  cases hMove with
  | note => exact h.woven.noteDecision
  | read => exact h.woven.withSerial _
  | offer | advance | drop => exact h.woven
  | insert => exact h.woven.withSerial _
  | shift t ts next hPending hLeaf hShift =>
      exact h.woven.push next (.inl (job.tables.isTerminal_of_action hShift (by simp)))
  | reuse t ts next hPending hLeaf =>
      exact h.woven.push next (h.pending t (by simp [hPending]) hLeaf)
  | reduce t ts rule info lookaheadStop hPending hReduce hRule =>
      exact h.woven.reduce hFaithful hProper hBorne.lasting h.lawful.stack hMerged hReduce hRule _
  | skip => exact h.woven.pushSkipped hAligned _
  | cut depth =>
      have hPopped := (h.lawful.stack.pop hBorne.lasting depth).1.aligned
      dsimp only
      split
      · exact (h.woven.pop depth).noteDecision
      · exact (h.woven.pop depth).noteDecision.pushSkipped hPopped _

/-- What a move takes over from the previous tree begins with something that is sound. -/
theorem Seamless.pending_move (hSized : job.Sized s) (h : job.Seamless g m s) :
    ∀ u ∈ r.pending, u.isLeaf = false → Fronted job.tables u := by
  cases hMove with
  | note | advance | reduce => exact h.pending
  | read =>
      intro u hMem hLeaf
      rcases List.mem_append.mp hMem with hMem | hMem
      · exact h.pending u hMem hLeaf
      · obtain rfl := List.mem_singleton.mp hMem
        simp [isLeaf_readAt] at hLeaf
  | offer q t ts hPending hQueue hAhead hStart hReusable =>
      intro u hMem hLeaf
      obtain rfl := List.mem_singleton.mp hMem
      obtain ⟨-, hSound, -, hWide⟩ := (ReuseQueue.isReusable_iff _ _ _).mp hReusable
      have hIn : u ∈ q.ahead := by simp [hAhead]
      exact fronted_of_sound isHidden_widths (not_splices_errorSymbol hUpheld.generated hUpheld.proper).1
        (hSized.queue q hQueue u hIn) ((h.lawful.queue q hQueue u hIn).imp fun _ hNeat => hNeat.1.2)
        hSound (Nat.ne_of_gt hWide) hLeaf
  | drop => simp
  | insert ts nextSerial hLeaves hInserted =>
      intro u hMem hLeaf
      rcases List.mem_append.mp hMem with hMem | hMem
      · obtain ⟨serial, terminal, -, rfl⟩ := hInserted u hMem
        simp [isLeaf_inserted] at hLeaf
      · exact h.pending u hMem hLeaf
  | shift t ts next hPending => exact fun u hMem => h.pending u (by simp [hPending, hMem])
  | reuse t ts next hPending => exact fun u hMem => h.pending u (by simp [hPending, hMem])
  | skip t ts hPending => exact fun u hMem => h.pending u (by simp [hPending, hMem])
  | cut depth ts u us hPending =>
      exact fun v hMem => h.pending v (by rw [hPending]; exact List.mem_append_right ts hMem)

/-- One move leaves no error node next to another one. -/
theorem Seamless.move (hFits : g.rules.size ≤ ruleBound) (hSized : job.Sized s)
    (h : job.Seamless g m s) : job.Seamless g m r := by
  have hBorne := borne_neat hUpheld
  have hClosed := h.lawful.stack.closeError hBorne.lasting
  have hLawful : job.Lawful (Neat g job.tables) m r := by
    refine h.lawful.move_of_reduced hBorne hMove fun {rule info} hRule hTaken lookaheadStop => ?_
    have hLhs := ParseStack.lhs_ne_error hUpheld.generated hUpheld.proper hRule
    refine ⟨hUpheld.reduced hRule (hTaken.imp fun _ hNeat => hNeat.1) lookaheadStop, ?_⟩
    exact ((hClosed.tended (fun _ hNeat => hNeat.2) h.woven.closeError).reduced hUpheld.generated
      hUpheld.proper info hLhs _).1
  exact ⟨hLawful, h.woven_move hUpheld hMove hFits, h.pending_move hUpheld hMove hSized⟩

end Move

/-- Moves leave the errors merged and apart. -/
theorem Seamless.moves (hUpheld : job.Upheld g m fun u => Rooted g u ∧ Flagged job.tables u)
    (hFits : g.rules.size ≤ ruleBound) {s r : ParseState} (hMoves : job.Moves s r)
    (hSized : job.Sized s) (h : job.Seamless g m s) : job.Seamless g m r :=
  (keep_of_moves (P := fun s => job.Sized s ∧ job.Seamless g m s)
    (fun hMove hBefore => ⟨hBefore.1.move hUpheld.generated hUpheld.proper hMove,
      hBefore.2.move hUpheld hMove hFits hBefore.1⟩) hMoves ⟨hSized, h⟩).2

/-- A parse starts with no errors side by side. -/
theorem seamless_start {queue : Option ReuseQueue}
    (hQueue : ∀ q, queue = some q → ∀ u ∈ q.ahead, All (Neat g job.tables) u) (nextSerial : Nat) :
    job.Seamless g m (start queue nextSerial) :=
  ⟨lawful_start hQueue nextSerial, ParseStack.woven_empty nextSerial, by simp [start]⟩

/-- However a parse ends, error nodes are apart on its stack. -/
theorem Seamless.outcome (hUpheld : job.Upheld g m fun u => Rooted g u ∧ Flagged job.tables u)
    {s : ParseState} (h : job.Seamless g m s) {accepted : Bool} {stack : ParseStack}
    (hOutcome : job.Outcome s accepted stack) :
    stack.Legal job.tables (Neat g job.tables) m ∧ stack.Woven job.tables := by
  refine ⟨h.lawful.ended (borne_neat hUpheld).lasting hOutcome, ?_⟩
  cases hOutcome with
  | accepted => exact h.woven
  | abandoned =>
      split
      · exact h.woven.popAll
      · exact h.woven.popAll.pushSkipped (m := m) trivial _

end ParseJob
end IncrementalParsing
