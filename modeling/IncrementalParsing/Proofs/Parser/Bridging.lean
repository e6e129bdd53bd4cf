import IncrementalParsing.Proofs.Parser.Deepening

/-! Which tokens are inserted. A trial works on a stack that leaves the parser's own as it is and
says how much of it is left, and the search for a repair copies that stack at every step. What is
found is the first of the shortest sequences of terminals that make the lookahead acceptable. -/
namespace IncrementalParsing

/-- A stack for trials: what is kept of the parser's states, from the bottom up, and the states
pushed on them, the top first. -/
structure TrialStack where
  base : List StateId
  kept : Nat
  pushed : List StateId

namespace TrialStack

/-- All of the parser's states. The base state is always kept. -/
def start (base : List StateId) : TrialStack := ⟨base, max base.length 1, []⟩

def top (s : TrialStack) : StateId :=
  match s.pushed with
  | state :: _ => state
  | [] => s.base.getD (s.kept - 1) 0

def push (s : TrialStack) (state : StateId) : TrialStack := { s with pushed := state :: s.pushed }

def pop (s : TrialStack) (count : Nat) : TrialStack :=
  { s with pushed := s.pushed.drop count, kept := max (s.kept - (count - s.pushed.length)) 1 }

/-- A trial over the start state and `floor` has come to some states, the top of both first. -/
structure Shows (floor : List StateId) (s : TrialStack) (states : List StateId) : Prop where
  base : s.base = 0 :: floor.reverse
  kept : 1 ≤ s.kept ∧ s.kept ≤ floor.length + 1
  states : states = s.pushed ++ floor.drop (floor.length + 1 - s.kept)

section
variable {floor states : List StateId} {s : TrialStack}

/-- A trial starts with the states that it stands on. -/
theorem shows_start (floor : List StateId) : Shows floor (start (0 :: floor.reverse)) floor :=
  ⟨rfl, by simp [start], by simp [start]⟩

/-- A state that is pushed shows on top. -/
theorem Shows.push (h : Shows floor s states) (state : StateId) :
    Shows floor (s.push state) (state :: states) :=
  ⟨h.base, h.kept, by simp [TrialStack.push, h.states]⟩

/-- States that are popped show no more, whether they were pushed or are of the floor. -/
theorem Shows.pop (h : Shows floor s states) (count : Nat) :
    Shows floor (s.pop count) (states.drop count) := by
  have hKept := h.kept
  refine ⟨h.base, by simp only [TrialStack.pop]; omega, ?_⟩
  rw [h.states, List.drop_append, List.drop_drop]
  simp only [TrialStack.pop, List.append_cancel_left_eq]
  -- Below the base state nothing is popped.
  rcases Nat.lt_or_ge (count - s.pushed.length) s.kept with hAbove | hBelow
  · congr 1
    omega
  · rw [List.drop_of_length_le (by omega), List.drop_of_length_le (by omega)]

theorem Shows.top (h : Shows floor s states) : s.top = states.headD 0 := by
  obtain ⟨hLow, hHigh⟩ := h.kept
  rw [TrialStack.top, h.states]
  split
  · rename_i hPushed
    simp [hPushed]
  · rename_i hPushed
    rw [hPushed, List.nil_append, h.base]
    rcases Nat.eq_or_lt_of_le hLow with hOne | hMore
    · simp [← hOne]
    · obtain ⟨below, hBelow⟩ := Nat.exists_eq_add_of_lt hMore
      have hInside : below < floor.length := by omega
      have hIndex : floor.length - 1 - below = floor.length + 1 - s.kept := by omega
      rw [show s.kept - 1 = below + 1 by omega, List.getD_cons_succ, List.getD_eq_getElem?_getD,
        List.getElem?_reverse hInside, hIndex, List.headD_eq_head?_getD, List.head?_drop]

end
end TrialStack

namespace Tables

/-- Runs the states on a terminal until it is shifted or accepted. The stack stays as it is where
the trial has failed. -/
def feed (t : Tables) (terminal : SymbolId) : (limit : Nat) → TrialStack → Bool × TrialStack
  | 0, s => (false, s)
  | limit + 1, s =>
      match t.action s.top terminal with
      | .shift next => (true, s.push next)
      | .accept => (true, s)
      | .reduce rule =>
          match t.rules[rule]? with
          | none => (false, s)
          | some info =>
              let popped := s.pop info.rhs.length
              match t.goto popped.top info.lhs with
              | none => (false, popped)
              | some next => t.feed terminal limit (popped.push next)
      | .error => (false, s)

/-- Tries a terminal on a copy of the stack. -/
def trial (t : Tables) (s : TrialStack) (terminal : SymbolId) : Bool × TrialStack :=
  t.feed terminal maxTrial s

/-- The terminals to insert before the lookahead, up to `maxLength` of them. -/
def missingSequence (t : Tables) (base : List StateId) (lookahead : SymbolId) (maxLength : Nat) :
    Option (List SymbolId) :=
  Deepening.deepen t.trial t.insertable lookahead (.start base) maxLength 1 #[]

/-- A sequence of terminals that no reserved symbol and no invalid token is in. After it the
lookahead can be shifted or accepted. -/
structure Bridges (t : Tables) (base : List StateId) (lookahead : SymbolId) (maxLength : Nat)
    (word : List SymbolId) : Prop where
  length : 1 ≤ word.length ∧ word.length ≤ maxLength
  kinds : ∀ k ∈ word, t.isTerminal k = true ∧ k ≠ endSymbol ∧ k ≠ errorSymbol
    ∧ t.isErrorToken k = false
  fed : ((word ++ [lookahead]).foldlM (Deepening.fed? t.trial) (TrialStack.start base)).isSome = true

/-- Terminals that may be inserted are neither reserved nor those of damage. -/
theorem mem_insertable {t : Tables} {k : SymbolId} : k ∈ t.insertable ↔
    t.isTerminal k = true ∧ k ≠ endSymbol ∧ k ≠ errorSymbol ∧ t.isErrorToken k = false := by
  have hRange (n count : Nat) : (2 ≤ n ∧ n < 2 + (count - 2)) ↔ n < count ∧ n ≠ 0 ∧ n ≠ 1 := by
    omega
  rw [insertable, List.mem_filter, List.mem_range'_1, hRange, isTerminal, decide_eq_true_iff,
    Bool.not_eq_true', and_assoc, and_assoc]
  rfl

theorem pairwise_insertable (t : Tables) : t.insertable.Pairwise (· < ·) :=
  List.Pairwise.filter _ List.pairwise_lt_range'

/-- To bridge a gap is to lead across it, with a bounded number of terminals. -/
theorem bridges_iff {t : Tables} {base : List StateId} {lookahead : SymbolId} {maxLength : Nat}
    {word : List SymbolId} : t.Bridges base lookahead maxLength word ↔
      Deepening.Leads t.trial t.insertable lookahead (.start base) word
        ∧ 1 ≤ word.length ∧ word.length ≤ maxLength := by
  constructor
  · exact fun h => ⟨⟨fun k hMem => mem_insertable.mpr (h.kinds k hMem), h.fed⟩, h.length⟩
  · exact fun h => ⟨h.2, fun k hMem => mem_insertable.mp (h.1.1 k hMem), h.1.2⟩

section
variable {t : Tables} {floor states : List StateId} {s : TrialStack} {lookahead : SymbolId}

/-- A trial does on its stack what the parser would do on its own. -/
theorem feed_shows (terminal : SymbolId) (limit : Nat) (hShows : s.Shows floor states) :
    match t.act terminal limit states with
    | none => (t.feed terminal limit s).1 = false
    | some next => (t.feed terminal limit s).1 = true
        ∧ (t.feed terminal limit s).2.Shows floor next := by
  induction limit generalizing s states with
  | zero => rfl
  | succ limit ih =>
      rw [act, feed, hShows.top]
      cases t.action (states.headD 0) terminal with
      | shift next => exact ⟨rfl, hShows.push next⟩
      | accept => exact ⟨rfl, hShows⟩
      | error => rfl
      | reduce rule =>
          dsimp only
          cases t.rules[rule]? with
          | none => rfl
          | some info =>
              have hPopped := hShows.pop info.rhs.length
              dsimp only
              rw [hPopped.top]
              cases t.goto ((states.drop info.rhs.length).headD 0) info.lhs with
              | none => rfl
              | some next => exact ih (hPopped.push next)

theorem fed?_shows (terminal : SymbolId) (hShows : s.Shows floor states) :
    Option.Rel (TrialStack.Shows floor) (Deepening.fed? t.trial s terminal)
      (t.after? states terminal) := by
  have hFed := feed_shows (t := t) terminal maxTrial hShows
  rw [Deepening.fed?, trial, after?]
  cases hAct : t.act terminal maxTrial states with
  | none =>
      rw [hAct] at hFed
      rw [if_neg (by simp [hFed])]
      exact .none
  | some next =>
      rw [hAct] at hFed
      rw [if_pos hFed.1]
      exact .some hFed.2

/-- The search with a shared path finds what the search on lists of states does. -/
theorem firstOf?_eq_bridge? (length : Nat) (hShows : s.Shows floor states) :
    Deepening.firstOf? t.trial t.insertable lookahead length s =
      t.bridge? lookahead length states := by
  induction length generalizing s states with
  | zero =>
      have hFed := feed_shows (t := t) lookahead maxTrial hShows
      rw [Deepening.firstOf?, bridge?, takes, after?, trial]
      cases hAct : t.act lookahead maxTrial states <;> rw [hAct] at hFed <;> simp [hFed]
  | succ length ih =>
      rw [Deepening.firstOf?, bridge?]
      congr 1
      funext terminal
      have hFed := fed?_shows (t := t) terminal hShows
      generalize Deepening.fed? t.trial s terminal = fed at hFed ⊢
      generalize t.after? states terminal = after at hFed ⊢
      cases hFed with
      | none => rfl
      | some hNext => exact congrArg (Option.map (terminal :: ·)) (ih hNext)

/-- The parser inserts what the search on trial stacks finds. -/
theorem bridgeOf?_eq_missingSequence (t : Tables) (states : List StateId) (lookahead : SymbolId)
    (maxLength : Nat) : t.bridgeOf? states lookahead maxLength =
      t.missingSequence (0 :: states.reverse) lookahead maxLength := by
  rw [missingSequence, Deepening.deepen_eq, bridgeOf?]
  generalize 1 = length
  induction maxLength generalizing length with
  | zero => rfl
  | succ more ih =>
      have hFirst : Deepening.firstOf? t.trial t.insertable lookahead length
          (.start (0 :: states.reverse)) = t.bridge? lookahead length states :=
        firstOf?_eq_bridge? length (TrialStack.shows_start states)
      cases hFound : t.bridge? lookahead length states <;>
        simp only [bridgeFrom?, Deepening.shortestOf?, hFirst, hFound, ih]

end

/-- What is found are the fewest terminals that can be inserted, and the first in the order of their
numbers. Nothing is found just where nothing can be inserted. -/
theorem missingSequence_shortest (t : Tables) (base : List StateId) (lookahead : SymbolId)
    (maxLength : Nat) :
    (∀ word, t.missingSequence base lookahead maxLength = some word ↔
      t.Bridges base lookahead maxLength word
        ∧ ∀ other, t.Bridges base lookahead maxLength other →
          word.length < other.length
            ∨ word.length = other.length ∧ Deepening.NoLater word other)
      ∧ (t.missingSequence base lookahead maxLength = none ↔
        ∀ word, ¬ t.Bridges base lookahead maxLength word)
      ∧ ∀ states, t.bridgeOf? states lookahead maxLength =
        t.missingSequence (0 :: states.reverse) lookahead maxLength := by
  have hNone : t.missingSequence base lookahead maxLength = none ↔
      ∀ word, ¬ t.Bridges base lookahead maxLength word := by
    rw [missingSequence, Deepening.deepen_eq, Deepening.shortestOf?_eq_none_iff]
    refine forall_congr' fun word => ?_
    rw [bridges_iff, not_and]
    refine imp_congr_right fun _ => ?_
    omega
  have hSome : ∀ word, t.missingSequence base lookahead maxLength = some word →
      t.Bridges base lookahead maxLength word
        ∧ ∀ other, t.Bridges base lookahead maxLength other →
          word.length < other.length
            ∨ word.length = other.length ∧ Deepening.NoLater word other := by
    intro word hFound
    rw [missingSequence, Deepening.deepen_eq] at hFound
    obtain ⟨hLeads, hLong, hShort, hFirst⟩ :=
      Deepening.shortestOf?_spec t.pairwise_insertable hFound
    refine ⟨bridges_iff.mpr ⟨hLeads, hLong, by omega⟩, fun other hOther => ?_⟩
    obtain ⟨hOtherLeads, hOtherLong, -⟩ := bridges_iff.mp hOther
    exact hFirst other hOtherLeads hOtherLong
  refine ⟨fun word => ⟨hSome word, fun ⟨hBridges, hLeast⟩ => ?_⟩, hNone,
    fun states => t.bridgeOf?_eq_missingSequence states lookahead maxLength⟩
  -- Both the word found and this one come before every other, so they are the same.
  cases hFound : t.missingSequence base lookahead maxLength with
  | none => exact absurd hBridges (hNone.mp hFound word)
  | some found =>
      obtain ⟨hFoundBridges, hFoundLeast⟩ := hSome found hFound
      rcases hLeast found hFoundBridges with hShorter | ⟨hSame, hHere⟩
      · rcases hFoundLeast word hBridges with hFewer | ⟨hEqual, -⟩ <;> omega
      · rcases hFoundLeast word hBridges with hFewer | ⟨-, hThere⟩
        · omega
        · rw [hThere.antisymm hHere]

end Tables
end IncrementalParsing
