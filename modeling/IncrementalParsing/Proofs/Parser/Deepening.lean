import IncrementalParsing.Parser.Trial

/-! A search that goes deeper and deeper along one path, which it shares between all branches and
depths, and tries every letter on a copy of the state. What it finds is the first of the shortest
words that lead to the lookahead. -/
namespace IncrementalParsing

namespace Deepening

section
variable {σ : Type} (feed : σ → SymbolId → Bool × σ) (letters : List SymbolId)
  (lookahead : SymbolId)

/-- What is left of a state that takes a terminal. -/
def fed? (s : σ) (terminal : SymbolId) : Option σ :=
  if (feed s terminal).1 then some (feed s terminal).2 else none

/-- The terminals can be fed one after the other, and then the lookahead. -/
def Leads (s : σ) (word : List SymbolId) : Prop :=
  (∀ k ∈ word, k ∈ letters) ∧ ((word ++ [lookahead]).foldlM (fed? feed) s).isSome = true

/-- The first word of a length that leads to the lookahead. -/
def firstOf? : (length : Nat) → σ → Option (List SymbolId)
  | 0, s => if (feed s lookahead).1 then some [] else none
  | length + 1, s =>
      letters.findSome? fun k =>
        match fed? feed s k with
        | none => none
        | some next => (firstOf? length next).map (k :: ·)

/-- The first of the shortest words with `length` terminals and up to `more` beyond them. -/
def shortestOf? (s : σ) : (more length : Nat) → Option (List SymbolId)
  | 0, _ => none
  | more + 1, length =>
      match firstOf? feed letters lookahead length s with
      | some word => some word
      | none => shortestOf? s more (length + 1)

/-- One word is no later than another in the order of the numbers of its letters. -/
def NoLater (word other : List SymbolId) : Prop :=
  word = other ∨ List.Lex (· < ·) word other

theorem NoLater.antisymm {word other : List SymbolId} (h : NoLater word other)
    (h' : NoLater other word) : word = other := by
  rcases h with hSame | hBefore
  · exact hSame
  · rcases h' with hSame | hAfter
    · exact hSame.symm
    · exact absurd hAfter (List.lt_asymm hBefore)

/-- Feeds a copy of the state with one letter after the other and goes on from there. The letter is
on the path as long as it is tried. -/
def tryEach (goOn : σ → Array SymbolId → Bool × Array SymbolId) (s : σ) :
    List SymbolId → Array SymbolId → Bool × Array SymbolId
  | [], path => (false, path)
  | k :: ks, path =>
      match feed s k with
      | (false, _) => tryEach goOn s ks path
      | (true, next) =>
          match goOn next (path.push k) with
          | (true, path) => (true, path)
          | (false, path) => tryEach goOn s ks path.pop

/-- Puts letters on the path until the lookahead can be fed. -/
def search : (remaining : Nat) → σ → Array SymbolId → Bool × Array SymbolId
  | 0, s, path => ((feed s lookahead).1, path)
  | remaining + 1, s, path => tryEach feed (search remaining) s letters path

/-- Searches deeper and deeper, always along the same path. -/
def deepen (s : σ) : (more length : Nat) → Array SymbolId → Option (List SymbolId)
  | 0, _, _ => none
  | more + 1, length, path =>
      match search feed letters lookahead length s path with
      | (true, path) => some path.toList
      | (false, path) => deepen s more (length + 1) path

variable {feed letters lookahead} {s : σ} {word : List SymbolId}

theorem leads_nil : Leads feed letters lookahead s [] ↔ (feed s lookahead).1 = true := by
  simp [Leads, fed?]

theorem leads_cons {k : SymbolId} : Leads feed letters lookahead s (k :: word) ↔
    k ∈ letters ∧ ∃ next, fed? feed s k = some next ∧ Leads feed letters lookahead next word := by
  simp only [Leads, List.forall_mem_cons, List.cons_append, List.foldlM_cons]
  cases fed? feed s k with
  | none => simp
  | some next => simp [and_assoc]

theorem firstOf?_succ_eq_some {length : Nat}
    (hFound : firstOf? feed letters lookahead (length + 1) s = some word) :
    ∃ front k back next rest, letters = front ++ k :: back ∧ word = k :: rest
      ∧ fed? feed s k = some next ∧ firstOf? feed letters lookahead length next = some rest
      ∧ ∀ l ∈ front, ∀ after, fed? feed s l = some after →
        firstOf? feed letters lookahead length after = none := by
  obtain ⟨front, k, back, hSplit, hHere, hFront⟩ := List.findSome?_eq_some_iff.mp hFound
  split at hHere
  · simp at hHere
  · rename_i next hNext
    obtain ⟨rest, hRest, rfl⟩ := Option.map_eq_some_iff.mp hHere
    refine ⟨front, k, back, next, rest, hSplit, rfl, hNext, hRest, fun l hMem after hAfter => ?_⟩
    simpa [hAfter] using hFront l hMem

/-- Nothing is found just where no word of the length leads to the lookahead. -/
theorem firstOf?_eq_none_iff (length : Nat) (s : σ) :
    firstOf? feed letters lookahead length s = none ↔
      ∀ word, Leads feed letters lookahead s word → word.length ≠ length := by
  induction length generalizing s with
  | zero =>
      simp only [firstOf?, ite_eq_right_iff, reduceCtorEq, imp_false]
      constructor
      · intro hBlocked word hLeads hLength
        obtain rfl := List.length_eq_zero_iff.mp hLength
        exact hBlocked (leads_nil.mp hLeads)
      · exact fun hNone hOpen => hNone [] (leads_nil.mpr hOpen) rfl
  | succ length ih =>
      rw [firstOf?, List.findSome?_eq_none_iff]
      constructor
      · intro hNone word hLeads hLength
        obtain ⟨k, rest, rfl⟩ := List.exists_cons_of_length_eq_add_one hLength
        obtain ⟨hMem, next, hNext, hRest⟩ := leads_cons.mp hLeads
        have hHere := hNone k hMem
        simp only [hNext, Option.map_eq_none_iff] at hHere
        exact (ih next).mp hHere rest hRest (by simpa using hLength)
      · intro hNone k hMem
        split
        · rfl
        · rename_i next hNext
          rw [Option.map_eq_none_iff, ih]
          intro rest hRest hLength
          exact hNone (k :: rest) (leads_cons.mpr ⟨hMem, next, hNext, hRest⟩) (by simp [hLength])

/-- What is found leads to the lookahead, and no other word of the length comes before it. -/
theorem firstOf?_spec (hOrdered : letters.Pairwise (· < ·)) {length : Nat}
    (hFound : firstOf? feed letters lookahead length s = some word) :
    Leads feed letters lookahead s word ∧ word.length = length
      ∧ ∀ other, Leads feed letters lookahead s other → other.length = length → NoLater word other := by
  induction length generalizing s word with
  | zero =>
      obtain ⟨hOpen, rfl⟩ : (feed s lookahead).1 = true ∧ [] = word := by
        simpa [firstOf?] using hFound
      exact ⟨leads_nil.mpr hOpen, rfl, fun other _ hSame => .inl (List.length_eq_zero_iff.mp hSame).symm⟩
  | succ length ih =>
      obtain ⟨front, k, back, next, rest, hSplit, rfl, hNext, hRest, hFront⟩ :=
        firstOf?_succ_eq_some hFound
      obtain ⟨hLeads, hLength, hFirst⟩ := ih hRest
      refine ⟨leads_cons.mpr ⟨by simp [hSplit], next, hNext, hLeads⟩, by simp [hLength], ?_⟩
      intro other hOther hSame
      obtain ⟨l, tail, rfl⟩ := List.exists_cons_of_length_eq_add_one hSame
      obtain ⟨hMem, after, hAfter, hTail⟩ := leads_cons.mp hOther
      have hTailLength : tail.length = length := by simpa using hSame
      -- The letters in front have failed, so the other word begins with this one or a later one.
      rw [hSplit, List.mem_append, List.mem_cons] at hMem
      rcases hMem with hMem | rfl | hMem
      · have hNone := (firstOf?_eq_none_iff length after).mp (hFront l hMem after hAfter)
        exact absurd hTailLength (hNone tail hTail)
      · obtain rfl : next = after := Option.some.inj (hNext.symm.trans hAfter)
        exact (hFirst tail hTail hTailLength).imp (congrArg (_ :: ·)) .cons
      · have hLess : k < l := by
          rw [hSplit] at hOrdered
          exact (List.pairwise_cons.mp (List.pairwise_append.mp hOrdered).2.1).1 l hMem
        exact .inr (.rel hLess)

theorem shortestOf?_eq_none_iff (more length : Nat) :
    shortestOf? feed letters lookahead s more length = none ↔
      ∀ word, Leads feed letters lookahead s word → length ≤ word.length →
        length + more ≤ word.length := by
  induction more generalizing length with
  | zero => simp [shortestOf?]
  | succ more ih =>
      rw [shortestOf?]
      split
      · rename_i found hFound
        refine iff_of_false (by simp) fun hNone => ?_
        have hEmpty := (firstOf?_eq_none_iff length s).mpr fun word hLeads hLength => by
          have hLong := hNone word hLeads (by omega)
          omega
        simp [hEmpty] at hFound
      · rename_i hNone
        rw [firstOf?_eq_none_iff] at hNone
        rw [ih]
        refine forall₂_congr fun word hLeads => ?_
        have hOther := hNone word hLeads
        omega

/-- What is found is as short as possible, and the first of its length. -/
theorem shortestOf?_spec (hOrdered : letters.Pairwise (· < ·)) {more length : Nat}
    (hFound : shortestOf? feed letters lookahead s more length = some word) :
    Leads feed letters lookahead s word ∧ length ≤ word.length ∧ word.length < length + more
      ∧ ∀ other, Leads feed letters lookahead s other → length ≤ other.length →
        word.length < other.length ∨ word.length = other.length ∧ NoLater word other := by
  induction more generalizing length with
  | zero => simp [shortestOf?] at hFound
  | succ more ih =>
      rw [shortestOf?] at hFound
      split at hFound
      · rename_i found hHere
        obtain rfl := Option.some.inj hFound
        obtain ⟨hLeads, hLength, hFirst⟩ := firstOf?_spec hOrdered hHere
        refine ⟨hLeads, by omega, by omega, fun other hOther hLong => ?_⟩
        rcases Nat.lt_or_eq_of_le hLong with hLess | hSame
        · exact .inl (by omega)
        · exact .inr ⟨by omega, hFirst other hOther hSame.symm⟩
      · rename_i hNone
        obtain ⟨hLeads, hLong, hShort, hFirst⟩ := ih hFound
        refine ⟨hLeads, by omega, by omega, fun other hOther hOtherLong => ?_⟩
        have hDiffers := (firstOf?_eq_none_iff length s).mp hNone other hOther
        exact hFirst other hOther (by omega)

/-- Trying letters leaves on the path what is found behind the first that leads anywhere. -/
theorem tryEach_eq {goOn : σ → Array SymbolId → Bool × Array SymbolId}
    {found? : σ → Option (List SymbolId)}
    (hGoOn : ∀ s path, goOn s path =
      match found? s with
      | some word => (true, path ++ word.toArray)
      | none => (false, path))
    (s : σ) (ks : List SymbolId) (path : Array SymbolId) :
    tryEach feed goOn s ks path =
      match ks.findSome? fun k =>
        match fed? feed s k with
        | none => none
        | some next => (found? next).map (k :: ·) with
      | some word => (true, path ++ word.toArray)
      | none => (false, path) := by
  induction ks with
  | nil => rfl
  | cons k ks ih =>
      rw [tryEach, List.findSome?_cons, fed?]
      split
      · rename_i hRefused
        simpa [hRefused] using ih
      · rename_i next hTaken
        simp only [hTaken, if_true, hGoOn]
        cases found? next with
        | some word => simp
        | none => simpa using ih

/-- A search leaves on the path what it has found, or nothing of what it has tried. -/
theorem search_eq (length : Nat) (s : σ) (path : Array SymbolId) :
    search feed letters lookahead length s path =
      match firstOf? feed letters lookahead length s with
      | some word => (true, path ++ word.toArray)
      | none => (false, path) := by
  induction length generalizing s path with
  | zero => cases hOpen : (feed s lookahead).1 <;> simp [search, firstOf?, hOpen]
  | succ length ih => exact tryEach_eq ih s letters path

/-- Every depth starts with an empty path, so the path is what the last depth has found. -/
theorem deepen_eq (s : σ) (more length : Nat) :
    deepen feed letters lookahead s more length #[] =
      shortestOf? feed letters lookahead s more length := by
  induction more generalizing length with
  | zero => rfl
  | succ more ih =>
      rw [deepen, shortestOf?, search_eq]
      cases firstOf? feed letters lookahead length s with
      | some word => simp
      | none => exact ih (length + 1)

end
end Deepening
end IncrementalParsing
