import IncrementalParsing.Proofs.SysY.Partition
import IncrementalParsing.Proofs.Text.WellFormed

/-! A block comment ends where it is closed first. One that is not closed ends with the text, or in front of
a byte that is no part of a character. -/
namespace IncrementalParsing.SysY
open Text Text.Regex

/-- No comment is closed from one place on in front of another. -/
def Unclosed (text : ByteArray) (i j : Nat) : Prop := ∀ k, i ≤ k → k < j → ¬ Closes text k

/-- Where a comment ends whose inside begins at a place, and what it is a token of, if it is one. It ends
behind the first star that has a slash behind it, if there is one and no malformed byte in front of it. -/
inductive CommentEnds (text : ByteArray) (i : Nat) : Option Terminal → Nat → Prop
  | closed {k : Nat} (hStart : i ≤ k) (hCloses : Closes text k) (hFirst : Unclosed text i k)
      (hText : WellFormed text i (k + 2)) : CommentEnds text i none (k + 2)
  | unclosed (hOpen : Unclosed text i text.size) (hText : WellFormed text i text.size) :
      CommentEnds text i (some .unterminatedComment) text.size
  | malformed {m : Nat} (hFirst : Malformed text i m) (hOpen : Unclosed text i m) :
      CommentEnds text i (some .unterminatedComment) m

/-- The longest match at a place, and what it is a token of, if it is one. -/
def Takes (text : ByteArray) (i : Nat) (t? : Option Terminal) (j : Nat) : Prop :=
  ∃ pattern, Wins text i pattern j ∧ pattern.terminal? = t?

section
variable {text : ByteArray} {i j k : Nat} {t? : Option Terminal}

/-- No character takes the star of what closes a comment with it. -/
theorem stop_le_of_closes (hCloses : Closes text k) {c : Char} (hDecodes : text.utf8DecodeChar? i = some c)
    (hAfter : i < k) : i + c.utf8Size ≤ k := by
  refine Nat.le_of_not_lt fun hBefore => ?_
  exact absurd (high_of_decodes hDecodes hAfter hBefore hCloses.1) (by decide)

/-- Well-formed text with nothing in it that closes a comment is inside one, up to its end or to what closes
the comment. -/
theorem inside_of_wellFormed (hText : WellFormed text i j) (hInside : j ≤ text.size) (hStart : i ≤ k)
    (hStop : k = j ∨ k < j ∧ Closes text k) (hOpen : Unclosed text i k) : Inside text i k := by
  induction hLeft : k - i using Nat.strong_induction_on generalizing i with
  | _ left ih =>
      rcases Nat.eq_or_lt_of_le hStart with rfl | hLess
      · exact .here
      obtain ⟨c, hDecodes, hEnd⟩ := hText.first (by omega) hInside
      have hNext : i + c.utf8Size ≤ k := by
        rcases hStop with rfl | ⟨-, hCloses⟩
        · exact hEnd
        · exact stop_le_of_closes hCloses hDecodes hLess
      have hSome := c.utf8Size_pos
      refine .next hDecodes (hOpen i (Nat.le_refl i) hLess) ?_
      exact ih _ (by omega) ((wellFormed_next hDecodes hEnd).mp hText) hNext
        (fun l hFrom => hOpen l (by omega)) rfl

theorem Inside.le (hInside : Inside text i j) : i ≤ j := by
  induction hInside with
  | here => exact Nat.le_refl _
  | next _ _ _ ih => omega

theorem Inside.wellFormed (hInside : Inside text i j) : WellFormed text i j := by
  induction hInside with
  | here => exact wellFormed_self text _
  | next hDecodes _ hRest ih => exact (wellFormed_next hDecodes hRest.le).mpr ih

theorem Inside.unclosed (hInside : Inside text i j) : Unclosed text i j := by
  induction hInside with
  | here => exact fun k hFrom hTo => absurd hFrom (Nat.not_le.mpr hTo)
  | @next i j c hDecodes hOpen _ ih =>
      intro k hFrom hTo hCloses
      rcases Nat.eq_or_lt_of_le hFrom with rfl | hAfter
      · exact hOpen hCloses
      · exact ih k (stop_le_of_closes hCloses hDecodes hAfter) hTo hCloses

theorem wellFormed_of_closes (hCloses : Closes text k) : WellFormed text k (k + 2) := by
  have hStar : text.utf8DecodeChar? k = some '*' := utf8DecodeChar?_of_ascii hCloses.1 (by decide)
  have hSlash : text.utf8DecodeChar? (k + 1) = some '/' := utf8DecodeChar?_of_ascii hCloses.2 (by decide)
  have hWidths : '*'.utf8Size = 1 ∧ '/'.utf8Size = 1 := by decide
  refine (wellFormed_next hStar (by omega)).mpr ?_
  rw [hWidths.1]
  refine (wellFormed_next hSlash (by omega)).mpr ?_
  rw [hWidths.2]
  exact wellFormed_self text (k + 2)

/-- The end of a comment is the one that the scanner finds. -/
theorem blockCommentEnd_of_ends (hStart : i ≤ text.size) (hEnds : CommentEnds text i t? j) :
    blockCommentEnd text i = (t?.isNone, j) := by
  cases hEnds with
  | @closed k hFrom hCloses hFirst hText =>
      have hRoom : k + 2 ≤ text.size := lt_size_of_byteAt? hCloses.2
      have hInside := inside_of_wellFormed hText hRoom hFrom (.inr ⟨by omega, hCloses⟩) hFirst
      exact hInside.blockCommentEnd_eq.trans (blockCommentEnd_of_closes hCloses)
  | unclosed hOpen hText =>
      have hInside := inside_of_wellFormed hText (Nat.le_refl _) hStart (.inl rfl) hOpen
      refine hInside.blockCommentEnd_eq.trans (blockCommentEnd_eq_self ?_)
      rw [scalarWidth?, byteAt?_eq_none_iff.mpr (Nat.le_refl _)]
  | malformed hFirst hOpen =>
      have hInside := inside_of_wellFormed hFirst.before hFirst.inside.le hFirst.behind (.inl rfl) hOpen
      refine hInside.blockCommentEnd_eq.trans (blockCommentEnd_eq_self ?_)
      rw [scalarWidth?_eq, hFirst.here, Option.map_none]

/-- Every comment ends in one of the ways there are. -/
theorem exists_ends (hStart : i ≤ text.size) : ∃ t? j, CommentEnds text i t? j := by
  cases hEnd : (blockCommentEnd text i).1 with
  | true =>
      obtain ⟨k, hInside, hCloses, -⟩ := inside_of_closed hEnd
      have hText := hInside.wellFormed.append hInside.le (Nat.le_add_right k 2) (wellFormed_of_closes hCloses)
      exact ⟨none, k + 2, .closed hInside.le hCloses hInside.unclosed hText⟩
  | false =>
      have hInside := inside_of_open hEnd
      have hNone := scalar_of_blockCommentEnd hEnd
      rcases Nat.eq_or_lt_of_le (blockCommentEnd_le hStart) with hAll | hLess
      · rw [hAll] at hInside
        exact ⟨_, _, .unclosed hInside.unclosed hInside.wellFormed⟩
      · rw [scalarWidth?_eq, Option.map_eq_none_iff] at hNone
        exact ⟨_, _, .malformed ⟨hInside.le, hLess, hInside.wellFormed, hNone⟩ hInside.unclosed⟩

theorem Takes.unique {u? : Option Terminal} (hTakes : Takes text i t? j) (hOther : Takes text i u? k) :
    t? = u? ∧ j = k := by
  obtain ⟨pattern, hWins, rfl⟩ := hTakes
  obtain ⟨other, hWinsToo, rfl⟩ := hOther
  obtain ⟨rfl, rfl⟩ := hWins.unique hWinsToo
  exact ⟨rfl, rfl⟩

/-- What ends a comment is the longest match at its opening. -/
theorem takes_of_ends (hOpens : startsWith text i [0x2F, 0x2A] = true)
    (hEnds : CommentEnds text (i + 2) t? j) : Takes text i t? j := by
  have hStart : i + 2 ≤ text.size := startsWith_le (by simp) hOpens
  have hEnd := blockCommentEnd_of_ends hStart hEnds
  cases hEnds with
  | closed => exact ⟨blockComment, wins_blockComment hOpens hEnd, rfl⟩
  | unclosed | malformed =>
      have hWins := wins_openComment hOpens (congrArg Prod.fst hEnd)
      rw [hEnd] at hWins
      exact ⟨openComment, hWins, rfl⟩

/-- A scan that has come to a place passes over a match that is no token, and ends with one that is. -/
theorem Takes.finds {offset : Nat} (hTakes : Takes text i t? j) (hReach : Padding text offset i) :
    Finds text offset (t?.elim (scanned text j) fun t => some (t, i, j)) := by
  obtain ⟨pattern, hWins, rfl⟩ := hTakes
  refine hReach.finds ?_
  cases hKind : pattern.terminal? with
  | none => exact .skip hWins hKind (finds_scanned text j)
  | some t => exact .token hWins hKind

end

/-- A block comment ends behind the first star with a slash behind it that begins behind its opening, if the
text up to there is well-formed, and is passed over. Without such a star it is an open comment up to the end
of the text, and with a malformed byte in front of it one up to this byte. A comment ends in one of these
ways, and every scan that comes to it finds the end there. -/
theorem comment_ends_at_first_closer (text : ByteArray) (i : Nat)
    (hOpens : startsWith text i [0x2F, 0x2A] = true) :
    (∀ t? j, Takes text i t? j ↔ CommentEnds text (i + 2) t? j)
    ∧ (∃ t? j, Takes text i t? j)
    ∧ ∀ offset, Padding text offset i →
      (∀ j, CommentEnds text (i + 2) none j → Padding text offset j
        ∧ nextToken text offset = (scanned text j).map (tokenOf text offset))
      ∧ ∀ t j, CommentEnds text (i + 2) (some t) j →
        nextToken text offset = some (tokenOf text offset (t, i, j)) := by
  have hStart : i + 2 ≤ text.size := startsWith_le (by simp) hOpens
  obtain ⟨u?, stop, hEnds⟩ := exists_ends hStart
  refine ⟨fun t? j => ⟨fun hTakes => ?_, takes_of_ends hOpens⟩, ⟨u?, stop, takes_of_ends hOpens hEnds⟩,
    fun offset hReach => ⟨fun j hNone => ⟨?_, ?_⟩, fun t j hSome => ?_⟩⟩
  · obtain ⟨rfl, rfl⟩ := hTakes.unique (takes_of_ends hOpens hEnds)
    exact hEnds
  · obtain ⟨pattern, hWins, hTrivia⟩ := takes_of_ends hOpens hNone
    exact hReach.trans (.more (mem_trivia hWins.mem hTrivia) hWins .none)
  · exact nextToken_of_finds ((takes_of_ends hOpens hNone).finds hReach)
  · exact nextToken_of_finds ((takes_of_ends hOpens hSome).finds hReach)

/-- A comment of nothing but stars is closed by the last one. The star of an opening closes nothing. -/
theorem ends_of_star_runs :
    startsWith "/***/ a /*/ b".toUTF8 0 [0x2F, 0x2A] = true
      ∧ CommentEnds "/***/ a /*/ b".toUTF8 2 none 5
      ∧ nextToken "/***/ a /*/ b".toUTF8 0 = some ⟨Terminal.identifier.kind, 6, 1, 1⟩
      ∧ startsWith "/***/ a /*/ b".toUTF8 8 [0x2F, 0x2A] = true
      ∧ nextToken "/***/ a /*/ b".toUTF8 8 = some ⟨Terminal.unterminatedComment.kind, 0, 5, 0⟩ := by
  have hOpens : startsWith "/***/ a /*/ b".toUTF8 0 [0x2F, 0x2A] = true
      ∧ startsWith "/***/ a /*/ b".toUTF8 8 [0x2F, 0x2A] = true := by
    decide +kernel
  have hClosers : ∀ k < 13, byteAt? "/***/ a /*/ b".toUTF8 k = some 0x2A
      ∧ byteAt? "/***/ a /*/ b".toUTF8 (k + 1) = some 0x2F ↔ k = 3 ∨ k = 9 := by
    decide +kernel
  have hText : WellFormed "/***/ a /*/ b".toUTF8 2 5 ∧ WellFormed "/***/ a /*/ b".toUTF8 10 13 :=
    ⟨⟨['*', '*', '/'], by decide +kernel⟩, ⟨['/', ' ', 'b'], by decide +kernel⟩⟩
  have hFirst : CommentEnds "/***/ a /*/ b".toUTF8 2 none 5 :=
    .closed (by decide) ((hClosers 3 (by decide)).mpr (.inl rfl)) (fun k hFrom hTo hCloses => by
      have hPlace := (hClosers k (by omega)).mp hCloses
      omega) hText.1
  have hLast : CommentEnds "/***/ a /*/ b".toUTF8 10 (some .unterminatedComment) 13 := by
    refine .unclosed (fun k hFrom hTo hCloses => ?_) hText.2
    have hPlace := (hClosers k hTo).mp hCloses
    omega
  have hScanned : scanned "/***/ a /*/ b".toUTF8 5 = some (.identifier, 6, 7) := by decide +kernel
  have hClosed := ((comment_ends_at_first_closer _ 0 hOpens.1).2.2 0 .none).1 5 hFirst
  have hOpen := ((comment_ends_at_first_closer _ 8 hOpens.2).2.2 8 .none).2 _ 13 hLast
  refine ⟨hOpens.1, hFirst, ?_, hOpens.2, hOpen⟩
  rw [hClosed.2, hScanned]
  rfl

end IncrementalParsing.SysY
