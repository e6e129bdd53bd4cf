import IncrementalParsing.Proofs.SysY.Comments
import IncrementalParsing.Proofs.SysY.Longest
import IncrementalParsing.Proofs.Text.Bytes

/-! The tokens of a text, with the blanks and comments between them, are all of the text. The scanner can be
resumed behind each of them. -/
namespace IncrementalParsing.SysY
open Text Text.Regex

/-- The patterns for what is no token. -/
def trivia : List Pattern := [blanks, lineComment, blockComment]

/-- The text from one place to another is nothing but blanks and comments, each of them as long as it can
be. A block comment among them is closed. -/
inductive Padding (text : ByteArray) : Nat → Nat → Prop
  | none {i : Nat} : Padding text i i
  | more {i j k : Nat} {piece : Pattern} (hPiece : piece ∈ trivia) (hWins : Wins text i piece j)
      (hRest : Padding text j k) : Padding text i k

/-- The tokens behind a place, each of them the first one behind the end of the one before. -/
inductive Lexed (text : ByteArray) : Nat → List PlacedToken → Prop
  | done {i : Nat} (hFinds : Finds text i .none) : Lexed text i []
  | token {i : Nat} {t : PlacedToken} {rest : List PlacedToken}
      (hFinds : Finds text i (some (t.terminal, t.start, t.stop))) (hRest : Lexed text t.stop rest) :
      Lexed text i (t :: rest)

/-- A token of what is left of a text, at its place in the whole text. -/
def PlacedToken.behind (offset : Nat) (t : PlacedToken) : PlacedToken :=
  ⟨t.terminal, offset + t.start, offset + t.stop⟩

section
variable {text : ByteArray} {i j k : Nat} {t : Terminal}

theorem terminal?_of_trivia {piece : Pattern} (hPiece : piece ∈ trivia) : piece.terminal? = none := by
  simp only [trivia, List.mem_cons, List.not_mem_nil, or_false] at hPiece
  rcases hPiece with rfl | rfl | rfl <;> rfl

theorem mem_trivia {piece : Pattern} (hMem : piece ∈ patterns) (hNone : piece.terminal? = none) :
    piece ∈ trivia := by
  simp only [patterns, List.mem_append, List.mem_cons, List.not_mem_nil, or_false, List.mem_map] at hMem
  rcases hMem with (hFirst | ⟨t, -, rfl⟩) | hLast
  · rcases hFirst with rfl | rfl | rfl | rfl
    · simp [trivia]
    · simp [trivia]
    · simp [trivia]
    · cases hNone
  · cases hNone
  · rcases hLast with rfl | rfl | rfl | rfl | rfl <;> cases hNone

theorem Padding.le (hPadding : Padding text i j) : i ≤ j := by
  induction hPadding with
  | none => exact Nat.le_refl _
  | more _ hWins _ ih => exact hWins.reads.le.trans ih

/-- Trivia behind trivia is trivia. -/
theorem Padding.trans (hFirst : Padding text i j) (hRest : Padding text j k) : Padding text i k := by
  induction hFirst with
  | none => exact hRest
  | more hPiece hWins _ ih => exact .more hPiece hWins (ih hRest)

/-- What is found behind blanks and comments is what is found in front of them. -/
theorem Padding.finds {found : Option (Terminal × Nat × Nat)} (hPadding : Padding text i j)
    (hFinds : Finds text j found) : Finds text i found := by
  induction hPadding with
  | none => exact hFinds
  | more hPiece hWins _ ih => exact .skip hWins (terminal?_of_trivia hPiece) (ih hFinds)

/-- What is passed over in front of a token. The token is found at its start too. -/
theorem Finds.padding (hFinds : Finds text i (some (t, j, k))) :
    Padding text i j ∧ Finds text j (some (t, j, k)) := by
  generalize hFound : some (t, j, k) = found at hFinds
  induction hFinds with
  | done => cases hFound
  | skip hWins hTrivia _ ih =>
      obtain ⟨hRest, hHere⟩ := ih hFound
      exact ⟨.more (mem_trivia hWins.mem hTrivia) hWins hRest, hHere⟩
  | token hWins hToken =>
      cases hFound
      exact ⟨.none, .token hWins hToken⟩
  | stray hInside hNone =>
      cases hFound
      exact ⟨.none, .stray hInside hNone⟩

theorem Finds.padding_of_none (hFinds : Finds text i none) (hStart : i ≤ text.size) :
    Padding text i text.size := by
  generalize hFound : none = found at hFinds
  induction hFinds with
  | done hEnd => exact Nat.le_antisymm hStart hEnd ▸ .none
  | skip hWins hTrivia _ ih =>
      exact .more (mem_trivia hWins.mem hTrivia) hWins (ih (hWins.reads.le_size hStart) hFound)
  | token | stray => cases hFound

/-- A token has a byte, is inside the text, and is none of the terminals that are reserved. -/
theorem Finds.bounds (hFinds : Finds text i (some (t, j, k))) : j < k ∧ k ≤ text.size ∧ 1 < t.kind := by
  have hScanned := (finds_scanned text i).unique hFinds
  obtain ⟨first, hFirst, hParts⟩ := Option.map_eq_some_iff.mp hScanned
  obtain ⟨rfl, hRest⟩ := Prod.mk.inj hParts
  obtain ⟨rfl, rfl⟩ := Prod.mk.inj hRest
  obtain ⟨hMore, hInside⟩ := tokenAt_spec hFirst
  exact ⟨hMore, hInside, one_lt_tokenAt text _ first⟩

/-- What the patterns find is what the scanner returns. -/
theorem nextToken_of_finds {found : Option (Terminal × Nat × Nat)} (hFinds : Finds text i found) :
    nextToken text i = found.map (tokenOf text i) := by
  rw [nextToken_eq, (finds_scanned text i).unique hFinds]

/-- A text is lexed in one way only. -/
theorem Lexed.unique {tokens others : List PlacedToken} (hLexed : Lexed text i tokens)
    (hOther : Lexed text i others) : tokens = others := by
  induction hLexed generalizing others with
  | done hFinds =>
      cases hOther with
      | done => rfl
      | token hFindsToo => cases hFinds.unique hFindsToo
  | @token i t rest hFinds _ ih =>
      cases hOther with
      | done hFindsToo => cases hFinds.unique hFindsToo
      | @token _ u others hFindsToo hRest =>
          obtain rfl : t = u := by
            cases t
            cases u
            simpa using hFinds.unique hFindsToo
          rw [ih hRest]

theorem toList_tokensFrom_append (text : ByteArray) (limit offset : Nat) (found : Array PlacedToken) :
    (tokensFrom text limit offset found).toList
      = found.toList ++ (tokensFrom text limit offset #[]).toList := by
  induction limit generalizing offset found with
  | zero => simp [tokensFrom]
  | succ limit ih =>
      simp only [tokensFrom]
      split
      · simp
      · rw [ih, ih _ (#[].push _)]
        simp

/-- A scan finds the tokens behind a place, if it may find as many as there are bytes. -/
theorem lexed_tokensFrom {limit : Nat} (hLimit : text.size ≤ i + limit) :
    Lexed text i (tokensFrom text limit i #[]).toList := by
  induction limit generalizing i with
  | zero => exact .done (.done hLimit)
  | succ limit ih =>
      have hFinds := finds_scanned text i
      have hNext := nextToken_of_finds hFinds
      cases hFound : scanned text i with
      | none =>
          rw [hFound] at hFinds hNext
          simp only [tokensFrom, hNext, Option.map_none]
          exact .done hFinds
      | some found =>
          obtain ⟨t, start, stop⟩ := found
          rw [hFound] at hFinds hNext
          have hLe := hFinds.padding.1.le
          obtain ⟨hMore, -⟩ := hFinds.bounds
          simp only [tokensFrom, hNext, Option.map_some, tokenOf, Terminal.ofKind?_kind, Option.getD_some,
            Nat.add_sub_cancel' hLe, Nat.add_sub_cancel' hMore.le]
          rw [toList_tokensFrom_append]
          exact .token hFinds (ih (by dsimp only; omega))

/-! Parts of what has been found. -/

theorem Lexed.bounds {tokens : List PlacedToken} (hLexed : Lexed text i tokens) :
    ∀ u ∈ tokens, i ≤ u.start ∧ u.start < u.stop ∧ u.stop ≤ text.size ∧ u.terminal ≠ .endOfInput := by
  induction hLexed with
  | done => simp
  | @token i t rest hFinds _ ih =>
      have hLe := hFinds.padding.1.le
      obtain ⟨hMore, hInside, hReal⟩ := hFinds.bounds
      intro u hMem
      rcases List.mem_cons.mp hMem with rfl | hRest
      · exact ⟨hLe, hMore, hInside, fun hEnd => absurd hReal (by rw [hEnd]; decide)⟩
      · obtain ⟨hBehind, hBounds⟩ := ih u hRest
        exact ⟨by omega, hBounds⟩

theorem Lexed.increasing {tokens : List PlacedToken} (hLexed : Lexed text i tokens) :
    tokens.Pairwise (fun t u => t.stop ≤ u.start) := by
  induction hLexed with
  | done => exact .nil
  | token _ hRest ih => exact .cons (fun u hMem => (hRest.bounds u hMem).1) ih

/-- Behind the first tokens of a text the other ones are found. -/
theorem Lexed.rest {front back : List PlacedToken} (hLexed : Lexed text i (front ++ back)) :
    Lexed text (front.getLast?.elim i PlacedToken.stop) back := by
  induction front generalizing i with
  | nil => exact hLexed
  | cons t front ih =>
      cases hLexed with
      | token _ hRest =>
          have hBack := ih hRest
          cases front <;> simpa [List.getLast?_cons] using hBack

/-- In front of the first token there are only blanks and comments, and so there are in front of the end of
the text if there is no token. -/
theorem Lexed.padding {tokens : List PlacedToken} (hLexed : Lexed text i tokens) (hStart : i ≤ text.size) :
    Padding text i (tokens.head?.elim text.size PlacedToken.start) := by
  cases hLexed with
  | done hFinds => exact hFinds.padding_of_none hStart
  | token hFinds => exact hFinds.padding.1

end

/-! What is left of a text. -/

section
variable {old new : ByteArray} {i j : Nat}

theorem nextToken_some_of_bytes (hBytes : ∀ k, byteAt? new (j + k) = byteAt? old (i + k)) {token : Token}
    (hNext : nextToken old i = some token) : nextToken new j = some token := by
  have hScalar : ∀ k, scalarWidth? old (i + k) = none → scalarWidth? new (j + k) = none := by
    intro k hNone
    refine Option.eq_none_iff_forall_ne_some.mpr fun width hWidth => ?_
    have hBack : scalarWidth? old (i + k) = some width := scalarWidth?_of_matches hWidth fun l _ => by
      rw [Nat.add_assoc, Nat.add_assoc, hBytes]
    simp [hNone] at hBack
  refine nextToken_of_matches hNext (fun k _ => hBytes k) (fun _ => hScalar _) fun hKind => hScalar _ ?_
  obtain ⟨-, hEnd⟩ := unterminatedComment_spec hNext hKind
  have hNone := scalar_of_blockCommentEnd (congrArg Prod.fst hEnd)
  rwa [hEnd] at hNone

/-- Where the bytes are the same up to the end, the same token is found. -/
theorem nextToken_eq_of_bytes (hBytes : ∀ k, byteAt? new (j + k) = byteAt? old (i + k)) :
    nextToken new j = nextToken old i := by
  refine Option.ext fun token => ⟨nextToken_some_of_bytes fun k => (hBytes k).symm, ?_⟩
  exact nextToken_some_of_bytes hBytes

end

section
variable {text : ByteArray} {stop : Nat}

/-- The scan of what is left of a text goes as in the whole text. -/
theorem tokensFrom_extract (hStop : stop ≤ text.size) (limit offset : Nat) :
    (tokensFrom (text.extract stop text.size) limit offset #[]).toList.map (PlacedToken.behind stop)
      = (tokensFrom text limit (stop + offset) #[]).toList := by
  have hNext : ∀ offset, nextToken (text.extract stop text.size) offset = nextToken text (stop + offset) := by
    refine fun offset => nextToken_eq_of_bytes fun k => ?_
    rw [byteAt?_extract, Nat.min_self, Nat.add_assoc]
    split
    · rfl
    · exact (byteAt?_eq_none_iff.mpr (by omega)).symm
  induction limit generalizing offset with
  | zero => rfl
  | succ limit ih =>
      simp only [tokensFrom, hNext]
      split
      · rfl
      · rename_i token _
        rw [toList_tokensFrom_append, toList_tokensFrom_append text, List.map_append, ih]
        simp [PlacedToken.behind, Nat.add_assoc]

end

/-- The tokens of a text have bytes, are in increasing order, and none of them is the end of the text.
Between two of them, in front of the first one and behind the last one are only blanks, line comments and
closed block comments. The scanner finds every token again at its start and the other ones behind its end,
in the text as well as in what is left of it there. -/
theorem tokens_and_trivia_partition (text : ByteArray) :
    (∀ t ∈ (tokenize text).toList, t.start < t.stop ∧ t.stop ≤ text.size ∧ t.terminal ≠ .endOfInput)
    ∧ (tokenize text).toList.Pairwise (fun t u => t.stop ≤ u.start)
    ∧ (∀ front back, (tokenize text).toList = front ++ back →
      Padding text (front.getLast?.elim 0 PlacedToken.stop) (back.head?.elim text.size PlacedToken.start))
    ∧ ∀ front t back, (tokenize text).toList = front ++ t :: back →
      nextToken text t.start = some (tokenOf text t.start (t.terminal, t.start, t.stop))
      ∧ (tokenOf text t.start (t.terminal, t.start, t.stop)).padding = 0
      ∧ (∀ limit, text.size ≤ t.stop + limit → (tokensFrom text limit t.stop #[]).toList = back)
      ∧ (tokenize (text.extract t.stop text.size)).toList.map (PlacedToken.behind t.stop) = back := by
  have hLexed : Lexed text 0 (tokenize text).toList := lexed_tokensFrom (Nat.zero_add _).ge
  refine ⟨fun t hMem => (hLexed.bounds t hMem).2, hLexed.increasing, fun front back hSplit => ?_,
    fun front t back hSplit => ?_⟩
  · have hStart : front.getLast?.elim 0 PlacedToken.stop ≤ text.size := by
      cases hLast : front.getLast? with
      | none => exact Nat.zero_le _
      | some t =>
          have hMem := List.mem_append_left back (List.mem_of_getLast? hLast)
          exact (hLexed.bounds t (hSplit ▸ hMem)).2.2.1
    exact (hSplit ▸ hLexed).rest.padding hStart
  · have hInside : t.stop ≤ text.size := (hLexed.bounds t (by simp [hSplit])).2.2.1
    cases (hSplit ▸ hLexed).rest with
    | token hFinds hRest =>
        have hAgain : ∀ limit, text.size ≤ t.stop + limit →
            (tokensFrom text limit t.stop #[]).toList = back :=
          fun limit hLimit => (lexed_tokensFrom hLimit).unique hRest
        refine ⟨nextToken_of_finds hFinds.padding.2, Nat.sub_self _, hAgain, ?_⟩
        rw [tokenize, tokensFrom_extract hInside]
        refine hAgain _ ?_
        rw [ByteArray.size_extract]
        omega

/-- A comment that begins with its opening and a slash, between a name and a number. -/
theorem partition_around_comment :
    (tokenize "a/*/ */ 1;".toUTF8).toList
        = [⟨.identifier, 0, 1⟩, ⟨.decimalLiteral, 8, 9⟩, ⟨.semicolon, 9, 10⟩]
      ∧ Padding "a/*/ */ 1;".toUTF8 1 8
      ∧ (tokensFrom "a/*/ */ 1;".toUTF8 9 1 #[]).toList = [⟨.decimalLiteral, 8, 9⟩, ⟨.semicolon, 9, 10⟩]
      ∧ (tokenize ("a/*/ */ 1;".toUTF8.extract 9 10)).toList.map (PlacedToken.behind 9)
        = [⟨.semicolon, 9, 10⟩] := by
  have hTokens : (tokenize "a/*/ */ 1;".toUTF8).toList
      = [⟨.identifier, 0, 1⟩, ⟨.decimalLiteral, 8, 9⟩, ⟨.semicolon, 9, 10⟩] := by
    decide +kernel
  obtain ⟨-, -, hGaps, hResumes⟩ := tokens_and_trivia_partition "a/*/ */ 1;".toUTF8
  have hFirst := hResumes [] ⟨.identifier, 0, 1⟩ [_, _] hTokens
  have hNumber := hResumes [_] ⟨.decimalLiteral, 8, 9⟩ [_] hTokens
  exact ⟨hTokens, hGaps [_] [_, _] hTokens, hFirst.2.2.1 9 (by decide), hNumber.2.2.2⟩

end IncrementalParsing.SysY
