import IncrementalParsing.Proofs.SysY.Readings
import Mathlib.Data.List.Nodup

/-! The scanner finds what the longest match finds. -/
namespace IncrementalParsing.SysY
open Text Text.Regex

section
variable {text : ByteArray} {i j k : Nat}

/-! Which pattern wins. -/

/-- A pattern wins if every other reading is shorter, or as long and of lower rank. -/
theorem wins_of_reading {pattern : Pattern} (hMem : pattern ∈ patterns)
    (hReads : pattern.regex.Reads text i j) (hSome : i < j) (hAll : ∀ other k, Reading text i other k →
      k < j ∨ k = j ∧ (other = pattern ∨ other.priority < pattern.priority)) : Wins text i pattern j := by
  refine ⟨hMem, hReads, hSome, fun other hOther k hRead => ?_, fun other hOther hRead => ?_⟩
  · exact (hAll other k (reading_of_reads hOther hRead)).elim Nat.le_of_lt fun hSame => hSame.1.le
  · exact ((hAll other j (reading_of_reads hOther hRead)).resolve_left (Nat.lt_irrefl j)).2

theorem mem_patterns_of_fixed {t : Terminal} (hMem : t ∈ operators ++ keywords) : fixed t ∈ patterns :=
  List.mem_append_left _ (List.mem_append_right _ (List.mem_map_of_mem hMem))

/-- No two operators or keywords are spelled alike. -/
theorem eq_of_spelling {t u : Terminal} (hFirst : t ∈ operators ++ keywords)
    (hOther : u ∈ operators ++ keywords) (hSame : spelling t = spelling u) : t = u :=
  List.inj_on_of_nodup_map spelling_facts.2.2.2.1 hFirst hOther hSame

/-- Blanks win where a blank stands. -/
theorem wins_blanks {b : UInt8} (hFirst : byteAt? text i = some b) (hBlank : isBlank b = true) :
    Wins text i blanks (runEnd isBlank text i) := by
  obtain ⟨bs, hStarts, hAll, hEnd⟩ := exists_run isBlank text i
  have hMore : i < runEnd isBlank text i := by
    rw [runEnd_eq, hFirst]
    simp only [hBlank, if_true]
    exact le_runEnd isBlank text (i + 1)
  refine wins_of_reading (by simp [patterns]) ?_ hMore fun other k hReading => ?_
  · refine (written_blanks text i _).mpr ⟨bs, ⟨?_, hAll⟩, hStarts, hEnd⟩
    rintro rfl
    rw [List.length_nil] at hEnd
    omega
  · have hClasses := classes b
    rcases cases_of_reading hReading hFirst with ⟨-, rfl, hLe⟩ | h | h | h | h
    · exact (Nat.lt_or_eq_of_le hLe).imp_right fun hEq => ⟨hEq, .inl rfl⟩
    · exact absurd h.1 (hClasses.2.2 hBlank)
    · simp [(hClasses.2.1 h.1).1] at hBlank
    · simp [(hClasses.1 h.1).2.1] at hBlank
    · simp [h.1.1] at hBlank

/-- What can be read at a slash is a comment of some kind or the operator. -/
theorem slash_of_reading {pattern : Pattern} (hReading : Reading text i pattern k)
    (hFirst : byteAt? text i = some 0x2F) : SlashReading text i pattern k := by
  rcases cases_of_reading hReading hFirst with h | h | h | h | h
  · exact absurd h.1 (by decide)
  · exact h.2
  · exact absurd h.1 (by decide)
  · exact absurd h.1 (by decide)
  · exact absurd rfl h.1.2.1

/-- Two slashes start a comment that goes on to the end of the line. -/
theorem wins_lineComment (hStarts : startsWith text i [0x2F, 0x2F] = true) :
    Wins text i lineComment (lineCommentEnd text (i + 2)) := by
  obtain ⟨hFirst, hSecond⟩ := startsWith_pair.mp hStarts
  have hLe := le_lineCommentEnd text (i + 2)
  refine wins_of_reading (by simp [patterns]) ?_ (by omega) fun other k hReading => ?_
  · exact (reads_word_seq_iff (by simp)).mpr ⟨hStarts, reads_lineCommentEnd text (i + 2)⟩
  · rcases slash_of_reading hReading hFirst with ⟨rfl, -, hEnd⟩ | ⟨-, hBlock, -⟩ | ⟨-, hBlock, -⟩ | ⟨-, rfl⟩
    · exact (Nat.lt_or_eq_of_le hEnd).imp_right fun hEq => ⟨hEq, .inl rfl⟩
    · simp [(startsWith_pair.mp hBlock).2] at hSecond
    · simp [(startsWith_pair.mp hBlock).2] at hSecond
    · exact .inl (by omega)

/-- A comment that is closed wins up to its closer. -/
theorem wins_blockComment (hStarts : startsWith text i [0x2F, 0x2A] = true)
    (hClosed : blockCommentEnd text (i + 2) = (true, j)) : Wins text i blockComment j := by
  obtain ⟨hFirst, hSecond⟩ := startsWith_pair.mp hStarts
  have hLe := closed_blockCommentEnd (congrArg Prod.fst hClosed)
  rw [hClosed] at hLe
  refine wins_of_reading (by simp [patterns]) ?_ (by dsimp only at hLe; omega) fun other k hReading => ?_
  · exact (reads_word_seq_iff (by simp)).mpr ⟨hStarts, reads_closed_iff.mpr hClosed⟩
  · rcases slash_of_reading hReading hFirst with ⟨-, hLine, -⟩ | ⟨rfl, -, hEnd⟩ | ⟨-, -, hEnd⟩ | ⟨-, rfl⟩
    · simp [(startsWith_pair.mp hLine).2] at hSecond
    · exact .inr ⟨congrArg Prod.snd (hEnd.symm.trans hClosed), .inl rfl⟩
    · rw [hClosed, if_pos rfl] at hEnd
      exact .inl hEnd
    · exact .inl (by dsimp only at hLe; omega)

/-- One that is never closed wins up to the end of what can be read. -/
theorem wins_openComment (hStarts : startsWith text i [0x2F, 0x2A] = true)
    (hOpen : (blockCommentEnd text (i + 2)).1 = false) :
    Wins text i openComment (blockCommentEnd text (i + 2)).2 := by
  obtain ⟨hFirst, hSecond⟩ := startsWith_pair.mp hStarts
  have hLe := le_blockCommentEnd text (i + 2)
  refine wins_of_reading (by simp [patterns]) ?_ (by omega) fun other k hReading => ?_
  · exact (reads_word_seq_iff (by simp)).mpr ⟨hStarts, reads_of_inside (inside_of_open hOpen)⟩
  · rcases slash_of_reading hReading hFirst with ⟨-, hLine, -⟩ | ⟨-, -, hEnd⟩ | ⟨rfl, -, hEnd⟩ | ⟨-, rfl⟩
    · simp [(startsWith_pair.mp hLine).2] at hSecond
    · simp [hEnd] at hOpen
    · rw [hOpen, if_neg Bool.false_ne_true, Nat.add_zero] at hEnd
      exact (Nat.lt_or_eq_of_le hEnd).imp_right fun hEq => ⟨hEq, .inl rfl⟩
    · exact .inl (by omega)

/-- The bytes of a word spell the whole run they stand in. -/
theorem word_run {b : UInt8} (hFirst : byteAt? text i = some b) (hWord : isWordByte b = true) :
    ∃ bs, startsWith text i (b :: bs) = true ∧ bs.all isWordByte = true
      ∧ runEnd isWordByte text i = i + (b :: bs).length := by
  obtain ⟨bs, hStarts, hAll, hEnd⟩ := exists_run isWordByte text (i + 1)
  refine ⟨bs, by simp [startsWith, hFirst, hStarts], hAll, ?_⟩
  rw [runEnd_eq, hFirst]
  simp only [hWord, if_true, hEnd, List.length_cons]
  omega

/-- The whole run is the longest word. -/
theorem wins_word {b : UInt8} (hFirst : byteAt? text i = some b) (hLetter : isLetter b = true) :
    ∃ pattern, Wins text i pattern (runEnd isWordByte text i)
      ∧ pattern.terminal? = some (wordKind (slice text i (runEnd isWordByte text i))) := by
  obtain ⟨bs, hStarts, hAll, hEnd⟩ := word_run hFirst (by rw [isWordByte, hLetter, Bool.true_or])
  have hMore : i < i + (b :: bs).length := Nat.lt_add_of_pos_right (Nat.succ_pos _)
  have hWord : ∀ other k, Reading text i other k → WordReading text i other k := by
    intro other k hReading
    have hClasses := classes b
    rcases cases_of_reading hReading hFirst with h | h | h | h | h
    · simp [(hClasses.2.1 hLetter).1] at h
    · exact absurd h.1 (hClasses.2.1 hLetter).2
    · exact h.2
    · simp [(hClasses.1 h.1).1] at hLetter
    · simp [h.1.2.2.1] at hLetter
  rw [hEnd, slice_of_startsWith hStarts]
  rcases wordKind_cases (b :: bs) with ⟨t, hMem, hSpelling, hKind⟩ | ⟨hKind, hNone⟩
  · have hEither := List.mem_append_right operators hMem
    refine ⟨fixed t, wins_of_reading (mem_patterns_of_fixed hEither) ?_ hMore fun other k hReading => ?_,
      congrArg some hKind.symm⟩
    · exact (written_fixed hEither text i _).mpr ⟨_, rfl, hSpelling ▸ hStarts, hSpelling ▸ rfl⟩
    · obtain ⟨hLe, hCase⟩ := hWord other k hReading
      rw [hEnd] at hLe
      refine (Nat.lt_or_eq_of_le hLe).imp_right fun hEq => ⟨hEq, ?_⟩
      rcases hCase with rfl | ⟨u, hOther, rfl, hSlice⟩
      · exact .inr Nat.one_lt_two
      · rw [hEq, slice_of_startsWith hStarts] at hSlice
        rw [eq_of_spelling (List.mem_append_right operators hOther) hEither
          (hSlice.symm.trans hSpelling.symm)]
        exact .inl rfl
  · refine ⟨identifier, wins_of_reading (by simp [patterns]) ?_ hMore fun other k hReading => ?_,
      congrArg some hKind.symm⟩
    · exact (written_identifier text i _).mpr ⟨_, ⟨b, bs, rfl, hLetter, hAll⟩, hStarts, rfl⟩
    · obtain ⟨hLe, hCase⟩ := hWord other k hReading
      rw [hEnd] at hLe
      refine (Nat.lt_or_eq_of_le hLe).imp_right fun hEq => ⟨hEq, ?_⟩
      rcases hCase with rfl | ⟨u, hOther, rfl, hSlice⟩
      · exact .inl rfl
      · rw [hEq, slice_of_startsWith hStarts] at hSlice
        exact absurd hSlice.symm (hNone u hOther)

/-- The whole run is the longest number. -/
theorem wins_number {b : UInt8} (hFirst : byteAt? text i = some b) (hDigit : isDigit b = true) :
    ∃ pattern ∈ [decimal, octal, hex, malformed], Wins text i pattern (runEnd isWordByte text i)
      ∧ pattern.terminal? = some (numberKind (slice text i (runEnd isWordByte text i))) := by
  obtain ⟨bs, hStarts, hAll, hEnd⟩ := word_run hFirst (by rw [isWordByte, hDigit, Bool.or_true])
  have hMore : i < i + (b :: bs).length := Nat.lt_add_of_pos_right (Nat.succ_pos _)
  have hNumber : ∀ other k, Reading text i other k → NumberReading text i other k := by
    intro other k hReading
    have hClasses := (classes b).1 hDigit
    rcases cases_of_reading hReading hFirst with h | h | h | h | h
    · simp [hClasses.2.1] at h
    · exact absurd h.1 hClasses.2.2
    · simp [hClasses.1] at h
    · exact h.2
    · simp [h.1.2.2.2] at hDigit
  rw [hEnd, slice_of_startsWith hStarts]
  -- A pattern of the kind of the number wins, since the other kinds do not read all of it.
  have hWins : ∀ pattern ∈ [decimal, octal, hex], pattern.terminal? = some (numberKind (b :: bs)) →
      pattern.regex.Reads text i (i + (b :: bs).length) → Wins text i pattern (i + (b :: bs).length) := by
    intro pattern hMem hKind hReads
    have hPattern : pattern ∈ patterns ∧ malformed.priority < pattern.priority := by
      simp only [List.mem_cons, List.not_mem_nil, or_false] at hMem
      rcases hMem with rfl | rfl | rfl <;> exact ⟨by simp [patterns], by decide⟩
    refine wins_of_reading hPattern.1 hReads hMore fun other k hReading => ?_
    obtain ⟨hLe, hCase⟩ := hNumber other k hReading
    rw [hEnd] at hLe
    refine (Nat.lt_or_eq_of_le hLe).imp_right fun hEq => ⟨hEq, ?_⟩
    rcases hCase with rfl | ⟨hOther, hSame⟩
    · exact .inr hPattern.2
    · rw [hEq, slice_of_startsWith hStarts, ← hKind] at hSame
      simp only [List.mem_cons, List.not_mem_nil, or_false] at hMem hOther
      rcases hMem with rfl | rfl | rfl <;> rcases hOther with rfl | rfl | rfl <;>
        first | exact .inl rfl | exact absurd hSame (by decide)
  rcases numberKind_cases b bs with ⟨hKind, hZero, hRest⟩ | ⟨hKind, rfl, hRest⟩ | ⟨hKind, rfl, hRest⟩ | hKind
  · refine ⟨decimal, by simp, hWins decimal (by simp) (hKind ▸ rfl) ?_, hKind ▸ rfl⟩
    exact (written_decimal text i _).mpr ⟨_, ⟨b, bs, rfl, by simp [hDigit, hZero], hRest⟩, hStarts, rfl⟩
  · refine ⟨octal, by simp, hWins octal (by simp) (hKind ▸ rfl) ?_, hKind ▸ rfl⟩
    exact (written_octal text i _).mpr ⟨_, ⟨_, bs, rfl, rfl, hRest⟩, hStarts, rfl⟩
  · refine ⟨hex, by simp, hWins hex (by simp) (hKind ▸ rfl) ?_, hKind ▸ rfl⟩
    exact (written_hex text i _).mpr ⟨_, ⟨bs, rfl, hRest⟩, hStarts, rfl⟩
  · refine ⟨malformed, by simp, wins_of_reading (by simp [patterns]) ?_ hMore fun other k hReading => ?_,
      hKind ▸ rfl⟩
    · exact (written_malformed text i _).mpr ⟨_, ⟨b, bs, rfl, hDigit, hAll⟩, hStarts, rfl⟩
    · obtain ⟨hLe, hCase⟩ := hNumber other k hReading
      rw [hEnd] at hLe
      refine (Nat.lt_or_eq_of_le hLe).imp_right fun hEq => ⟨hEq, ?_⟩
      rcases hCase with rfl | ⟨hOther, hSame⟩
      · exact .inl rfl
      · rw [hEq, slice_of_startsWith hStarts, hKind] at hSame
        simp only [List.mem_cons, List.not_mem_nil, or_false] at hOther
        rcases hOther with rfl | rfl | rfl <;> exact absurd hSame (by decide)

/-- A place where neither a blank, a comment nor a word begins. -/
structure AtOperator (text : ByteArray) (i : Nat) (b : UInt8) : Prop where
  first : byteAt? text i = some b
  blank : isBlank b = false
  letter : isLetter b = false
  digit : isDigit b = false
  line : startsWith text i [0x2F, 0x2F] = false
  block : startsWith text i [0x2F, 0x2A] = false

theorem AtOperator.reading {pattern : Pattern} {b : UInt8} (h : AtOperator text i b)
    (hReading : Reading text i pattern k) : OperatorReading text i pattern k := by
  rcases cases_of_reading hReading h.first with hCase | ⟨rfl, hCase⟩ | hCase | hCase | hCase
  · simp [h.blank] at hCase
  · rcases hCase with ⟨-, hLine, -⟩ | ⟨-, hBlock, -⟩ | ⟨-, hBlock, -⟩ | ⟨rfl, rfl⟩
    · simp [h.line] at hLine
    · simp [h.block] at hBlock
    · simp [h.block] at hBlock
    · have hSlash := spelling_facts.2.2.1
      exact ⟨.slash, by decide, rfl, by simp [hSlash, startsWith, h.first], by rw [hSlash]; rfl⟩
  · simp [h.letter] at hCase
  · simp [h.digit] at hCase
  · exact hCase.2

/-- The operator that is found first is the longest one. -/
theorem wins_operator {b : UInt8} {entry : List UInt8 × Terminal} (h : AtOperator text i b)
    (hFound : operatorSpellings.find? (fun entry => startsWith text i entry.1) = some entry) :
    Wins text i (fixed entry.2) (i + entry.1.length) := by
  obtain ⟨hStarts, front, back, hSplit, hBefore⟩ := List.find?_eq_some_iff_append.mp hFound
  obtain ⟨t, hMem, rfl⟩ := List.mem_map.mp (List.mem_of_find?_eq_some hFound)
  have hEither := List.mem_append_left keywords hMem
  obtain ⟨-, c, bytes, hBytes, -⟩ := operatorSpellings_short _ (List.mem_of_find?_eq_some hFound)
  dsimp only at hBytes hStarts ⊢
  refine wins_of_reading (mem_patterns_of_fixed hEither) ?_ ?_ fun other k hReading => ?_
  · exact (written_fixed hEither text i _).mpr ⟨_, rfl, hStarts, rfl⟩
  · rw [hBytes]
    exact Nat.lt_add_of_pos_right (Nat.succ_pos _)
  · obtain ⟨u, hOther, rfl, hRead, rfl⟩ := h.reading hReading
    have hLonger : (spelling u).length ≤ (spelling t).length := by
      have hEntry : (spelling u, u) ∈ front ++ (spelling t, t) :: back :=
        hSplit ▸ List.mem_map_of_mem hOther
      have hSorted : operatorSpellings.Pairwise fun x y => y.1.length ≤ x.1.length :=
        List.pairwise_map.mpr spelling_facts.2.2.2.2
      rw [hSplit, List.pairwise_append] at hSorted
      rcases List.mem_append.mp hEntry with hFront | hBack
      · simpa [hRead] using hBefore _ hFront
      · rcases List.mem_cons.mp hBack with hSame | hBack
        · exact Nat.le_of_eq (congrArg (fun entry => entry.1.length) hSame)
        · exact (List.pairwise_cons.mp hSorted.2.1).1 _ hBack
    refine (Nat.lt_or_eq_of_le (Nat.add_le_add_left hLonger i)).imp_right fun hEq => ⟨hEq, .inl ?_⟩
    rw [eq_of_spelling (List.mem_append_left keywords hOther) hEither
      (startsWith_inj hRead hStarts (Nat.add_left_cancel hEq))]

theorem none_reads {b : UInt8} (h : AtOperator text i b)
    (hNone : operatorSpellings.find? (fun entry => startsWith text i entry.1) = none) :
    ∀ pattern ∈ patterns, ∀ k, ¬ pattern.regex.Reads text i k := by
  intro pattern hMem k hReads
  obtain ⟨t, hOperator, -, hStarts, -⟩ := h.reading (reading_of_reads hMem hReads)
  exact List.find?_eq_none.mp hNone (spelling t, t) (List.mem_map_of_mem hOperator) hStarts

/-! The scanner takes what wins, step by step. -/

theorem inside_of_byteAt? {b : UInt8} (hFirst : byteAt? text i = some b) : i < text.size := by
  refine Nat.lt_of_not_le fun hOutside => ?_
  simp [byteAt?_eq_none_iff.mpr hOutside] at hFirst

/-- What is passed over is the longest match. -/
theorem wins_trivia (hMore : i < triviaEnd text i) :
    ∃ pattern, Wins text i pattern (triviaEnd text i) ∧ pattern.terminal? = none := by
  cases hLine : startsWith text i [0x2F, 0x2F] with
  | true =>
      have hEnd : triviaEnd text i = lineCommentEnd text (i + 2) := by rw [triviaEnd, if_pos hLine]
      exact ⟨lineComment, hEnd ▸ wins_lineComment hLine, rfl⟩
  | false =>
      cases hBlock : startsWith text i [0x2F, 0x2A] with
      | true =>
          simp only [triviaEnd, hLine, hBlock, if_true, Bool.false_eq_true, if_false] at hMore ⊢
          split at hMore
          · rename_i stop hClosed
            exact ⟨blockComment, wins_blockComment hBlock hClosed, rfl⟩
          · exact absurd hMore (Nat.lt_irrefl i)
      | false =>
          simp only [triviaEnd, hLine, hBlock, Bool.false_eq_true, if_false] at hMore ⊢
          have hRun := hMore
          rw [runEnd_eq] at hRun
          split at hRun
          · rename_i b hFirst
            split at hRun
            · rename_i hBlank
              exact ⟨blanks, wins_blanks hFirst hBlank, rfl⟩
            · exact absurd hRun (Nat.lt_irrefl i)
          · exact absurd hRun (Nat.lt_irrefl i)

/-- Behind what is passed over, the token is the longest match. -/
theorem finds_token {b : UInt8} (hFirst : byteAt? text i = some b) (hStop : triviaEnd text i ≤ i) :
    Finds text i (some ((tokenAt text i b).1, i, (tokenAt text i b).2)) := by
  have hLine := startsWith_line_eq_false hStop
  unfold tokenAt
  cases hDigit : isDigit b with
  | true =>
      obtain ⟨pattern, -, hWins, hKind⟩ := wins_number hFirst hDigit
      exact .token hWins hKind
  | false =>
      cases hLetter : isLetter b with
      | true =>
          obtain ⟨pattern, hWins, hKind⟩ := wins_word hFirst hLetter
          exact .token hWins hKind
      | false =>
          cases hBlock : startsWith text i [0x2F, 0x2A] with
          | true => exact .token (wins_openComment hBlock (open_blockCommentEnd hStop hBlock)) rfl
          | false =>
              have hPlace : AtOperator text i b :=
                ⟨hFirst, not_blank_of_triviaEnd hFirst hStop hBlock, hLetter, hDigit, hLine, hBlock⟩
              simp only [Bool.false_eq_true, if_false]
              cases hFound : operatorSpellings.find? fun entry => startsWith text i entry.1 with
              | some entry => exact .token (wins_operator hPlace hFound) rfl
              | none => exact .stray (inside_of_byteAt? hFirst) (none_reads hPlace hFound)

/-- What the scanner finds behind an offset: a terminal, and where its token starts and ends. -/
def scanned (text : ByteArray) (offset : Nat) : Option (Terminal × Nat × Nat) :=
  (byteAt? text (skipTrivia text offset)).map fun first =>
    ((tokenAt text (skipTrivia text offset) first).1, skipTrivia text offset,
      (tokenAt text (skipTrivia text offset) first).2)

theorem finds_scanned (text : ByteArray) (i : Nat) : Finds text i (scanned text i) := by
  unfold scanned
  fun_induction skipTrivia text i with
  | case1 i hMore ih =>
      obtain ⟨pattern, hWins, hTrivia⟩ := wins_trivia hMore.1
      exact .skip hWins hTrivia ih
  | case2 i hStop =>
      cases hFirst : byteAt? text i with
      | none => exact .done (byteAt?_eq_none_iff.mp hFirst)
      | some b =>
          have hInside := inside_of_byteAt? hFirst
          exact finds_token hFirst (by omega)

/-- Two patterns that win read the same bytes, and are the same. -/
theorem Wins.unique {pattern other : Pattern} (hWins : Wins text i pattern j) (hOther : Wins text i other k) :
    pattern = other ∧ j = k := by
  obtain rfl := Nat.le_antisymm (hOther.longest pattern hWins.mem j hWins.reads)
    (hWins.longest other hOther.mem k hOther.reads)
  refine ⟨?_, rfl⟩
  rcases hWins.first other hOther.mem hOther.reads with hSame | hLess
  · exact hSame.symm
  · exact (hOther.first pattern hWins.mem hWins.reads).resolve_right (Nat.not_lt.mpr (Nat.le_of_lt hLess))

theorem Wins.inside {pattern : Pattern} (hWins : Wins text i pattern j) : i < text.size :=
  hWins.reads.inside hWins.nonempty

theorem Finds.unique {found other : Option (Terminal × Nat × Nat)} (hFinds : Finds text i found)
    (hOther : Finds text i other) : found = other := by
  induction hFinds with
  | done hEnd =>
      cases hOther with
      | done => rfl
      | skip hWins => exact absurd hWins.inside (Nat.not_lt.mpr hEnd)
      | token hWins => exact absurd hWins.inside (Nat.not_lt.mpr hEnd)
      | stray hInside => exact absurd hInside (Nat.not_lt.mpr hEnd)
  | skip hWins hTrivia _ ih =>
      cases hOther with
      | done hEnd => exact absurd hWins.inside (Nat.not_lt.mpr hEnd)
      | skip hWinsToo hTriviaToo hRest =>
          obtain ⟨rfl, rfl⟩ := hWins.unique hWinsToo
          exact ih hRest
      | token hWinsToo hToken =>
          obtain ⟨rfl, rfl⟩ := hWins.unique hWinsToo
          simp [hTrivia] at hToken
      | stray _ hNone => exact absurd hWins.reads (hNone _ hWins.mem _)
  | token hWins hToken =>
      cases hOther with
      | done hEnd => exact absurd hWins.inside (Nat.not_lt.mpr hEnd)
      | skip hWinsToo hTrivia hRest =>
          obtain ⟨rfl, rfl⟩ := hWins.unique hWinsToo
          simp [hTrivia] at hToken
      | token hWinsToo hTokenToo =>
          obtain ⟨rfl, rfl⟩ := hWins.unique hWinsToo
          rw [Option.some.inj (hToken.symm.trans hTokenToo)]
      | stray _ hNone => exact absurd hWins.reads (hNone _ hWins.mem _)
  | stray hInside hNone =>
      cases hOther with
      | done hEnd => exact absurd hInside (Nat.not_lt.mpr hEnd)
      | skip hWins => exact absurd hWins.reads (hNone _ hWins.mem _)
      | token hWins => exact absurd hWins.reads (hNone _ hWins.mem _)
      | stray => rfl

end

/-- The token of a terminal between two places, for a scan from an offset. It reads one byte past its end,
if there is one. -/
def tokenOf (text : ByteArray) (offset : Nat) (found : Terminal × Nat × Nat) : Token where
  kind := found.1.kind
  padding := found.2.1 - offset
  size := found.2.2 - found.2.1
  lookahead := if found.2.2 < text.size then 1 else 0

theorem nextToken_eq (text : ByteArray) (offset : Nat) :
    nextToken text offset = (scanned text offset).map (tokenOf text offset) := by
  rw [scanned, Option.map_map]
  rfl

/-- The patterns for comments, closed or not. -/
def comments : List Pattern := [lineComment, blockComment, openComment]

/-- A run of word bytes that starts with a digit, with no such byte before or behind it. -/
structure NumberRun (text : ByteArray) (i j : Nat) : Prop where
  digit : ∃ b, byteAt? text i = some b ∧ isDigit b = true
  nonempty : i < j
  word : ∀ k, i ≤ k → k < j → ∃ b, byteAt? text k = some b ∧ isWordByte b = true
  before : ∀ k b, k + 1 = i → byteAt? text k = some b → isWordByte b = false
  behind : ∀ b, byteAt? text j = some b → isWordByte b = false

section
variable {text : ByteArray} {i j : Nat}

theorem NumberRun.runEnd_eq (hRun : NumberRun text i j) : runEnd isWordByte text i = j := by
  obtain ⟨-, hSome, hWord, -, hBehind⟩ := hRun
  replace hSome := Nat.le_of_lt hSome
  fun_induction runEnd isWordByte text i with
  | case1 i hLess hHolds ih =>
      have hMore : i ≠ j := by
        rintro rfl
        simp [hBehind _ (byteAt?_of_lt hLess)] at hHolds
      exact ih (fun k hStart hEnd => hWord k (by omega) hEnd) (by omega)
  | case2 i hLess hFails =>
      refine Nat.le_antisymm hSome (Nat.le_of_not_lt fun hMore => hFails ?_)
      obtain ⟨b, hByte, hHolds⟩ := hWord i (Nat.le_refl i) hMore
      obtain rfl := Option.some.inj ((byteAt?_of_lt hLess).symm.trans hByte)
      exact hHolds
  | case3 i hOutside =>
      refine Nat.le_antisymm hSome (Nat.le_of_not_lt fun hMore => hOutside ?_)
      obtain ⟨b, hByte, -⟩ := hWord i (Nat.le_refl i) hMore
      exact inside_of_byteAt? hByte

/-- What a pattern has read is a comment, or bytes of a word, or bytes that are no digits. -/
theorem bytes_of_reading {pattern : Pattern} (hReading : Reading text i pattern j) :
    pattern ∈ comments ∨ ∃ bs, startsWith text i bs = true ∧ j = i + bs.length
      ∧ (bs.all isWordByte = true ∨ bs.all (fun b => !isDigit b) = true) := by
  obtain ⟨hOperators, hKeywords, -⟩ := spelling_facts
  cases hReading with
  | @blanks bs _ hAll hStarts =>
      refine .inr ⟨bs, hStarts, rfl, .inr ?_⟩
      rw [List.all_eq_true] at hAll ⊢
      intro b hMem
      refine (Bool.not_eq_true' _).mpr (Bool.eq_false_iff.mpr fun hDigit => ?_)
      simpa [((classes b).1 hDigit).2.1] using hAll b hMem
  | lineComment | blockComment | openComment => exact .inl (by simp [comments])
  | operator hMem hStarts => exact .inr ⟨_, hStarts, rfl, .inr (hOperators _ hMem).2⟩
  | keyword hMem hStarts => exact .inr ⟨_, hStarts, rfl, .inl (hKeywords _ hMem).2⟩
  | @identifier b bs hLetter hAll hStarts =>
      exact .inr ⟨_, hStarts, rfl, .inl (by rw [List.all_cons, isWordByte, hLetter, hAll]; rfl)⟩
  | @decimal b bs hDigit _ hAll hStarts =>
      exact .inr ⟨_, hStarts, rfl, .inl (all_word_of_digits (by rw [List.all_cons, hDigit, hAll]; rfl))⟩
  | octal hAll hStarts => exact .inr ⟨_, hStarts, rfl, .inl (all_word_of_octal hAll)⟩
  | @hex bs hTail hStarts =>
      exact .inr ⟨_, hStarts, rfl, .inl (by rw [List.all_cons, all_word_of_hexTail hTail]; rfl)⟩
  | @malformed b bs hDigit hAll hStarts =>
      exact .inr ⟨_, hStarts, rfl, .inl (by rw [List.all_cons, isWordByte, hDigit, hAll, Bool.or_true]; rfl)⟩

theorem Wins.eq_of_numberRun {pattern : Pattern} {a b : Nat} (hRun : NumberRun text i j)
    (hWins : Wins text a pattern b) (hStart : a ≤ i) (hEnd : i < b) :
    pattern ∈ comments ∨ a = i ∧ b = j := by
  refine (bytes_of_reading (reading_of_reads hWins.mem hWins.reads)).imp_right ?_
  obtain ⟨first, hFirst, hDigit⟩ := hRun.digit
  rintro ⟨bs, hStarts, rfl, hAll⟩
  have hByte : ∀ k, a ≤ k → k < a + bs.length → ∃ c ∈ bs, byteAt? text k = some c := by
    intro k hFrom hTo
    have hBound : k - a < bs.length := by omega
    refine ⟨bs[k - a], List.getElem_mem hBound, ?_⟩
    rw [← List.getElem?_eq_getElem hBound, ← byteAt?_of_startsWith hStarts hBound]
    congr 1
    omega
  rcases hAll with hWord | hOther
  · have hSame : a = i := by
      refine Nat.le_antisymm hStart (Nat.le_of_not_lt fun hLess => ?_)
      obtain ⟨c, hMem, hHere⟩ := hByte (i - 1) (by omega) (by omega)
      have hNot := hRun.before (i - 1) c (by omega) hHere
      simp [List.all_eq_true.mp hWord c hMem] at hNot
    subst hSame
    obtain ⟨other, -, hOther, -⟩ := wins_number hFirst hDigit
    exact ⟨rfl, (hWins.unique hOther).2.trans hRun.runEnd_eq⟩
  · obtain ⟨c, hMem, hHere⟩ := hByte i hStart hEnd
    obtain rfl := Option.some.inj (hFirst.symm.trans hHere)
    simpa [hDigit] using List.all_eq_true.mp hOther _ hMem

/-- Of the patterns for numbers, the one that wins is the one that reads all of the run. -/
theorem number_iff {pattern form : Pattern} (hPattern : pattern ∈ [decimal, octal, hex, malformed])
    (hForm : form ∈ [decimal, octal, hex]) (hWins : Wins text i pattern j) :
    pattern.terminal? = form.terminal? ↔ form.regex.Reads text i j := by
  simp only [List.mem_cons, List.not_mem_nil, or_false] at hPattern hForm
  have hFacts : form ∈ patterns ∧ ¬ form.priority < pattern.priority := by
    rcases hForm with rfl | rfl | rfl <;> rcases hPattern with rfl | rfl | rfl | rfl <;>
      exact ⟨by simp [patterns], by decide⟩
  constructor
  · intro hSame
    have hReads := hWins.reads
    rcases hForm with rfl | rfl | rfl <;> rcases hPattern with rfl | rfl | rfl | rfl <;>
      first | exact hReads | exact absurd hSame (by decide)
  · intro hReads
    rw [(hWins.first form hFacts.1 hReads).resolve_right hFacts.2]

end

/-- The scanner takes the longest match at every place, passes over blanks and comments, and finds a
single byte where nothing matches. A run of word bytes that starts with a digit is one token unless it is
in a comment, and a number exactly if all of it has the form of one. -/
theorem scans_longest (text : ByteArray) :
    (∀ offset result, nextToken text offset = result ↔
      ∃ found, Finds text offset found ∧ result = found.map (tokenOf text offset))
    ∧ ∀ i j, NumberRun text i j →
      (∀ a pattern b, Wins text a pattern b → a ≤ i → i < b → pattern ∈ comments ∨ a = i ∧ b = j)
      ∧ ∃ t, nextToken text i = some (tokenOf text i (t, i, j))
        ∧ (t = .decimalLiteral ↔ decimal.regex.Reads text i j)
        ∧ (t = .octalLiteral ↔ octal.regex.Reads text i j)
        ∧ (t = .hexLiteral ↔ hex.regex.Reads text i j)
        ∧ t ∈ [.decimalLiteral, .octalLiteral, .hexLiteral, .malformedNumber] := by
  refine ⟨fun offset result => ?_, fun i j hRun => ⟨fun a pattern b => Wins.eq_of_numberRun hRun, ?_⟩⟩
  · rw [nextToken_eq]
    constructor
    · rintro rfl
      exact ⟨_, finds_scanned text offset, rfl⟩
    · rintro ⟨found, hFinds, rfl⟩
      rw [(finds_scanned text offset).unique hFinds]
  · obtain ⟨first, hFirst, hDigit⟩ := hRun.digit
    obtain ⟨pattern, hMem, hWins, hKind⟩ := wins_number hFirst hDigit
    rw [hRun.runEnd_eq] at hWins hKind
    have hForm : ∀ {form : Pattern} {t : Terminal}, form ∈ [decimal, octal, hex] → form.terminal? = some t →
        (numberKind (slice text i j) = t ↔ form.regex.Reads text i j) := by
      intro form t hForm hTerminal
      rw [← number_iff hMem hForm hWins, hKind, hTerminal, Option.some.injEq]
    refine ⟨numberKind (slice text i j), ?_, hForm (by simp) rfl, hForm (by simp) rfl,
      hForm (by simp) rfl, ?_⟩
    · rw [nextToken_eq, (finds_scanned text i).unique (.token hWins hKind), Option.map_some]
    · simp only [List.mem_cons, List.not_mem_nil, or_false] at hMem ⊢
      rcases hMem with rfl | rfl | rfl | rfl <;> simp [← Option.some.inj hKind]

/-- A nine behind a zero makes a malformed number of the whole run. -/
theorem scans_longest_of_malformed :
    NumberRun " 09;".toUTF8 1 3
      ∧ (∃ pattern, Wins " 09;".toUTF8 1 pattern 3 ∧ (pattern ∈ comments ∨ 1 = 1 ∧ 3 = 3))
      ∧ ∃ t, nextToken " 09;".toUTF8 1 = some (tokenOf " 09;".toUTF8 1 (t, 1, 3))
        ∧ t ∈ [.decimalLiteral, .octalLiteral, .hexLiteral, .malformedNumber] := by
  have hBytes : byteAt? " 09;".toUTF8 0 = some 0x20 ∧ byteAt? " 09;".toUTF8 1 = some 0x30
      ∧ byteAt? " 09;".toUTF8 2 = some 0x39 ∧ byteAt? " 09;".toUTF8 3 = some 0x3B := by
    decide +kernel
  obtain ⟨hBlank, hZero, hNine, hBehind⟩ := hBytes
  have hRun : NumberRun " 09;".toUTF8 1 3 := by
    refine ⟨⟨_, hZero, rfl⟩, by decide, fun k hStart hEnd => ?_, fun k b hPlace hByte => ?_,
      fun b hByte => ?_⟩
    · obtain rfl | rfl : k = 1 ∨ k = 2 := by omega
      · exact ⟨_, hZero, rfl⟩
      · exact ⟨_, hNine, rfl⟩
    · obtain rfl : k = 0 := by omega
      obtain rfl := Option.some.inj (hBlank.symm.trans hByte)
      rfl
    · obtain rfl := Option.some.inj (hBehind.symm.trans hByte)
      rfl
  obtain ⟨hEvery, t, hNext, -, -, -, hKind⟩ := (scans_longest " 09;".toUTF8).2 1 3 hRun
  obtain ⟨pattern, -, hWins, -⟩ := wins_number hZero rfl
  rw [hRun.runEnd_eq] at hWins
  exact ⟨hRun, ⟨pattern, hWins, hEvery 1 pattern 3 hWins (Nat.le_refl 1) (by decide)⟩, t, hNext, hKind⟩

end IncrementalParsing.SysY
