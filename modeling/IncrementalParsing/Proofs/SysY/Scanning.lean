import IncrementalParsing.Proofs.Parser.Reuse
import IncrementalParsing.SysY.Language
import Mathlib.Data.List.Find

/-! How far the scanner looks. A valid token is found again wherever its bytes stand, with the blanks
and comments in front of it and the one byte behind it. -/
namespace IncrementalParsing
namespace Text

/-- Two texts have the same bytes at some places in a row. -/
def Matches (old new : ByteArray) (i j count : Nat) : Prop :=
  ∀ k < count, byteAt? new (j + k) = byteAt? old (i + k)

section
variable {old new : ByteArray} {i j count : Nat}

theorem Matches.shorter (h : Matches old new i j count) {less : Nat} (hLess : less ≤ count) :
    Matches old new i j less :=
  fun k hBound => h k (Nat.lt_of_lt_of_le hBound hLess)

/-- Texts that match do so from any place further on. -/
theorem Matches.behind (h : Matches old new i j count) {start : Nat} (hStart : i ≤ start) :
    Matches old new start (j + (start - i)) (count - (start - i)) := by
  intro k hBound
  have hByte := h (start - i + k) (by omega)
  rw [Nat.add_assoc, hByte]
  congr 1
  omega

theorem Matches.first (h : Matches old new i j count) (hCount : 0 < count) :
    byteAt? new j = byteAt? old i := h 0 hCount

theorem byteIn_of_matches (h : Matches old new i j count) {k : Nat} (hBound : k < count)
    (low high : UInt8) : byteIn new (j + k) low high = byteIn old (i + k) low high := by
  rw [byteIn, byteIn, h k hBound]

theorem continues_of_matches (h : Matches old new i j count) {k : Nat} (hBound : k < count) :
    continues new (j + k) = continues old (i + k) :=
  byteIn_of_matches h hBound _ _

/-- A scalar value is where its bytes are. -/
theorem scalarWidth?_of_matches {width : Nat} (hWidth : scalarWidth? old i = some width)
    (h : Matches old new i j width) : scalarWidth? new j = some width := by
  have hFirst := h.first (scalarWidth?_pos hWidth).1
  unfold scalarWidth? at hWidth ⊢
  rw [hFirst]
  cases hLead : byteAt? old i with
  | none => simp [hLead] at hWidth
  | some lead =>
      rw [hLead] at hWidth
      dsimp only at hWidth ⊢
      by_cases hOne : lead < 0x80
      · rwa [if_pos hOne] at hWidth ⊢
      rw [if_neg hOne] at hWidth ⊢
      by_cases hStray : lead < 0xC2
      · rwa [if_pos hStray] at hWidth ⊢
      rw [if_neg hStray] at hWidth ⊢
      by_cases hTwo : lead < 0xE0
      · rw [if_pos hTwo] at hWidth ⊢
        split at hWidth
        · rename_i hNext
          obtain rfl := Option.some.inj hWidth
          rw [continues_of_matches h (by decide : 1 < 2), if_pos hNext]
        · simp at hWidth
      rw [if_neg hTwo] at hWidth ⊢
      by_cases hThree : lead < 0xF0
      · rw [if_pos hThree] at hWidth ⊢
        split at hWidth
        · rename_i hNext
          obtain rfl := Option.some.inj hWidth
          rw [byteIn_of_matches h (by decide : 1 < 3), continues_of_matches h (by decide : 2 < 3),
            if_pos hNext]
        · simp at hWidth
      rw [if_neg hThree] at hWidth ⊢
      split at hWidth
      · rename_i hFour
        rw [if_pos hFour]
        split at hWidth
        · rename_i hNext
          obtain rfl := Option.some.inj hWidth
          rw [byteIn_of_matches h (by decide : 1 < 4), continues_of_matches h (by decide : 2 < 4),
            continues_of_matches h (by decide : 3 < 4), if_pos hNext]
        · simp at hWidth
      · simp at hWidth

theorem inside_of_byteIn {text : ByteArray} {low high : UInt8}
    (hByte : byteIn text i low high = true) : i < text.size := by
  refine Nat.lt_of_not_le fun hOutside => ?_
  simp [byteIn, byteAt?_eq_none_iff.mpr hOutside] at hByte

/-- A scalar lies within the text. -/
theorem scalarWidth?_le {text : ByteArray} {width : Nat}
    (hWidth : scalarWidth? text i = some width) : i + width ≤ text.size := by
  have hInside := (scalarWidth?_pos hWidth).2
  have hNext : ∀ k, continues text (i + k) = true → i + k < text.size :=
    fun k hByte => inside_of_byteIn hByte
  unfold scalarWidth? at hWidth
  split at hWidth
  · simp at hWidth
  · dsimp only at hWidth
    repeat' split at hWidth
    all_goals simp only [Option.some.injEq, reduceCtorEq] at hWidth
    all_goals subst hWidth
    · exact hInside
    · exact hNext 1 ‹_›
    · rename_i hBytes
      exact hNext 2 (Bool.and_eq_true_iff.mp hBytes).2
    · rename_i hBytes
      exact hNext 3 (Bool.and_eq_true_iff.mp hBytes).2

/-- What starts no scalar value is the end of the text, or no character of ASCII. -/
theorem byte_of_scalarWidth?_eq_none (hNone : scalarWidth? old i = none) :
    ∀ b, byteAt? old i = some b → 0x80 ≤ b := by
  intro b hByte
  unfold scalarWidth? at hNone
  rw [hByte] at hNone
  dsimp only at hNone
  split at hNone
  · simp at hNone
  · rename_i hHigh
    exact UInt8.not_lt.mp hHigh

/-- A run goes on by one byte as long as the byte belongs to it. -/
theorem runEnd_eq (p : UInt8 → Bool) (text : ByteArray) (i : Nat) :
    runEnd p text i = match byteAt? text i with
      | some b => if p b then runEnd p text (i + 1) else i
      | none => i := by
  rw [runEnd, byteAt?]
  split
  · rename_i hLess
    rw [getElem?_pos text i hLess]
  · rename_i hMore
    rw [getElem?_neg text i hMore]

/-- A run of bytes is as long where its bytes are, with the one behind it. -/
theorem runEnd_of_matches (p : UInt8 → Bool) (h : Matches old new i j (runEnd p old i - i + 1)) :
    runEnd p new j = j + (runEnd p old i - i) := by
  fun_induction runEnd p old i generalizing j with
  | case1 i hLess hHolds ih =>
      have hLe := le_runEnd p old (i + 1)
      have hFirst := h.first (Nat.succ_pos _)
      have hRest := ih (j := j + 1) (by simpa using (h.behind (Nat.le_succ i)).shorter (by omega))
      rw [runEnd_eq, hFirst, byteAt?, getElem?_pos old i hLess]
      simp only [hHolds, if_true]
      omega
  | case2 i hLess hFails =>
      have hFirst := h.first (Nat.succ_pos _)
      rw [runEnd_eq, hFirst, byteAt?, getElem?_pos old i hLess]
      simp [hFails]
  | case3 i hMore =>
      have hFirst := h.first (Nat.succ_pos _)
      rw [runEnd_eq, hFirst, byteAt?, getElem?_neg old i hMore]
      simp

theorem runEnd_le_size (p : UInt8 → Bool) (text : ByteArray) {i : Nat} (hStart : i ≤ text.size) :
    runEnd p text i ≤ text.size := by
  fun_induction runEnd p text i with
  | case1 i hLess _ ih => exact ih hLess
  | case2 | case3 => exact hStart

end
end Text

namespace SysY
open Text

section
variable {old new : ByteArray} {i j count : Nat}

/-- So the same bytes stand at the front of both. -/
theorem startsWith_of_matches (bytes : List UInt8) (h : Matches old new i j bytes.length) :
    startsWith new j bytes = startsWith old i bytes := by
  induction bytes generalizing i j with
  | nil => rfl
  | cons b bytes ih =>
      have hRest : Matches old new (i + 1) (j + 1) bytes.length := by
        simpa using h.behind (Nat.le_succ i)
      rw [startsWith, startsWith, h.first (Nat.succ_pos _), ih hRest]

theorem le_lineCommentEnd (text : ByteArray) (i : Nat) : i ≤ lineCommentEnd text i := by
  fun_induction lineCommentEnd text i <;> omega

theorem le_blockCommentEnd (text : ByteArray) (i : Nat) : i ≤ (blockCommentEnd text i).2 := by
  fun_induction blockCommentEnd text i <;> omega

theorem blockCommentEnd_le {text : ByteArray} (hStart : i ≤ text.size) :
    (blockCommentEnd text i).2 ≤ text.size := by
  fun_induction blockCommentEnd text i with
  | case1 i hHere =>
      refine Nat.lt_of_not_le fun hOutside => ?_
      simp [byteAt?_eq_none_iff.mpr hOutside] at hHere
  | case2 i hElse width hWidth ih => exact ih (scalarWidth?_le hWidth)
  | case3 i hElse hNone => exact hStart

/-- A line comment ends at a line feed, or where no scalar value is. -/
theorem scalar_of_lineCommentEnd (text : ByteArray) (i : Nat) :
    byteAt? text (lineCommentEnd text i) = some 0x0A
      ∨ scalarWidth? text (lineCommentEnd text i) = none := by
  fun_induction lineCommentEnd text i with
  | case1 i hFeed => exact .inl hFeed
  | case2 i hFeed width hWidth ih => exact ih
  | case3 i hFeed hNone => exact .inr hNone

/-- A line comment goes as far where its bytes are, and may go on there. -/
theorem lineCommentEnd_of_matches (h : Matches old new i j (lineCommentEnd old i - i)) :
    lineCommentEnd new j = lineCommentEnd new (j + (lineCommentEnd old i - i)) := by
  fun_induction lineCommentEnd old i generalizing j with
  | case1 i hHere => rw [Nat.sub_self, Nat.add_zero]
  | case2 i hElse width hWidth ih =>
      have hWide := (scalarWidth?_pos hWidth).1
      have hLe := le_lineCommentEnd old (i + width)
      have hHere := scalarWidth?_of_matches hWidth (h.shorter (by omega))
      have hRest := ih (j := j + width)
        (by simpa using (h.behind (Nat.le_add_right i width)).shorter (by omega))
      rw [lineCommentEnd, h.first (by omega), if_neg hElse]
      split
      · rename_i other hOther
        obtain rfl := Option.some.inj (hHere.symm.trans hOther)
        rw [hRest]
        congr 1
        omega
      · rename_i hNone
        simp [hHere] at hNone
  | case3 i hElse hNone => rw [Nat.sub_self, Nat.add_zero]

theorem lineCommentEnd_eq_self {text : ByteArray}
    (hStop : byteAt? text i = some 0x0A ∨ scalarWidth? text i = none) : lineCommentEnd text i = i := by
  rw [lineCommentEnd]
  split
  · rfl
  · rename_i hElse
    have hNone := hStop.resolve_left hElse
    split
    · rename_i width hWidth
      simp [hNone] at hWidth
    · rfl

theorem closed_blockCommentEnd {text : ByteArray} (hClosed : (blockCommentEnd text i).1 = true) :
    i + 2 ≤ (blockCommentEnd text i).2 := by
  fun_induction blockCommentEnd text i with
  | case1 i hHere => exact Nat.le_refl _
  | case2 i hElse width hWidth ih =>
      have hRest := ih hClosed
      omega
  | case3 i hElse hNone => simp at hClosed

/-- A closed block comment is as long where its bytes are. -/
theorem blockCommentEnd_of_matches (hClosed : (blockCommentEnd old i).1 = true)
    (h : Matches old new i j ((blockCommentEnd old i).2 - i)) :
    blockCommentEnd new j = (true, j + ((blockCommentEnd old i).2 - i)) := by
  fun_induction blockCommentEnd old i generalizing j with
  | case1 i hHere =>
      rw [blockCommentEnd, h.first (by omega), h 1 (by omega), if_pos hHere]
      congr 1
      omega
  | case2 i hElse width hWidth ih =>
      have hLe := closed_blockCommentEnd hClosed
      have hHere := scalarWidth?_of_matches hWidth (h.shorter (by omega))
      have hRest := ih hClosed (j := j + width)
        (by simpa using (h.behind (Nat.le_add_right i width)).shorter (by omega))
      rw [blockCommentEnd, h.first (by omega), h 1 (by omega), if_neg hElse]
      split
      · rename_i other hOther
        obtain rfl := Option.some.inj (hHere.symm.trans hOther)
        rw [hRest]
        congr 1
        omega
      · rename_i hNone
        simp [hHere] at hNone
  | case3 i hElse hNone => simp at hClosed

/-- A block comment that stays open ends where no scalar value is. -/
theorem scalar_of_blockCommentEnd {text : ByteArray} (hOpen : (blockCommentEnd text i).1 = false) :
    scalarWidth? text (blockCommentEnd text i).2 = none := by
  fun_induction blockCommentEnd text i with
  | case1 i hHere => simp at hOpen
  | case2 i hElse width hWidth ih => exact ih hOpen
  | case3 i hElse hNone => exact hNone

/-- A block comment that stays open goes as far where its bytes are, and may go on there. -/
theorem blockCommentEnd_of_open (hOpen : (blockCommentEnd old i).1 = false)
    (h : Matches old new i j ((blockCommentEnd old i).2 - i + 1)) :
    blockCommentEnd new j = blockCommentEnd new (j + ((blockCommentEnd old i).2 - i)) := by
  fun_induction blockCommentEnd old i generalizing j with
  | case1 i hHere => simp at hOpen
  | case2 i hElse width hWidth ih =>
      have hWide := (scalarWidth?_pos hWidth).1
      have hLe := le_blockCommentEnd old (i + width)
      have hHere := scalarWidth?_of_matches hWidth (h.shorter (by omega))
      have hRest := ih hOpen (j := j + width)
        (by simpa using (h.behind (Nat.le_add_right i width)).shorter (by omega))
      rw [blockCommentEnd, h.first (by omega), h 1 (by omega), if_neg hElse]
      split
      · rename_i other hOther
        obtain rfl := Option.some.inj (hHere.symm.trans hOther)
        rw [hRest]
        congr 1
        omega
      · rename_i hNone
        simp [hHere] at hNone
  | case3 i hElse hNone => rw [Nat.sub_self, Nat.add_zero]

/-- Without a scalar to read there is no comment to go on with. -/
theorem blockCommentEnd_eq_self {text : ByteArray} (hNone : scalarWidth? text i = none) :
    blockCommentEnd text i = (false, i) := by
  rw [blockCommentEnd, if_neg]
  · split
    · rename_i width hWidth
      simp [hNone] at hWidth
    · rfl
  · rintro ⟨hStar, -⟩
    exact absurd (byte_of_scalarWidth?_eq_none hNone _ hStar) (by decide)

theorem startsWith_pair {text : ByteArray} {i : Nat} {a b : UInt8} :
    startsWith text i [a, b] = true ↔ byteAt? text i = some a ∧ byteAt? text (i + 1) = some b := by
  simp [startsWith]

theorem isBlank_lt {b : UInt8} (hBlank : isBlank b = true) : b < 0x80 := by
  simp only [isBlank, Bool.or_eq_true, Bool.and_eq_true, decide_eq_true_eq] at hBlank
  rcases hBlank with rfl | ⟨-, hLast⟩
  · decide
  · exact UInt8.lt_of_le_of_lt hLast (by decide)

/-- Blanks and comments are inside the text, and they begin with a character of ASCII. -/
theorem triviaEnd_spec {text : ByteArray} {i : Nat} (hMore : i < triviaEnd text i) :
    ∃ b, byteAt? text i = some b ∧ b < 0x80 := by
  unfold triviaEnd at hMore
  split at hMore
  · rename_i hLine
    exact ⟨_, (startsWith_pair.mp hLine).1, by decide⟩
  · split at hMore
    · rename_i hBlock
      exact ⟨_, (startsWith_pair.mp hBlock).1, by decide⟩
    · rw [runEnd_eq] at hMore
      split at hMore
      · rename_i b hByte
        split at hMore
        · rename_i hBlank
          exact ⟨b, hByte, isBlank_lt hBlank⟩
        · omega
      · omega

/-- Blanks and a comment are as long where their bytes are. Behind a line comment there has to be a
line feed, or no scalar value there either. -/
theorem triviaEnd_of_matches (hMore : i < triviaEnd old i)
    (hLine : startsWith old i [0x2F, 0x2F] = true → byteAt? old (triviaEnd old i) = some 0x0A
      ∨ scalarWidth? new (j + (triviaEnd old i - i)) = none)
    (h : Matches old new i j (triviaEnd old i - i + 1)) :
    triviaEnd new j = j + (triviaEnd old i - i) := by
  have hLines := startsWith_of_matches [0x2F, 0x2F] (h.shorter (by simp; omega))
  have hBlocks := startsWith_of_matches [0x2F, 0x2A] (h.shorter (by simp; omega))
  rw [triviaEnd, hLines, hBlocks]
  cases hIsLine : startsWith old i [0x2F, 0x2F] with
  | true =>
      have hEnd : triviaEnd old i = lineCommentEnd old (i + 2) := by rw [triviaEnd, if_pos hIsLine]
      have hStop := hLine hIsLine
      rw [hEnd] at hStop h ⊢
      have hLe := le_lineCommentEnd old (i + 2)
      have hPlace : j + 2 + (lineCommentEnd old (i + 2) - (i + 2))
          = j + (lineCommentEnd old (i + 2) - i) := by omega
      have hFeed := h (lineCommentEnd old (i + 2) - i) (Nat.lt_succ_self _)
      rw [Nat.add_sub_cancel' (by omega)] at hFeed
      rw [if_pos rfl, lineCommentEnd_of_matches (j := j + 2)
        (by simpa using (h.behind (Nat.le_add_right i 2)).shorter (by omega)), hPlace,
        lineCommentEnd_eq_self (hStop.imp_left hFeed.trans)]
  | false =>
      cases hIsBlock : startsWith old i [0x2F, 0x2A] with
      | true =>
          cases hClosed : (blockCommentEnd old (i + 2)).1 with
          | true =>
              have hEnd : triviaEnd old i = (blockCommentEnd old (i + 2)).2 := by
                simp only [triviaEnd, hIsLine, hIsBlock, if_true, Bool.false_eq_true, if_false]
                split
                · rename_i stop hStop
                  rw [hStop]
                · rename_i stop hStop
                  simp [hStop] at hClosed
              rw [hEnd] at h ⊢
              have hLe := closed_blockCommentEnd hClosed
              rw [if_neg Bool.false_ne_true, if_pos rfl, blockCommentEnd_of_matches (j := j + 2) hClosed
                (by simpa using (h.behind (Nat.le_add_right i 2)).shorter (by omega))]
              dsimp only
              omega
          | false =>
              exfalso
              simp only [triviaEnd, hIsLine, hIsBlock, if_true, Bool.false_eq_true, if_false] at hMore
              split at hMore
              · rename_i stop hStop
                simp [hStop] at hClosed
              · exact Nat.lt_irrefl _ hMore
      | false =>
          have hEnd : triviaEnd old i = runEnd isBlank old i := by
            simp only [triviaEnd, hIsLine, hIsBlock, Bool.false_eq_true, if_false]
          rw [hEnd] at h ⊢
          rw [if_neg Bool.false_ne_true, if_neg Bool.false_ne_true, runEnd_of_matches isBlank h]

theorem le_skipTrivia (text : ByteArray) (i : Nat) : i ≤ skipTrivia text i := by
  fun_induction skipTrivia text i <;> omega

/-- Behind blanks and comments stands what is none of them. -/
theorem triviaEnd_skipTrivia (text : ByteArray) (i : Nat) (hInside : skipTrivia text i < text.size) :
    triviaEnd text (skipTrivia text i) ≤ skipTrivia text i := by
  fun_induction skipTrivia text i with
  | case1 i hMore ih => exact ih hInside
  | case2 i hLess => omega

/-- Among the blanks and comments from one place to another, a line comment comes last. -/
inductive LineLast (text : ByteArray) : Nat → Nat → Prop
  | last {i : Nat} (hLine : startsWith text i [0x2F, 0x2F] = true) :
      LineLast text i (lineCommentEnd text (i + 2))
  | skip {i stop : Nat} (hMore : i < triviaEnd text i) (hRest : LineLast text (triviaEnd text i) stop) :
      LineLast text i stop

/-- What is passed over is as long where its bytes are, if what stands behind it is not passed over
there. A line comment in front of what is no scalar value must not find one there. -/
theorem skipTrivia_of_matches
    (hLine : LineLast old i (skipTrivia old i) → scalarWidth? old (skipTrivia old i) = none →
      scalarWidth? new (j + (skipTrivia old i - i)) = none)
    (hStop : triviaEnd new (j + (skipTrivia old i - i)) ≤ j + (skipTrivia old i - i))
    (h : Matches old new i j (skipTrivia old i - i + 1)) :
    skipTrivia new j = j + (skipTrivia old i - i) := by
  fun_induction skipTrivia old i generalizing j with
  | case1 i hMore ih =>
      have hLe := le_skipTrivia old (triviaEnd old i)
      have hEnds : startsWith old i [0x2F, 0x2F] = true → byteAt? old (triviaEnd old i) = some 0x0A
          ∨ scalarWidth? new (j + (triviaEnd old i - i)) = none := by
        intro hIsLine
        have hEnd : triviaEnd old i = lineCommentEnd old (i + 2) := by rw [triviaEnd, if_pos hIsLine]
        refine (hEnd ▸ scalar_of_lineCommentEnd old (i + 2)).imp_right fun hNone => ?_
        -- Nothing that is passed over begins here, so this is where the token starts.
        have hHere : skipTrivia old (triviaEnd old i) = triviaEnd old i := by
          rw [skipTrivia, if_neg]
          rintro ⟨hFurther, -⟩
          obtain ⟨b, hByte, hLow⟩ := triviaEnd_spec hFurther
          exact absurd hLow (UInt8.not_lt.mpr (byte_of_scalarWidth?_eq_none hNone b hByte))
        rw [hHere] at hLine
        refine hLine ?_ hNone
        rw [hEnd]
        exact .last hIsLine
      have hHere := triviaEnd_of_matches hMore.1 hEnds (h.shorter (by omega))
      have hInside : j < new.size := by
        refine Nat.lt_of_not_le fun hOutside => ?_
        have hNone := h.first (Nat.succ_pos _)
        rw [byteAt?_eq_none_iff.mpr hOutside] at hNone
        have hBeyond := byteAt?_eq_none_iff.mp hNone.symm
        omega
      have hPlace : j + (skipTrivia old (triviaEnd old i) - i)
          = triviaEnd new j + (skipTrivia old (triviaEnd old i) - triviaEnd old i) := by omega
      rw [hPlace] at hLine hStop ⊢
      rw [skipTrivia, if_pos ⟨by omega, hInside⟩]
      refine ih (fun hLast => hLine (.skip hMore.1 hLast)) hStop ?_
      have hRest := h.behind (Nat.le_of_lt hMore.1)
      rw [← hHere] at hRest
      exact hRest.shorter (by omega)
  | case2 i hLess =>
      rw [Nat.sub_self, Nat.add_zero] at hStop ⊢
      rw [skipTrivia, if_neg]
      omega

theorem slice_of_matches (h : Matches old new i j count) (hBound : i + count ≤ old.size) :
    slice new j (j + count) = slice old i (i + count) := by
  have hNew : count = 0 ∨ j + count ≤ new.size := by
    refine or_iff_not_imp_left.mpr fun hSome => Nat.le_of_not_lt fun hOutside => ?_
    have hLast := h (count - 1) (by omega)
    rw [byteAt?_eq_none_iff.mpr (by omega)] at hLast
    have hBeyond := byteAt?_eq_none_iff.mp hLast.symm
    omega
  refine List.ext_getElem? fun k => ?_
  rw [slice, slice, toList_eq, toList_eq, Array.getElem?_toList, Array.getElem?_toList,
    ← byteAt?_eq, ← byteAt?_eq, byteAt?_extract, byteAt?_extract]
  by_cases hLess : k < count
  · rw [if_pos (by omega), if_pos (by omega), h k hLess]
  · rw [if_neg (by omega), if_neg (by omega)]

/-- Operators have at most two bytes, and the first is ASCII. -/
theorem operatorSpellings_short : ∀ entry ∈ operatorSpellings,
    entry.1.length ≤ 2 ∧ ∃ b bytes, entry.1 = b :: bytes ∧ b < 0x80 := by
  have hShort : ∀ entry ∈ operatorSpellings,
      entry.1.length ≤ 2 ∧ entry.1.head?.elim false (fun b => decide (b < 0x80)) = true := by
    decide +kernel
  intro entry hMem
  obtain ⟨hLength, hHead⟩ := hShort entry hMem
  refine ⟨hLength, ?_⟩
  cases hBytes : entry.1 with
  | nil => simp [hBytes] at hHead
  | cons b bytes => exact ⟨b, bytes, rfl, by simpa [hBytes] using hHead⟩

theorem startsWith_le {text : ByteArray} {bytes : List UInt8} (hSome : bytes ≠ [])
    (hStarts : startsWith text i bytes = true) : i + bytes.length ≤ text.size := by
  induction bytes generalizing i with
  | nil => exact absurd rfl hSome
  | cons b bytes ih =>
      simp only [startsWith, Bool.and_eq_true, beq_iff_eq] at hStarts
      have hInside : i < text.size := by
        refine Nat.lt_of_not_le fun hOutside => ?_
        simp [byteAt?_eq_none_iff.mpr hOutside] at hStarts
      cases bytes with
      | nil => exact hInside
      | cons c bytes =>
          have hRest := ih (by simp) hStarts.2
          simp only [List.length_cons] at hRest ⊢
          omega

/-- A token ends inside the text, behind its first byte. -/
theorem tokenAt_spec {text : ByteArray} {first : UInt8} (hFirst : byteAt? text i = some first) :
    i < (tokenAt text i first).2 ∧ (tokenAt text i first).2 ≤ text.size := by
  have hInside : i < text.size := by
    refine Nat.lt_of_not_le fun hOutside => ?_
    simp [byteAt?_eq_none_iff.mpr hOutside] at hFirst
  have hRun : isWordByte first = true →
      i < runEnd isWordByte text i ∧ runEnd isWordByte text i ≤ text.size := by
    intro hWord
    refine ⟨?_, runEnd_le_size _ _ (Nat.le_of_lt hInside)⟩
    rw [runEnd_eq, hFirst]
    simp only [hWord, if_true]
    exact le_runEnd isWordByte text (i + 1)
  unfold tokenAt
  split
  · rename_i hDigit
    exact hRun (by simp [isWordByte, hDigit])
  · split
    · rename_i hLetter
      exact hRun (by simp [isWordByte, hLetter])
    · split
      · rename_i hOpens
        have hLe := le_blockCommentEnd text (i + 2)
        have hRoom : (blockCommentEnd text (i + 2)).2 ≤ text.size :=
          blockCommentEnd_le (startsWith_le (by simp) hOpens)
        dsimp only
        omega
      · split
        · rename_i bytes t hFound
          obtain ⟨-, b, rest, hBytes, -⟩ :=
            operatorSpellings_short _ (List.mem_of_find?_eq_some hFound)
          have hStarts := List.find?_some hFound
          dsimp only at hBytes hStarts ⊢
          subst hBytes
          have hRoom := startsWith_le (by simp) hStarts
          simp only [List.length_cons] at hRoom ⊢
          omega
        · exact ⟨Nat.lt_succ_self i, hInside⟩

theorem startsWith_line_eq_false {text : ByteArray} (hStop : triviaEnd text i ≤ i) :
    startsWith text i [0x2F, 0x2F] = false := by
  refine Bool.eq_false_iff.mpr fun hIs => ?_
  rw [triviaEnd, if_pos hIs] at hStop
  have hLe := le_lineCommentEnd text (i + 2)
  omega

/-- A block comment that is not passed over stays open. -/
theorem open_blockCommentEnd {text : ByteArray} (hStop : triviaEnd text i ≤ i)
    (hBlock : startsWith text i [0x2F, 0x2A] = true) : (blockCommentEnd text (i + 2)).1 = false := by
  refine Bool.eq_false_iff.mpr fun hClosed => ?_
  have hLe := closed_blockCommentEnd hClosed
  simp only [triviaEnd, startsWith_line_eq_false hStop, hBlock, Bool.false_eq_true, if_false,
    if_true] at hStop
  split at hStop
  · rename_i stop hEnd
    simp only [hEnd] at hLe
    omega
  · rename_i stop hEnd
    simp [hEnd] at hClosed

theorem tokenAt_block {text : ByteArray} (hBlock : startsWith text i [0x2F, 0x2A] = true) :
    tokenAt text i 0x2F = (.unterminatedComment, (blockCommentEnd text (i + 2)).2) := by
  rw [tokenAt, if_neg (by decide), if_neg (by decide), if_pos hBlock]

/-- A byte that is neither passed over nor an open comment is no blank. -/
theorem not_blank_of_triviaEnd {text : ByteArray} {first : UInt8} (hFirst : byteAt? text i = some first)
    (hStop : triviaEnd text i ≤ i) (hBlock : startsWith text i [0x2F, 0x2A] = false) :
    isBlank first = false := by
  refine Bool.eq_false_iff.mpr fun hBlank => ?_
  have hLe := le_runEnd isBlank text (i + 1)
  have hLine := startsWith_line_eq_false hStop
  rw [triviaEnd, hLine, hBlock, if_neg Bool.false_ne_true, if_neg Bool.false_ne_true, runEnd_eq,
    hFirst] at hStop
  simp only [hBlank, if_true] at hStop
  omega

/-- A comment that stays open is found where its bytes are, if no scalar value is at its end there. -/
theorem openComment_of_matches (hStop : triviaEnd old i ≤ i) (hBlock : startsWith old i [0x2F, 0x2A] = true)
    (hOpen : scalarWidth? new (j + ((blockCommentEnd old (i + 2)).2 - i)) = none)
    (h : Matches old new i j ((blockCommentEnd old (i + 2)).2 - i + 1)) :
    startsWith new j [0x2F, 0x2A] = true
      ∧ blockCommentEnd new (j + 2) = (false, j + ((blockCommentEnd old (i + 2)).2 - i)) := by
  have hLe := le_blockCommentEnd old (i + 2)
  have hPlace : j + 2 + ((blockCommentEnd old (i + 2)).2 - (i + 2))
      = j + ((blockCommentEnd old (i + 2)).2 - i) := by omega
  refine ⟨(startsWith_of_matches _ (h.shorter (by simp; omega))).trans hBlock, ?_⟩
  rw [blockCommentEnd_of_open (j := j + 2) (open_blockCommentEnd hStop hBlock)
    (by simpa using (h.behind (Nat.le_add_right i 2)).shorter (by omega)), hPlace]
  exact blockCommentEnd_eq_self hOpen

/-- A run is found where its bytes are, with the one behind it. -/
theorem slice_runEnd_of_matches (p : UInt8 → Bool) (hBound : runEnd p old i ≤ old.size)
    (h : Matches old new i j (runEnd p old i - i + 1)) :
    runEnd p new j = j + (runEnd p old i - i)
      ∧ slice new j (runEnd p new j) = slice old i (runEnd p old i) := by
  have hLe := le_runEnd p old i
  have hSame := runEnd_of_matches p h
  refine ⟨hSame, ?_⟩
  rw [hSame, slice_of_matches (i := i) (h.shorter (Nat.le_succ _)) (by omega), Nat.add_sub_cancel' hLe]

/-- A token is found where its bytes are, with the one behind it, and nothing is passed over there. A
comment that stays open must not find a scalar value at its end. -/
theorem tokenAt_of_matches {first : UInt8} (hFirst : byteAt? old i = some first)
    (hStop : triviaEnd old i ≤ i)
    (hOpen : (tokenAt old i first).1 = .unterminatedComment →
      scalarWidth? new (j + ((tokenAt old i first).2 - i)) = none)
    (h : Matches old new i j ((tokenAt old i first).2 - i + 1)) :
    triviaEnd new j ≤ j
      ∧ tokenAt new j first = ((tokenAt old i first).1, j + ((tokenAt old i first).2 - i)) := by
  obtain ⟨hMore, hBound⟩ := tokenAt_spec hFirst
  have hPair : Matches old new i j 2 := h.shorter (by omega)
  have hLine := (startsWith_of_matches [0x2F, 0x2F] hPair).trans (startsWith_line_eq_false hStop)
  have hBlock := startsWith_of_matches [0x2F, 0x2A] hPair
  cases hIsBlock : startsWith old i [0x2F, 0x2A] with
  | true =>
      obtain rfl := Option.some.inj (hFirst.symm.trans (startsWith_pair.mp hIsBlock).1)
      rw [tokenAt_block hIsBlock] at hOpen h ⊢
      obtain ⟨hStarts, hEnd⟩ := openComment_of_matches hStop hIsBlock (hOpen rfl) h
      refine ⟨?_, by rw [tokenAt_block hStarts, hEnd]⟩
      rw [triviaEnd, hLine, hStarts, if_neg Bool.false_ne_true, if_pos rfl, hEnd]
  | false =>
      rw [hIsBlock] at hBlock
      have hTrivia : triviaEnd new j ≤ j := by
        rw [triviaEnd, hLine, hBlock, if_neg Bool.false_ne_true, if_neg Bool.false_ne_true,
          runEnd_eq, h.first (by omega), hFirst]
        simp [not_blank_of_triviaEnd hFirst hStop hIsBlock]
      refine ⟨hTrivia, ?_⟩
      unfold tokenAt at h hBound ⊢
      cases hDigit : isDigit first with
      | true =>
          simp only [hDigit, if_true] at h hBound ⊢
          obtain ⟨hSame, hSlice⟩ := slice_runEnd_of_matches isWordByte hBound h
          rw [hSlice, hSame]
      | false =>
          cases hLetter : isLetter first with
          | true =>
              simp only [hDigit, hLetter, if_true, Bool.false_eq_true, if_false] at h hBound ⊢
              obtain ⟨hSame, hSlice⟩ := slice_runEnd_of_matches isWordByte hBound h
              rw [hSlice, hSame]
          | false =>
              simp only [hIsBlock, hBlock, Bool.false_eq_true, if_false]
              have hFind : operatorSpellings.find? (fun entry => startsWith new j entry.1)
                  = operatorSpellings.find? fun entry => startsWith old i entry.1 := by
                refine List.find?_congr fun entry hMem => ?_
                exact startsWith_of_matches _ (hPair.shorter (operatorSpellings_short entry hMem).1)
              rw [hFind]
              cases operatorSpellings.find? fun entry => startsWith old i entry.1 with
              | none => rw [Nat.add_sub_cancel_left]
              | some entry => rw [Nat.add_sub_cancel_left]

theorem isDigit_lt {b : UInt8} (hDigit : isDigit b = true) : b < 0x80 := by
  simp only [isDigit, Bool.and_eq_true, decide_eq_true_eq] at hDigit
  exact UInt8.lt_of_le_of_lt hDigit.2 (by decide)

theorem isLetter_lt {b : UInt8} (hLetter : isLetter b = true) : b < 0x80 := by
  simp only [isLetter, Bool.or_eq_true, Bool.and_eq_true, decide_eq_true_eq] at hLetter
  rcases hLetter with (⟨-, hLast⟩ | ⟨-, hLast⟩) | rfl
  · exact UInt8.lt_of_le_of_lt hLast (by decide)
  · exact UInt8.lt_of_le_of_lt hLast (by decide)
  · decide

/-- A valid token begins with a character of ASCII. -/
theorem ascii_of_valid {text : ByteArray} {first : UInt8} (hFirst : byteAt? text i = some first)
    (hValid : (tokenAt text i first).1.isInvalid = false) : first < 0x80 := by
  unfold tokenAt at hValid
  cases hDigit : isDigit first with
  | true => exact isDigit_lt hDigit
  | false =>
      cases hLetter : isLetter first with
      | true => exact isLetter_lt hLetter
      | false =>
          simp only [hDigit, hLetter, Bool.false_eq_true, if_false] at hValid
          split at hValid
          · simp [Terminal.isInvalid] at hValid
          · split at hValid
            · rename_i bytes t hFound
              obtain ⟨-, b, rest, hBytes, hLow⟩ :=
                operatorSpellings_short _ (List.mem_of_find?_eq_some hFound)
              have hStarts := List.find?_some hFound
              rw [hBytes, startsWith, Bool.and_eq_true, beq_iff_eq, hFirst] at hStarts
              exact Option.some.inj hStarts.1 ▸ hLow
            · simp [Terminal.isInvalid] at hValid

/-- The parts of a token that the scanner finds. -/
theorem nextToken_eq_some {text : ByteArray} {offset : Nat} {token : Token}
    (hNext : nextToken text offset = some token) :
    ∃ first, byteAt? text (skipTrivia text offset) = some first
      ∧ token = {
          kind := (tokenAt text (skipTrivia text offset) first).1.kind
          padding := skipTrivia text offset - offset
          size := (tokenAt text (skipTrivia text offset) first).2 - skipTrivia text offset
          lookahead := if (tokenAt text (skipTrivia text offset) first).2 < text.size then 1 else 0 } := by
  obtain ⟨first, hFirst, hToken⟩ := Option.map_eq_some_iff.mp hNext
  exact ⟨first, hFirst, hToken.symm⟩

/-- The scanner only finds tokens that a parse can use. -/
theorem usable_nextToken {text : ByteArray} {offset : Nat} {token : Token}
    (hNext : nextToken text offset = some token) :
    0 < token.size ∧ offset + token.width ≤ text.size := by
  obtain ⟨first, hFirst, rfl⟩ := nextToken_eq_some hNext
  obtain ⟨hMore, hBound⟩ := tokenAt_spec hFirst
  have hLe := le_skipTrivia text offset
  simp only [Token.width]
  omega

/-- No token of the scanner runs past the text, so all of them end at an offset. -/
theorem inRange_lexer : lexer.InRange :=
  fun _ _ _ hNext => Offset.lt_range (usable_nextToken hNext).2

/-- A token is found where its bytes are, with the one behind it, unless a comment that ends where no
scalar value is goes on there. -/
theorem nextToken_of_matches {token : Token} (hNext : nextToken old i = some token)
    (h : Matches old new i j (token.width + 1))
    (hLine : LineLast old i (i + token.padding) → scalarWidth? old (i + token.padding) = none →
      scalarWidth? new (j + token.padding) = none)
    (hOpen : token.kind = Terminal.unterminatedComment.kind →
      scalarWidth? new (j + token.width) = none) :
    nextToken new j = some token := by
  obtain ⟨first, hFirst, rfl⟩ := nextToken_eq_some hNext
  obtain ⟨hMore, hInside⟩ := tokenAt_spec hFirst
  have hLe := le_skipTrivia old i
  have hStop : triviaEnd old (skipTrivia old i) ≤ skipTrivia old i :=
    triviaEnd_skipTrivia old i (by omega)
  generalize hStart : skipTrivia old i = start at *
  generalize hToken : tokenAt old start first = found at *
  obtain ⟨terminal, stop⟩ := found
  simp only [Token.width, Nat.add_sub_cancel' hLe] at *
  have hWidth : j + (start - i) + (stop - start) = j + (start - i + (stop - start)) := Nat.add_assoc ..
  obtain ⟨hTrivia, hFound⟩ := tokenAt_of_matches (j := j + (start - i)) hFirst hStop
    (by
      rw [hToken, hWidth]
      rintro rfl
      exact hOpen rfl)
    (by
      rw [hToken]
      exact (h.behind hLe).shorter (by dsimp only; omega))
  have hSkip : skipTrivia new j = j + (start - i) := by
    subst hStart
    exact skipTrivia_of_matches hLine hTrivia (h.shorter (by omega))
  have hByte : byteAt? new (j + (start - i)) = some first := by
    rw [h (start - i) (by omega), Nat.add_sub_cancel' hLe, hFirst]
  have hBehind : j + (start - i + (stop - start)) < new.size ↔ stop < old.size := by
    have hLast := h (start - i + (stop - start)) (Nat.lt_succ_self _)
    have hHere : i + (start - i + (stop - start)) = stop := by omega
    rw [hHere] at hLast
    rw [← Nat.not_le, ← Nat.not_le, ← byteAt?_eq_none_iff, ← byteAt?_eq_none_iff, hLast]
  rw [hToken, hWidth] at hFound
  rw [nextToken, hSkip, hByte]
  simp only [Option.map_some, hFound, hBehind, Nat.add_sub_cancel_left]
  congr 2
  omega

/-- Where the bytes of a token are, with what was read behind it, the byte behind it is the same too. If
nothing was read, both texts end there. -/
theorem matches_of_reported {token : Token} (hNext : nextToken old i = some token)
    (h : Matches old new i j (token.width + token.lookahead))
    (hEnd : token.lookahead = 0 → i + token.width = old.size → j + token.width = new.size) :
    Matches old new i j (token.width + 1) := by
  obtain ⟨first, hFirst, rfl⟩ := nextToken_eq_some hNext
  obtain ⟨hMore, hInside⟩ := tokenAt_spec hFirst
  have hLe := le_skipTrivia old i
  simp only [Token.width] at *
  intro k hLess
  by_cases hIn : (tokenAt old (skipTrivia old i) first).2 < old.size
  · rw [if_pos hIn] at h
    exact h k hLess
  · rw [if_neg hIn] at h hEnd
    by_cases hLast : k < skipTrivia old i - i
        + ((tokenAt old (skipTrivia old i) first).2 - skipTrivia old i)
    · exact h k hLast
    · rw [byteAt?_eq_none_iff.mpr (by omega), byteAt?_eq_none_iff.mpr (by omega)]

/-- A valid token depends on its own bytes and the one behind it. -/
theorem local_lexer {invalid : SymbolId → Bool}
    (hInvalid : ∀ t : Terminal, t.isInvalid = true → invalid t.kind = true) :
    lexer.Local invalid := by
  intro old new a b token hNext hValid _ _ hSame hEnd
  replace hNext : nextToken old a = some token := hNext
  have hMatches : Matches old new a b (token.width + 1) := matches_of_reported hNext hSame hEnd
  refine nextToken_of_matches hNext hMatches ?_ ?_
  · obtain ⟨first, hFirst, rfl⟩ := nextToken_eq_some hNext
    have hLe := le_skipTrivia old a
    simp only [Nat.add_sub_cancel' hLe]
    intro _ hNone
    refine absurd (byte_of_scalarWidth?_eq_none hNone first hFirst) (UInt8.not_le.mpr ?_)
    refine ascii_of_valid hFirst (Bool.eq_false_iff.mpr fun hIs => ?_)
    simp [hInvalid _ hIs] at hValid
  · intro hKind
    rw [hKind, hInvalid _ rfl] at hValid
    simp at hValid

end

/-! The terminals that the scanner finds. None of them is reserved. -/

/-- A word is the keyword it spells, or else an identifier. -/
theorem wordKind_cases (word : List UInt8) :
    (∃ t ∈ keywords, spelling t = word ∧ wordKind word = t)
      ∨ wordKind word = .identifier ∧ ∀ t ∈ keywords, spelling t ≠ word := by
  unfold wordKind
  cases hFound : keywordSpellings.lookup word with
  | none =>
      refine .inr ⟨rfl, fun t hMem hSame => ?_⟩
      have hEntry : (word, t) ∈ keywordSpellings := List.mem_map.mpr ⟨t, hMem, by rw [hSame]⟩
      simpa using List.lookup_eq_none_iff.mp hFound _ hEntry
  | some t =>
      obtain ⟨front, back, hSplit, -⟩ := List.lookup_eq_some_iff.mp hFound
      obtain ⟨other, hMem, hEntry⟩ : ∃ other ∈ keywords, (spelling other, other) = (word, t) :=
        List.mem_map.mp (show (word, t) ∈ keywordSpellings by simp [hSplit])
      obtain ⟨rfl, rfl⟩ := Prod.mk.inj hEntry
      exact .inl ⟨_, hMem, rfl, rfl⟩

theorem numberKind_mem (digits : List UInt8) :
    numberKind digits ∈ [.decimalLiteral, .octalLiteral, .hexLiteral, .malformedNumber] := by
  unfold numberKind
  repeat' split
  all_goals decide

/-- The terminals of tokens, but for the one of open comments. -/
def closedTerminals : List Terminal :=
  keywords ++ operators ++ [.identifier, .unexpectedCharacter]
    ++ [.decimalLiteral, .octalLiteral, .hexLiteral, .malformedNumber]

/-- A token is of a kind that ends by itself, or it is a comment that never does. -/
theorem tokenAt_cases (text : ByteArray) (i : Nat) (first : UInt8) :
    (tokenAt text i first).1 ∈ closedTerminals
      ∨ (tokenAt text i first).1 = .unterminatedComment ∧ startsWith text i [0x2F, 0x2A] = true := by
  unfold tokenAt
  split
  · exact .inl (List.mem_append_right _ (numberKind_mem _))
  · split
    · rcases wordKind_cases (slice text i (runEnd isWordByte text i)) with ⟨t, hMem, -, hKind⟩ | ⟨hKind, -⟩
      · dsimp only
        rw [hKind]
        exact .inl (List.mem_append_left _ (List.mem_append_left _ (List.mem_append_left _ hMem)))
      · exact .inl (by simp [closedTerminals, hKind])
    · split
      · exact .inr ⟨rfl, ‹_›⟩
      · split
        · rename_i hFound
          obtain ⟨t, hMem, hEntry⟩ := List.mem_map.mp (List.mem_of_find?_eq_some hFound)
          obtain ⟨-, rfl⟩ := Prod.mk.inj hEntry
          exact .inl (List.mem_append_left _ (List.mem_append_left _ (List.mem_append_right _ hMem)))
        · exact .inl (by simp [closedTerminals])

theorem one_lt_tokenAt (text : ByteArray) (i : Nat) (first : UInt8) :
    1 < (tokenAt text i first).1.kind := by
  have hClosed : ∀ t ∈ closedTerminals, 1 < t.kind := by decide
  rcases tokenAt_cases text i first with hMem | ⟨hOpen, -⟩
  · exact hClosed _ hMem
  · rw [hOpen]
    decide

/-- A token is of a terminal that is not reserved. -/
theorem exists_kind_of_nextToken {text : ByteArray} {offset : Nat} {token : Token}
    (hNext : nextToken text offset = some token) : ∃ t : Terminal, token.kind = t.kind ∧ 1 < t.kind := by
  obtain ⟨first, -, rfl⟩ := nextToken_eq_some hNext
  exact ⟨_, rfl, one_lt_tokenAt text (skipTrivia text offset) first⟩

/-- No token is the end of the input. -/
theorem ne_end_of_nextToken {text : ByteArray} {offset : Nat} {t : Token}
    (hNext : nextToken text offset = some t) :
    t.kind ≠ endSymbol := by
  obtain ⟨terminal, hKind, hReal⟩ := exists_kind_of_nextToken hNext
  rw [hKind]
  exact Nat.ne_of_gt (Nat.lt_trans Nat.one_pos hReal)

end SysY
end IncrementalParsing
