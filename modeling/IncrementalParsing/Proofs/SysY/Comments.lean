import IncrementalParsing.Proofs.SysY.Scanning
import IncrementalParsing.Proofs.Text.Scalar

/-! Comments in damaged text. A comment goes on as long as its bytes are scalar values, so where it ends
may depend on the second and third byte behind its end. Every other token is found again by its own
bytes and the one behind it. -/
namespace IncrementalParsing
namespace Text

/-- The byte at a place begins a scalar value of several bytes. -/
def leads (text : ByteArray) (i : Nat) : Bool := byteIn text i 0xC2 0xF4

/-- The two bytes at a place begin a scalar value of more bytes than these. -/
def leadsPair (text : ByteArray) (i : Nat) : Bool :=
  byteIn text i 0xE0 0xF4 && (byteAt? text i).elim false fun lead =>
    byteIn text (i + 1) (secondByte lead).1 (secondByte lead).2

section
variable {old new : ByteArray} {i j : Nat}

theorem leadsPair_eq_true_iff {text : ByteArray} : leadsPair text i = true ↔
    ∃ lead, byteAt? text i = some lead ∧ (0xE0 ≤ lead ∧ lead ≤ 0xF4)
      ∧ byteIn text (i + 1) (secondByte lead).1 (secondByte lead).2 = true := by
  rw [leadsPair, Bool.and_eq_true, byteIn_eq_true_iff]
  cases byteAt? text i <;> simp

/-- Where no scalar value is and the byte leads to none, there is none with other bytes behind it. -/
theorem scalarWidth?_eq_none_of_first (hNone : scalarWidth? old i = none) (hLeads : leads old i = false)
    (hFirst : byteAt? new j = byteAt? old i) : scalarWidth? new j = none := by
  cases hLead : byteAt? old i with
  | none => rw [scalarWidth?, hFirst, hLead]
  | some lead =>
      have hHigh := byte_of_scalarWidth?_eq_none hNone lead hLead
      simp only [leads, byteIn, hLead, Bool.and_eq_false_iff, decide_eq_false_iff_not,
        UInt8.not_le] at hLeads
      rw [scalarWidth?, hFirst, hLead]
      dsimp only
      rw [if_neg (UInt8.not_lt.mpr hHigh)]
      rcases hLeads with hLow | hBeyond
      · rw [if_pos hLow]
      · have hNot : ∀ bound ≤ (0xF5 : UInt8), ¬ lead < bound := fun bound hBound hLess =>
          absurd (UInt8.lt_of_lt_of_le hLess hBound) (UInt8.not_lt.mpr hBeyond)
        rw [if_neg (hNot _ (by decide)), if_neg (hNot _ (by decide)), if_neg (hNot _ (by decide)),
          if_neg (hNot _ (by decide))]

/-- Where no scalar value is and two bytes lead to none, there is none with other bytes behind them. -/
theorem scalarWidth?_eq_none_of_pair (hNone : scalarWidth? old i = none)
    (hLeads : leadsPair old i = false) (h : Matches old new i j 2) : scalarWidth? new j = none := by
  cases hLead : byteAt? old i with
  | none => rw [scalarWidth?, h.first Nat.two_pos, hLead]
  | some lead =>
      rw [scalarWidth?, hLead] at hNone
      rw [scalarWidth?, h.first Nat.two_pos, hLead]
      dsimp only at hNone ⊢
      rw [continues_of_matches h Nat.one_lt_two, byteIn_of_matches h Nat.one_lt_two]
      by_cases hOne : lead < 0x80
      · simp [hOne] at hNone
      rw [if_neg hOne] at hNone ⊢
      by_cases hStray : lead < 0xC2
      · rw [if_pos hStray]
      rw [if_neg hStray] at hNone ⊢
      by_cases hTwo : lead < 0xE0
      · rwa [if_pos hTwo] at hNone ⊢
      rw [if_neg hTwo] at hNone ⊢
      by_cases hBeyond : lead < 0xF5
      · have hSecond : byteIn old (i + 1) (secondByte lead).1 (secondByte lead).2 = false := by
          refine Bool.eq_false_iff.mpr fun hIn => ?_
          have hLast : lead ≤ 0xF4 :=
            UInt8.le_iff_toNat_le.mpr (Nat.le_of_lt_succ (UInt8.lt_iff_toNat_lt.mp hBeyond))
          rw [leadsPair_eq_true_iff.mpr ⟨lead, hLead, ⟨UInt8.not_lt.mp hTwo, hLast⟩, hIn⟩] at hLeads
          simp at hLeads
        simp [hSecond]
      · rw [if_neg hBeyond, if_neg fun hLess => hBeyond (UInt8.lt_trans hLess (by decide))]

theorem secondByte_le (lead : UInt8) : (secondByte lead).1 ≤ (secondByte lead).2 := by
  unfold secondByte
  repeat' split
  all_goals decide

/-- Two bytes that lead to a scalar value do so with more bytes behind them. -/
theorem exists_scalarWidth?_of_pair {text : ByteArray} (hLeads : leadsPair text i = true)
    (hThird : byteAt? text (i + 2) = some 0x80) (hFourth : byteAt? text (i + 3) = some 0x80) :
    ∃ width, scalarWidth? text i = some width := by
  obtain ⟨lead, hLead, ⟨hLow, hHigh⟩, hSecond⟩ := leadsPair_eq_true_iff.mp hLeads
  have hLast : continues text (i + 2) = true ∧ continues text (i + 3) = true := by
    constructor <;> exact byteIn_eq_true_iff.mpr ⟨0x80, ‹_›, by decide, by decide⟩
  have hNot : ∀ bound ≤ (0xE0 : UInt8), ¬ lead < bound := fun bound hBound hLess =>
    absurd (UInt8.lt_of_lt_of_le hLess hBound) (UInt8.not_lt.mpr hLow)
  have hInside : lead < 0xF5 := UInt8.lt_of_le_of_lt hHigh (by decide)
  rw [scalarWidth?, hLead]
  dsimp only
  rw [if_neg (hNot _ (by decide)), if_neg (hNot _ (by decide)), if_neg (hNot _ (by decide)), hSecond,
    hLast.1, hLast.2, if_pos hInside]
  split
  · exact ⟨3, rfl⟩
  · exact ⟨4, rfl⟩

/-- A byte that leads to a scalar value does so with the least bytes behind it that it allows. -/
theorem exists_scalarWidth?_of_leads {text : ByteArray} {lead : UInt8}
    (hLead : byteAt? text i = some lead) (hLeads : leads text i = true)
    (hSecond : byteAt? text (i + 1) = some (secondByte lead).1)
    (hThird : byteAt? text (i + 2) = some 0x80) (hFourth : byteAt? text (i + 3) = some 0x80) :
    ∃ width, scalarWidth? text i = some width := by
  obtain ⟨other, hOther, hLow, hHigh⟩ := byteIn_eq_true_iff.mp hLeads
  obtain rfl := Option.some.inj (hLead.symm.trans hOther)
  have hIn := byteIn_eq_true_iff.mpr ⟨_, hSecond, UInt8.le_refl _, secondByte_le lead⟩
  by_cases hTwo : lead < 0xE0
  · have hNot : ∀ bound ≥ (0xE0 : UInt8), lead ≠ bound := fun bound hBound hEq =>
      absurd (hEq ▸ hTwo) (UInt8.not_lt.mpr hBound)
    have hBounds : secondByte lead = (0x80, 0xBF) := by
      rw [secondByte, if_neg (hNot _ (by decide)), if_neg (hNot _ (by decide)),
        if_neg (hNot _ (by decide)), if_neg (hNot _ (by decide))]
    have hContinues : continues text (i + 1) = true := by rwa [hBounds] at hIn
    refine ⟨2, ?_⟩
    rw [scalarWidth?, hLead]
    dsimp only
    rw [if_neg (UInt8.not_lt.mpr (UInt8.le_trans (by decide) hLow)), if_neg (UInt8.not_lt.mpr hLow),
      if_pos hTwo, if_pos hContinues]
  · exact exists_scalarWidth?_of_pair
      (leadsPair_eq_true_iff.mpr ⟨lead, hLead, ⟨UInt8.not_lt.mp hTwo, hHigh⟩, hIn⟩) hThird hFourth

end
end Text

namespace SysY
open Text

/-- A comment of a token ends where the bytes behind it may have begun a scalar value, as far as they
were read: it is the token itself, or a line comment in front of it. -/
def Cut (text : ByteArray) (offset : Nat) (token : Token) : Prop :=
  (token.kind = Terminal.unterminatedComment.kind ∧ leads text (offset + token.width) = true)
    ∨ LineLast text offset (offset + token.padding) ∧ leadsPair text (offset + token.padding) = true

section
variable {old new : ByteArray} {i j : Nat}

/-- A token that is an open comment begins as one. -/
theorem startsWith_of_unterminatedComment {text : ByteArray} {first : UInt8}
    (hKind : (tokenAt text i first).1 = .unterminatedComment) :
    startsWith text i [0x2F, 0x2A] = true := by
  refine (tokenAt_cases text i first).elim (fun hMem => ?_) And.right
  rw [hKind] at hMem
  exact absurd hMem (by decide)

theorem kind_injective {a b : Terminal} (hKind : a.kind = b.kind) : a = b :=
  Option.some.inj ((Terminal.ofKind?_kind a).symm.trans (hKind ▸ Terminal.ofKind?_kind b))

/-- An open comment, from its start to its end. -/
theorem unterminatedComment_spec {token : Token} (hNext : nextToken old i = some token)
    (hKind : token.kind = Terminal.unterminatedComment.kind) :
    startsWith old (i + token.padding) [0x2F, 0x2A] = true
      ∧ blockCommentEnd old (i + token.padding + 2) = (false, i + token.width) := by
  obtain ⟨first, hFirst, rfl⟩ := nextToken_eq_some hNext
  obtain ⟨hMore, hInside⟩ := tokenAt_spec hFirst
  have hLe := le_skipTrivia old i
  have hBlock := startsWith_of_unterminatedComment (kind_injective hKind)
  obtain rfl := Option.some.inj (hFirst.symm.trans (startsWith_pair.mp hBlock).1)
  have hOpen := open_blockCommentEnd (triviaEnd_skipTrivia old i (by omega)) hBlock
  simp only [Token.width, Nat.add_sub_cancel' hLe, tokenAt_block hBlock] at hMore ⊢
  exact ⟨hBlock, Prod.ext hOpen (by dsimp only; omega)⟩

/-- What is not cut is found again. -/
theorem nextToken_of_not_cut {token : Token} (hNext : nextToken old i = some token)
    (hCut : ¬ Cut old i token) (h : Matches old new i j (token.width + 1)) :
    nextToken new j = some token := by
  have hWide := (usable_nextToken hNext).1
  refine nextToken_of_matches hNext h (fun hLine hNone => ?_) (fun hKind => ?_)
  · have hBehind := h.behind (Nat.le_add_right i token.padding)
    rw [Nat.add_sub_cancel_left] at hBehind
    refine scalarWidth?_eq_none_of_pair hNone (Bool.eq_false_iff.mpr fun hLeads => ?_)
      (hBehind.shorter (by simp only [Token.width]; omega))
    exact hCut (.inr ⟨hLine, hLeads⟩)
  · obtain ⟨-, hEnd⟩ := unterminatedComment_spec hNext hKind
    have hNone := scalar_of_blockCommentEnd (congrArg Prod.fst hEnd)
    rw [hEnd] at hNone
    exact scalarWidth?_eq_none_of_first hNone
      (Bool.eq_false_iff.mpr fun hLeads => hCut (.inl ⟨hKind, hLeads⟩)) (h _ (Nat.lt_succ_self _))

theorem ascii_of_lineLast {text : ByteArray} {stop : Nat} (h : LineLast text i stop) :
    ∃ b, byteAt? text i = some b ∧ b < 0x80 := by
  cases h with
  | last hLine => exact ⟨_, (startsWith_pair.mp hLine).1, by decide⟩
  | skip hMore _ => exact triviaEnd_spec hMore

theorem le_of_lineLast {text : ByteArray} {stop : Nat} (h : LineLast text i stop) : i ≤ stop := by
  induction h with
  | @last i _ =>
      have hLe := le_lineCommentEnd text (i + 2)
      omega
  | skip hMore _ ih => exact Nat.le_trans (Nat.le_of_lt hMore) ih

/-- A line comment goes on where its bytes are, if a scalar value is at its end. -/
theorem lt_skipTrivia_of_lineLast {stop width : Nat} (hLast : LineLast old i stop)
    (hScalar : scalarWidth? new (j + (stop - i)) = some width)
    (hHigh : byteAt? new (j + (stop - i)) ≠ some 0x0A)
    (h : Matches old new i j (stop - i + 1)) : j + (stop - i) < skipTrivia new j := by
  induction hLast generalizing j with
  | @last i hLine =>
      have hLe := le_lineCommentEnd old (i + 2)
      have hLines := startsWith_of_matches [0x2F, 0x2F] (h.shorter (by simp; omega))
      have hWide := scalarWidth?_pos hScalar
      have hFurther := le_lineCommentEnd new (j + (lineCommentEnd old (i + 2) - i) + width)
      have hEnd : triviaEnd new j = lineCommentEnd new (j + (lineCommentEnd old (i + 2) - i)) := by
        rw [triviaEnd, hLines, if_pos hLine, lineCommentEnd_of_matches (j := j + 2)
          (by simpa using (h.behind (Nat.le_add_right i 2)).shorter (by omega))]
        congr 1
        omega
      have hOn : lineCommentEnd new (j + (lineCommentEnd old (i + 2) - i))
          = lineCommentEnd new (j + (lineCommentEnd old (i + 2) - i) + width) := by
        rw [lineCommentEnd, if_neg hHigh]
        split
        · rename_i other hOther
          obtain rfl := Option.some.inj (hScalar.symm.trans hOther)
          rfl
        · rename_i hNone
          simp [hScalar] at hNone
      have hLeast := le_skipTrivia new (triviaEnd new j)
      rw [skipTrivia, if_pos ⟨by omega, by omega⟩]
      omega
  | @skip i stop hMore hRest ih =>
      have hAscii := ascii_of_lineLast hRest
      have hLe := le_of_lineLast hRest
      have hHere : triviaEnd new j = j + (triviaEnd old i - i) := by
        refine triviaEnd_of_matches hMore (fun hLine => .inl ?_) (h.shorter (by omega))
        rw [triviaEnd, if_pos hLine] at hAscii ⊢
        refine (scalar_of_lineCommentEnd old (i + 2)).resolve_right fun hNone => ?_
        obtain ⟨b, hByte, hLow⟩ := hAscii
        exact absurd hLow (UInt8.not_lt.mpr (byte_of_scalarWidth?_eq_none hNone b hByte))
      have hPlace : j + (stop - i) = triviaEnd new j + (stop - triviaEnd old i) := by omega
      have hWide := scalarWidth?_pos hScalar
      rw [hPlace] at hScalar hHigh ⊢
      rw [skipTrivia, if_pos ⟨by omega, by omega⟩]
      refine ih hScalar hHigh ?_
      have hBehind := h.behind (Nat.le_of_lt hMore)
      rw [← hHere] at hBehind
      exact hBehind.shorter (by omega)

/-- Bytes of a text with others behind them. -/
theorem exists_extension {count : Nat} (hBound : i + count ≤ old.size) (tail : List UInt8) :
    ∃ new, Matches old new i 0 count ∧ ∀ k, byteAt? new (count + k) = tail[k]? := by
  have hSize : (old.extract i (i + count)).size = count := by
    rw [ByteArray.size_extract]
    omega
  refine ⟨old.extract i (i + count) ++ ⟨tail.toArray⟩, fun k hLess => ?_, fun k => ?_⟩
  · rw [Nat.zero_add, byteAt?_append, hSize, if_pos hLess, byteAt?_extract, if_pos (by omega)]
  · rw [byteAt?_append, hSize, if_neg (by omega), Nat.add_sub_cancel_left, byteAt?_eq]
    simp

/-- What is no character of ASCII begins no token of more than one byte. -/
theorem tokenAt_of_high {text : ByteArray} {first : UInt8} (hFirst : byteAt? text i = some first)
    (hHigh : 0x80 ≤ first) : tokenAt text i first = (.unexpectedCharacter, i + 1) := by
  have hNot : ¬ first < 0x80 := UInt8.not_lt.mpr hHigh
  have hDigit : isDigit first = false := Bool.eq_false_iff.mpr fun hIs => hNot (isDigit_lt hIs)
  have hLetter : isLetter first = false := Bool.eq_false_iff.mpr fun hIs => hNot (isLetter_lt hIs)
  have hStarts : ∀ b bytes, b < 0x80 → startsWith text i (b :: bytes) = false := by
    intro b bytes hLow
    rw [startsWith, hFirst, Bool.and_eq_false_iff]
    refine .inl (beq_eq_false_iff_ne.mpr fun hSame => hNot ?_)
    rwa [Option.some.inj hSame]
  have hFind : operatorSpellings.find? (fun entry => startsWith text i entry.1) = none := by
    refine List.find?_eq_none.mpr fun entry hMem => ?_
    obtain ⟨-, b, bytes, hBytes, hLow⟩ := operatorSpellings_short entry hMem
    rw [hBytes, hStarts b bytes hLow]
    exact Bool.false_ne_true
  simp only [tokenAt, hDigit, hLetter, hStarts _ _ (by decide : (0x2F : UInt8) < 0x80), hFind,
    Bool.false_eq_true, if_false]

/-- An open comment at whose end a scalar value may begin goes on if one does. -/
theorem exists_other_of_open {token : Token} (hNext : nextToken old i = some token)
    (hKind : token.kind = Terminal.unterminatedComment.kind)
    (hLeads : leads old (i + token.width) = true) :
    ∃ new, Matches old new i 0 (token.width + 1) ∧ i + token.width < old.size
      ∧ ∀ found, nextToken new 0 = some found → found.kind = token.kind →
        found.padding = token.padding → found.size ≠ token.size := by
  obtain ⟨hBlock, hEnd⟩ := unterminatedComment_spec hNext hKind
  have hInside := inside_of_byteIn hLeads
  obtain ⟨lead, hLead, hLow, hHigh⟩ := byteIn_eq_true_iff.mp hLeads
  obtain ⟨new, hMatches, hTail⟩ :=
    @exists_extension old i (token.width + 1) hInside [(secondByte lead).1, 0x80, 0x80]
  refine ⟨new, hMatches, hInside, fun found hFound hSameKind hPadding hSize => ?_⟩
  obtain ⟨hOther, hOtherEnd⟩ := unterminatedComment_spec hFound (hSameKind.trans hKind)
  have hWidth : found.width = token.width := by rw [Token.width, Token.width, hPadding, hSize]
  have hNewLead : byteAt? new token.width = some lead := by
    have hByte := hMatches token.width (Nat.lt_succ_self _)
    rwa [Nat.zero_add, hLead] at hByte
  have hNewLeads : leads new token.width = true :=
    byteIn_eq_true_iff.mpr ⟨lead, hNewLead, hLow, hHigh⟩
  obtain ⟨width, hScalar⟩ :=
    exists_scalarWidth?_of_leads hNewLead hNewLeads (hTail 0) (hTail 1) (hTail 2)
  have hNone := scalar_of_blockCommentEnd (congrArg Prod.fst hOtherEnd)
  rw [hOtherEnd, hWidth, Nat.zero_add, hScalar] at hNone
  simp at hNone

/-- A line comment in front of a token goes on over the token if a scalar value begins there. -/
theorem exists_other_of_line {token : Token} (hNext : nextToken old i = some token)
    (hLine : LineLast old i (i + token.padding)) (hLeads : leadsPair old (i + token.padding) = true) :
    ∃ new, Matches old new i 0 (token.width + 1) ∧ i + token.width < old.size
      ∧ ∀ found, nextToken new 0 = some found → found.kind = token.kind →
        found.padding = token.padding → found.size ≠ token.size := by
  obtain ⟨lead, hLead, ⟨hLow, hHigh⟩, hSecond⟩ := leadsPair_eq_true_iff.mp hLeads
  have hPair := inside_of_byteIn hSecond
  have hWidth : token.width = token.padding + 1 := by
    obtain ⟨first, hFirst, rfl⟩ := nextToken_eq_some hNext
    have hLe := le_skipTrivia old i
    simp only [Token.width, Nat.add_sub_cancel' hLe] at hLead ⊢
    obtain rfl := Option.some.inj (hFirst.symm.trans hLead)
    rw [tokenAt_of_high hFirst (UInt8.le_trans (by decide) hLow)]
    dsimp only
    omega
  obtain ⟨new, hMatches, hTail⟩ :=
    @exists_extension old i (token.width + 1) (by omega) [0x80, 0x80]
  refine ⟨new, hMatches, by omega, fun found hFound hSameKind hPadding _ => ?_⟩
  obtain ⟨first, hFirst, rfl⟩ := nextToken_eq_some hFound
  have hPlace : skipTrivia new 0 = token.padding := hPadding
  have hBytes : ∀ k, k < 2 →
      byteAt? new (token.padding + k) = byteAt? old (i + token.padding + k) := by
    intro k hLess
    rw [Nat.add_assoc, ← hMatches (token.padding + k) (by omega), Nat.zero_add]
  have hNewLead : byteAt? new token.padding = some lead := (hBytes 0 Nat.two_pos).trans hLead
  have hNewLeads : leadsPair new token.padding = true := by
    refine leadsPair_eq_true_iff.mpr ⟨lead, hNewLead, ⟨hLow, hHigh⟩, ?_⟩
    rwa [byteIn, hBytes 1 Nat.one_lt_two]
  rw [hWidth] at hTail
  obtain ⟨width, hScalar⟩ := exists_scalarWidth?_of_pair hNewLeads (hTail 0) (hTail 1)
  have hFurther := lt_skipTrivia_of_lineLast (j := 0) hLine
    (show scalarWidth? new _ = some width by rwa [Nat.zero_add, Nat.add_sub_cancel_left])
    (by
      rw [Nat.zero_add, Nat.add_sub_cancel_left, hNewLead]
      rintro hFeed
      exact absurd (Option.some.inj hFeed ▸ hLow) (by decide))
    (hMatches.shorter (by omega))
  omega

/-- Behind the bytes that were read for a token that is cut, other bytes make it another one. -/
theorem exists_other_of_cut {token : Token} (hNext : nextToken old i = some token)
    (hCut : Cut old i token) :
    ∃ new, Matches old new i 0 (token.width + 1) ∧ i + token.width < old.size
      ∧ ∀ found, nextToken new 0 = some found → found.kind = token.kind →
        found.padding = token.padding → found.size ≠ token.size := by
  rcases hCut with ⟨hKind, hLeads⟩ | ⟨hLine, hLeads⟩
  · exact exists_other_of_open hNext hKind hLeads
  · exact exists_other_of_line hNext hLine hLeads

theorem lookahead_nextToken {token : Token} (hNext : nextToken old i = some token) :
    token.lookahead = if i + token.width < old.size then 1 else 0 := by
  obtain ⟨first, hFirst, rfl⟩ := nextToken_eq_some hNext
  obtain ⟨hMore, -⟩ := tokenAt_spec hFirst
  have hLe := le_skipTrivia old i
  simp only [Token.width]
  congr 2
  omega

/-- A token is found again, wherever the bytes are that were read for it, unless it is cut. One that is
cut is another one with some bytes behind those that were read. -/
theorem found_again_iff {text : ByteArray} {offset : Nat} {token : Token}
    (hNext : nextToken text offset = some token) :
    (∀ (other : ByteArray) (place : Nat),
      Matches text other offset place (token.width + token.lookahead) →
      (token.lookahead = 1 ∨ offset + token.width = text.size ∧ place + token.width = other.size) →
      ∃ found, nextToken other place = some found ∧ found.kind = token.kind
        ∧ found.padding = token.padding ∧ found.size = token.size)
      ↔ ¬ Cut text offset token := by
  constructor
  · intro hAll hCut
    obtain ⟨other, hMatches, hInside, hOther⟩ := exists_other_of_cut hNext hCut
    have hOne : token.lookahead = 1 := by rw [lookahead_nextToken hNext, if_pos hInside]
    obtain ⟨found, hFound, hKind, hPadding, hSize⟩ := hAll other 0 (hOne ▸ hMatches) (.inl hOne)
    exact hOther found hFound hKind hPadding hSize
  · intro hCut other place hMatches hEnd
    refine ⟨token, nextToken_of_not_cut hNext hCut ?_, rfl, rfl, rfl⟩
    refine matches_of_reported hNext hMatches fun hZero _ => ?_
    rcases hEnd with hOne | ⟨-, hLast⟩
    · omega
    · exact hLast

end

/-- A name behind a line comment with a scalar value of two bytes. -/
theorem found_again_of_name : ∃ token found : Token, nextToken "//é\nx;".toUTF8 0 = some token
    ∧ ¬ Cut "//é\nx;".toUTF8 0 token ∧ nextToken ";;//é\nx;".toUTF8 2 = some found
    ∧ found.kind = token.kind ∧ found.padding = token.padding ∧ found.size = token.size := by
  have hNext : nextToken "//é\nx;".toUTF8 0 = some ⟨Terminal.identifier.kind, 5, 1, 1⟩ := by
    decide +kernel
  have hCut : ¬ Cut "//é\nx;".toUTF8 0 ⟨Terminal.identifier.kind, 5, 1, 1⟩ := by
    have hPair : leadsPair "//é\nx;".toUTF8 5 = false := by decide +kernel
    rintro (⟨hKind, -⟩ | ⟨-, hLeads⟩)
    · exact absurd hKind (by decide)
    · rw [Nat.zero_add, hPair] at hLeads
      simp at hLeads
  have hMatches : ∀ k < 7, byteAt? ";;//é\nx;".toUTF8 (2 + k) = byteAt? "//é\nx;".toUTF8 (0 + k) := by
    decide +kernel
  obtain ⟨found, hFound, hSame⟩ := (found_again_iff hNext).mpr hCut _ 2 hMatches (.inl rfl)
  exact ⟨_, found, hNext, hCut, hFound, hSame⟩

/-- Two comments. The first one ends in front of a byte that begins no scalar value, the second one
goes on with the same byte. -/
def brokenComment : ByteArray := ⟨#[0x2F, 0x2A, 0xC3, 0x78, 0x2F, 0x2A, 0xC3, 0xA9]⟩

/-- The bytes that were read for the first comment are there for the second one too, which is longer. -/
theorem not_found_again_of_comment :
    nextToken brokenComment 0 = some ⟨Terminal.unterminatedComment.kind, 0, 2, 1⟩
      ∧ Matches brokenComment brokenComment 0 4 (2 + 1)
      ∧ ¬ ∃ found, nextToken brokenComment 4 = some found
        ∧ found.kind = Terminal.unterminatedComment.kind ∧ found.padding = 0 ∧ found.size = 2 := by
  have hMatches : ∀ k < 3, byteAt? brokenComment (4 + k) = byteAt? brokenComment (0 + k) := by
    decide +kernel
  have hSecond : nextToken brokenComment 4 = some ⟨Terminal.unterminatedComment.kind, 0, 4, 0⟩ := by
    decide +kernel
  refine ⟨by decide +kernel, hMatches, ?_⟩
  rintro ⟨found, hFound, -, -, hSize⟩
  obtain rfl := Option.some.inj (hSecond.symm.trans hFound)
  simp at hSize

end SysY
end IncrementalParsing
