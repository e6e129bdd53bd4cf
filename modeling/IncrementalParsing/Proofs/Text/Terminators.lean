import IncrementalParsing.Proofs.Text.Lines

/-! Lines with what ends them. Put together again, the lines of a text and their ends are the text, if it
does not stop at a carriage return: nothing ends the last line, but a carriage return at its end is
dropped like that of any other line. -/
namespace IncrementalParsing
open Text

namespace LineMap

/-- The bytes of a row without what ends it. -/
def content (text : ByteArray) (row : Nat) : List UInt8 :=
  match (ofText text).line? row text with
  | some (first, last) => (text.extract first last).toList
  | none => []

/-- What ends a row: a carriage return and a line feed if these are its last two bytes, and else a line
feed. The last row is not ended. -/
def terminator (text : ByteArray) (row : Nat) : List UInt8 :=
  match (ofText text).starts[row]?, (ofText text).starts[row + 1]? with
  | some start, some next =>
      if start + 2 ≤ next ∧ byteAt? text (next - 2) = some carriageReturn then
        [carriageReturn, lineFeed]
      else [lineFeed]
  | _, _ => []

/-- The rows of a text in order, each with what ends it. -/
def joined (text : ByteArray) : List UInt8 :=
  (List.range (ofText text).lineCount).flatMap fun row => content text row ++ terminator text row

/-- Where the content of a line ends if a carriage return in front of its end does not count. -/
def contentStop (text : ByteArray) (start stop : Nat) : Nat :=
  if start < stop ∧ byteAt? text (stop - 1) = some carriageReturn then stop - 1 else stop

section
variable {text : ByteArray} {row start stop : Nat}

theorem line?_of_isLine (h : IsLine text row start stop) :
    (ofText text).line? row text = some (start, contentStop text start stop) := by
  rw [line?, h.indexed.1, h.indexed.2, Option.map_some, contentStop]
  by_cases hReturn : start < stop ∧ byteAt? text (stop - 1) = some carriageReturn
  · rw [if_pos hReturn, if_pos (by simpa [byteAt?] using hReturn)]
  · rw [if_neg hReturn, if_neg (by simpa [byteAt?] using hReturn)]

theorem content_of_isLine (h : IsLine text row start stop) :
    content text row = (text.extract start (contentStop text start stop)).toList := by
  rw [content, line?_of_isLine h]

theorem start_le_contentStop (h : IsLine text row start stop) :
    start ≤ contentStop text start stop ∧ contentStop text start stop ≤ stop := by
  have hOrder := h.order
  unfold contentStop
  split <;> omega

/-- There is no line feed in a line. -/
theorem lineFeed_not_mem_content (h : IsLine text row start stop) :
    lineFeed ∉ content text row := by
  intro hMem
  rw [content_of_isLine h] at hMem
  obtain ⟨i, hFirst, hLast, hFeed⟩ := mem_toList_extract hMem
  exact h.plain i hFirst (Nat.lt_of_lt_of_le hLast (start_le_contentStop h).2) hFeed

/-- A line and what ends it are all the bytes up to the next line. -/
theorem content_terminator (h : IsLine text row start stop)
    (hFeed : byteAt? text stop = some lineFeed) :
    (ofText text).starts[row + 1]? = some (stop + 1)
      ∧ content text row ++ terminator text row = (text.extract start (stop + 1)).toList := by
  have hNext : (ofText text).starts[row + 1]? = some (stop + 1) := by
    rcases lineStop_cases text row with ⟨hSize, -, -⟩ | ⟨-, hNext, -⟩
    · rw [h.indexed.2] at hSize
      exact absurd (lt_size_of_byteAt? hFeed) (by omega)
    · rwa [h.indexed.2] at hNext
  refine ⟨hNext, ?_⟩
  rw [content_of_isLine h, terminator, h.indexed.1, hNext, toList_extract_succ h.order hFeed]
  dsimp only
  by_cases hReturn : start < stop ∧ byteAt? text (stop - 1) = some carriageReturn
  · have hLast : stop - 1 + 1 = stop := by omega
    rw [contentStop, if_pos hReturn, if_pos ⟨by omega, hReturn.2⟩]
    have hWhole := toList_extract_succ (a := start) (by omega) hReturn.2
    rw [hLast] at hWhole
    rw [hWhole, List.append_assoc]
    rfl
  · rw [contentStop, if_neg hReturn, if_neg fun hBoth => hReturn ⟨by omega, hBoth.2⟩]

/-- The rows in front of a line are the bytes in front of it. -/
theorem joined_before (hStart : (ofText text).starts[row]? = some start) :
    (List.range row).flatMap (fun row => content text row ++ terminator text row)
      = (text.extract 0 start).toList := by
  induction row generalizing start with
  | zero =>
      obtain rfl := Option.some.inj ((starts_zero text).symm.trans hStart)
      rw [ByteArray.extract_same, toList_eq]
      rfl
  | succ row ih =>
      have hRow : row < (ofText text).lineCount :=
        Nat.lt_of_succ_lt (Array.getElem?_eq_some_iff.mp hStart).1
      obtain ⟨before, hBefore, hLine⟩ := exists_isLine hRow
      rcases lineStop_cases text row with ⟨-, hNone, -⟩ | ⟨hFeed, hNext, -⟩
      · rw [hNone] at hStart
        cases hStart
      · obtain rfl := Option.some.inj (hNext.symm.trans hStart)
        rw [List.range_succ, List.flatMap_append, ih hBefore, List.flatMap_singleton,
          (content_terminator hLine hFeed).2,
          toList_extract_append text (Nat.zero_le _) (Nat.le_succ_of_le hLine.order)]

/-- The last line goes up to the end of the text, and nothing ends it. -/
theorem exists_last (text : ByteArray) : ∃ start,
    IsLine text (lineFeeds text).length start text.size
      ∧ joined text = (text.extract 0 (contentStop text start text.size)).toList := by
  have hRow : (lineFeeds text).length < (ofText text).lineCount := by
    rw [lineCount_ofText]
    exact Nat.lt_succ_self _
  obtain ⟨start, hStart, hLine⟩ := exists_isLine hRow
  have hNone : (ofText text).starts[(lineFeeds text).length + 1]? = none := by
    rw [starts_succ, List.getElem?_eq_none (Nat.le_refl _), Option.map_none]
  have hStop : (ofText text).lineStop (lineFeeds text).length = text.size := by
    rw [lineStop, hNone]
    rfl
  rw [hStop] at hLine
  have hEnd : terminator text (lineFeeds text).length = [] := by
    rw [terminator, hStart, hNone]
  refine ⟨start, hLine, ?_⟩
  rw [joined, lineCount_ofText, List.range_succ, List.flatMap_append, joined_before hStart,
    List.flatMap_singleton, hEnd, List.append_nil, content_of_isLine hLine,
    toList_extract_append text (Nat.zero_le _) (start_le_contentStop hLine).1]

/-- The text is put together again, but for a carriage return at its end. -/
theorem joined_eq (text : ByteArray) :
    joined text = if text.toList.getLast? = some carriageReturn then text.toList.dropLast
      else text.toList := by
  obtain ⟨start, hLine, hJoined⟩ := exists_last text
  have hWhole : (text.extract 0 text.size).toList = text.toList := by
    rw [ByteArray.extract_zero_size]
  rw [hJoined, getLast?_toList]
  split
  · rename_i hReturn
    -- The last line is not empty: what is in front of it is a line feed or nothing at all.
    have hSize : text.size - 1 < text.size := lt_size_of_byteAt? hReturn
    have hLess : start < text.size := by
      refine Nat.lt_of_le_of_ne hLine.order fun hSame => ?_
      have hFeed := hLine.first.resolve_left (by omega)
      rw [hSame, hReturn] at hFeed
      exact absurd (Option.some.inj hFeed) (by decide)
    have hLast := toList_extract_succ (Nat.zero_le _) hReturn
    rw [Nat.sub_add_cancel (by omega), hWhole] at hLast
    rw [contentStop, if_pos ⟨hLess, hReturn⟩, hLast, List.dropLast_concat]
  · rename_i hOther
    rw [contentStop, if_neg fun hBoth => hOther hBoth.2, hWhole]

/-- Nothing else is lost. -/
theorem joined_append_return (hReturn : text.toList.getLast? = some carriageReturn) :
    joined text ++ [carriageReturn] = text.toList := by
  rw [joined_eq, if_pos hReturn]
  exact List.dropLast_append_getLast? _ hReturn

theorem joined_eq_toList_iff :
    joined text = text.toList ↔ text.toList.getLast? ≠ some carriageReturn := by
  refine ⟨fun hSame hReturn => ?_, fun hOther => by rw [joined_eq, if_neg hOther]⟩
  have hMore := joined_append_return hReturn
  rw [hSame] at hMore
  exact List.cons_ne_nil _ _ (List.append_right_eq_self.mp hMore)

/-- A row is its bytes between two offsets of the text, without a line feed. The rows and what ends them
are the text if and only if it does not stop at a carriage return. If it does, all but that one are. -/
theorem rows_partition_iff (text : ByteArray) :
    (∀ row < (ofText text).lineCount, ∃ first last, (ofText text).line? row text = some (first, last)
        ∧ first ≤ last ∧ last ≤ text.size ∧ lineFeed ∉ (text.extract first last).toList)
      ∧ (joined text = text.toList ↔ text.toList.getLast? ≠ some carriageReturn)
      ∧ (text.toList.getLast? = some carriageReturn →
        joined text ++ [carriageReturn] = text.toList) := by
  refine ⟨fun row hRow => ?_, joined_eq_toList_iff, joined_append_return⟩
  obtain ⟨start, stop, hLine⟩ := lt_lineCount_iff.mp hRow
  obtain ⟨hFirst, hLast⟩ := start_le_contentStop hLine
  refine ⟨_, _, line?_of_isLine hLine, hFirst, Nat.le_trans hLast hLine.inside, ?_⟩
  rw [← content_of_isLine hLine]
  exact lineFeed_not_mem_content hLine

/-- A carriage return that no line feed follows does not end a line. At the end of the text it is
dropped all the same. -/
theorem drops_last_return : (ofText "a\r".toUTF8).lineCount = 1
    ∧ terminator "a\r".toUTF8 0 = [] ∧ (ofText "a\r".toUTF8).line? 0 "a\r".toUTF8 = some (0, 1)
    ∧ joined "a\r".toUTF8 ≠ "a\r".toUTF8.toList := by
  refine ⟨by decide +kernel, by decide +kernel, by decide +kernel, fun hSame => ?_⟩
  refine joined_eq_toList_iff.mp hSame ?_
  rw [getLast?_toList]
  decide +kernel

end
end LineMap
end IncrementalParsing
