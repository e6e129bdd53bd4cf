import IncrementalParsing.Text.Lines
import IncrementalParsing.Proofs.Text.Bytes
import Mathlib.Data.List.Nodup
import Mathlib.Data.Prod.Lex
import Mathlib.Order.Interval.Set.Defs

/-! Rows and columns against the text. A line goes from one line feed to the next, and its row counts
the line feeds in front of it. The index of a text finds just these lines, so that offsets become points
and points become offsets without loss. -/
namespace IncrementalParsing
open Text

/-- How many line feeds there are in front of an offset. -/
def feedsBefore (text : ByteArray) (offset : Nat) : Nat :=
  (text.toList.take offset).count lineFeed

/-- The bytes from `start` up to `stop` are what a row of the text holds. -/
structure IsLine (text : ByteArray) (row start stop : Nat) : Prop where
  order : start ≤ stop
  inside : stop ≤ text.size
  row : feedsBefore text start = row
  first : start = 0 ∨ byteAt? text (start - 1) = some lineFeed
  plain : ∀ i, start ≤ i → i < stop → byteAt? text i ≠ some lineFeed
  last : stop = text.size ∨ byteAt? text stop = some lineFeed

/-- Points are ordered by their rows, and in a row by their columns. -/
def Point.place (p : Point) : ℕ ×ₗ ℕ := toLex (p.row, p.column)

section
variable {text : ByteArray} {row start stop a b i : Nat}

theorem feedsBefore_succ (text : ByteArray) (i : Nat) :
    feedsBefore text (i + 1) = feedsBefore text i + if byteAt? text i = some lineFeed then 1 else 0 := by
  rw [feedsBefore, List.take_add_one, List.count_append, getElem?_toList]
  cases byteAt? text i with
  | none => rfl
  | some byte => simp [feedsBefore, List.count_singleton]

theorem feedsBefore_mono (hLe : a ≤ b) : feedsBefore text a ≤ feedsBefore text b :=
  (List.take_sublist_take_left hLe).count_le lineFeed

theorem feedsBefore_lt (hFeed : byteAt? text i = some lineFeed) (hLess : i < b) :
    feedsBefore text i < feedsBefore text b := by
  calc feedsBefore text i < feedsBefore text (i + 1) := by
        rw [feedsBefore_succ, if_pos hFeed]
        exact Nat.lt_succ_self _
    _ ≤ feedsBefore text b := feedsBefore_mono hLess

/-- Where a line starts behind an offset, there is a line feed between them. -/
theorem IsLine.row_lt_of_lt (h : IsLine text row start stop) (hLess : a < start) :
    feedsBefore text a < row := by
  have hFeed := h.first.resolve_left (by omega)
  have hLast := feedsBefore_lt hFeed (b := start) (by omega)
  rw [h.row] at hLast
  exact Nat.lt_of_le_of_lt (feedsBefore_mono (by omega)) hLast

/-- Offsets on a line have its row in front of them. -/
theorem IsLine.row_eq (h : IsLine text row start stop) (hFirst : start ≤ a) (hLast : a ≤ stop) :
    feedsBefore text a = row := by
  induction a, hFirst using Nat.le_induction with
  | base => exact h.row
  | succ a hFirst ih =>
      rw [feedsBefore_succ, if_neg (h.plain a hFirst hLast), Nat.add_zero]
      exact ih (by omega)

/-- The offsets on a line are those with as many line feeds in front of them as its row says. -/
theorem IsLine.row_eq_iff (h : IsLine text row start stop) (hInside : a ≤ text.size) :
    feedsBefore text a = row ↔ start ≤ a ∧ a ≤ stop := by
  refine ⟨fun hRow => ⟨?_, ?_⟩, fun ⟨hFirst, hLast⟩ => h.row_eq hFirst hLast⟩
  · by_contra hBefore
    exact absurd hRow (Nat.ne_of_lt (h.row_lt_of_lt (by omega)))
  · by_contra hBehind
    have hFeed := h.last.resolve_left (by omega)
    have hMore := feedsBefore_lt hFeed (b := a) (by omega)
    rw [h.row_eq h.order (Nat.le_refl stop)] at hMore
    omega

/-- A row has one line. -/
theorem IsLine.unique (h : IsLine text row start stop) {start' stop' : Nat}
    (h' : IsLine text row start' stop') : start = start' ∧ stop = stop' := by
  have hOuter := (h.row_eq_iff (Nat.le_trans h'.order h'.inside)).mp h'.row
  have hInner := (h'.row_eq_iff (Nat.le_trans h.order h.inside)).mp h.row
  have hLast := (h.row_eq_iff h'.inside).mp (h'.row_eq h'.order (Nat.le_refl stop'))
  have hLast' := (h'.row_eq_iff h.inside).mp (h.row_eq h.order (Nat.le_refl stop))
  omega

theorem mem_lineFeeds : i ∈ lineFeeds text ↔ byteAt? text i = some lineFeed := by
  simpa [lineFeeds, byteAt?] using lt_size_of_byteAt?

theorem lineFeeds_increasing (text : ByteArray) : (lineFeeds text).Pairwise (· < ·) :=
  List.pairwise_lt_range.filter _

theorem countP_lt_succ (places : List Nat) (offset : Nat) :
    places.countP (· < offset + 1) = places.countP (· < offset) + places.count offset := by
  induction places with
  | nil => rfl
  | cons first places ih =>
      simp only [List.countP_cons, List.count_cons, ih, decide_eq_true_eq, beq_iff_eq]
      split <;> split <;> split <;> omega

/-- The places in front of one of increasing places are as many as its number says. -/
theorem countP_lt_of_getElem? {places : List Nat} (hIncreasing : places.Pairwise (· < ·))
    {k : Nat} (hPlace : places[k]? = some i) : places.countP (· < i) = k := by
  induction hIncreasing generalizing k with
  | nil => cases hPlace
  | @cons first places hFirst _ ih =>
      cases k with
      | zero =>
          obtain rfl : first = i := Option.some.inj hPlace
          simpa [List.countP_eq_zero] using fun place hMem => Nat.le_of_lt (hFirst place hMem)
      | succ k =>
          have hRest : places[k]? = some i := hPlace
          have hLess := hFirst i (List.mem_of_getElem? hRest)
          rw [List.countP_cons, ih hRest, if_pos (decide_eq_true hLess)]

/-- The line feeds in front of an offset are counted by their places too. -/
theorem countP_lineFeeds (text : ByteArray) (offset : Nat) :
    (lineFeeds text).countP (· < offset) = feedsBefore text offset := by
  have hNodup : (lineFeeds text).Nodup := (lineFeeds_increasing text).imp Nat.ne_of_lt
  induction offset with
  | zero => simp [feedsBefore]
  | succ offset ih =>
      rw [countP_lt_succ, ih, feedsBefore_succ, hNodup.count]
      simp only [mem_lineFeeds]

/-- The line feeds are numbered in order. -/
theorem feedsBefore_of_getElem? (hFeed : (lineFeeds text)[row]? = some i) :
    feedsBefore text i = row := by
  rw [← countP_lineFeeds]
  exact countP_lt_of_getElem? (lineFeeds_increasing text) hFeed

theorem feedsBefore_le (text : ByteArray) (offset : Nat) :
    feedsBefore text offset ≤ (lineFeeds text).length := by
  rw [← countP_lineFeeds]
  exact List.countP_le_length

namespace LineMap

theorem lineCount_ofText (text : ByteArray) :
    (ofText text).lineCount = (lineFeeds text).length + 1 := by
  simp [ofText, lineCount]

theorem starts_zero (text : ByteArray) : (ofText text).starts[0]? = some 0 := by
  simp [ofText]

theorem starts_succ (text : ByteArray) (row : Nat) :
    (ofText text).starts[row + 1]? = (lineFeeds text)[row]?.map (· + 1) := by
  simp [ofText]

/-- A line starts at the start of the text or behind a line feed. -/
theorem starts_cases (hStart : (ofText text).starts[row]? = some start) :
    start ≤ text.size ∧ feedsBefore text start = row
      ∧ (start = 0 ∨ byteAt? text (start - 1) = some lineFeed) := by
  cases row with
  | zero =>
      obtain rfl := Option.some.inj ((starts_zero text).symm.trans hStart)
      exact ⟨Nat.zero_le _, rfl, .inl rfl⟩
  | succ row =>
      rw [starts_succ] at hStart
      obtain ⟨feed, hFeed, rfl⟩ := Option.map_eq_some_iff.mp hStart
      have hByte := mem_lineFeeds.mp (List.mem_of_getElem? hFeed)
      refine ⟨lt_size_of_byteAt? hByte, ?_, .inr hByte⟩
      rw [feedsBefore_succ, if_pos hByte, feedsBefore_of_getElem? hFeed]

/-- A line stops at its line feed, and the last one at the end of the text. -/
theorem lineStop_cases (text : ByteArray) (row : Nat) :
    (text.size = (ofText text).lineStop row ∧ (ofText text).starts[row + 1]? = none
        ∧ (lineFeeds text).length ≤ row)
      ∨ byteAt? text ((ofText text).lineStop row) = some lineFeed
        ∧ (ofText text).starts[row + 1]? = some ((ofText text).lineStop row + 1)
        ∧ feedsBefore text ((ofText text).lineStop row) = row := by
  rw [lineStop, starts_succ]
  cases hFeed : (lineFeeds text)[row]? with
  | none => exact .inl ⟨rfl, rfl, List.getElem?_eq_none_iff.mp hFeed⟩
  | some feed =>
      exact .inr ⟨mem_lineFeeds.mp (List.mem_of_getElem? hFeed), rfl, feedsBefore_of_getElem? hFeed⟩

/-- No line feed with so many others in front of it is further in front than the end of the line. -/
theorem lineStop_le (hRow : row ≤ feedsBefore text i) (hFeed : byteAt? text i = some lineFeed) :
    (ofText text).lineStop row ≤ i := by
  rcases lineStop_cases text row with ⟨-, -, hLast⟩ | ⟨hStop, -, hBefore⟩
  · have hMore := feedsBefore_lt hFeed (lt_size_of_byteAt? hFeed)
    have hAll := feedsBefore_le text text.size
    omega
  · by_contra hLess
    have hMore := feedsBefore_lt hFeed (Nat.lt_of_not_le hLess)
    omega

/-- What the index holds of a row is a line of the text. -/
theorem isLine_of_starts (hStart : (ofText text).starts[row]? = some start) :
    IsLine text row start ((ofText text).lineStop row) := by
  obtain ⟨hInside, hRow, hFirst⟩ := starts_cases hStart
  have hPlain : ∀ i, start ≤ i → i < (ofText text).lineStop row → byteAt? text i ≠ some lineFeed :=
    fun i hLe hLess hFeed =>
      Nat.not_le.mpr hLess (lineStop_le (hRow ▸ feedsBefore_mono hLe) hFeed)
  rcases lineStop_cases text row with ⟨hSize, -, -⟩ | ⟨hStop, -, hBefore⟩
  · exact ⟨hSize ▸ hInside, Nat.le_of_eq hSize.symm, hRow, hFirst, hPlain, .inl hSize.symm⟩
  · refine ⟨?_, Nat.le_of_lt (lt_size_of_byteAt? hStop), hRow, hFirst, hPlain, .inr hStop⟩
    by_contra hLess
    have hMore := feedsBefore_lt hStop (Nat.lt_of_not_le hLess)
    omega

/-- Every row of the index has a line. -/
theorem exists_isLine (hRow : row < (ofText text).lineCount) :
    ∃ start, (ofText text).starts[row]? = some start
      ∧ IsLine text row start ((ofText text).lineStop row) :=
  ⟨_, Array.getElem?_eq_getElem hRow, isLine_of_starts (Array.getElem?_eq_getElem hRow)⟩

end LineMap

/-- The index finds every line of the text. -/
theorem IsLine.indexed (h : IsLine text row start stop) :
    (LineMap.ofText text).starts[row]? = some start ∧ (LineMap.ofText text).lineStop row = stop := by
  have hRow : row < (LineMap.ofText text).lineCount := by
    rw [LineMap.lineCount_ofText, ← h.row]
    exact Nat.lt_succ_of_le (feedsBefore_le text start)
  obtain ⟨start', hStart, hLine⟩ := LineMap.exists_isLine hRow
  obtain ⟨rfl, rfl⟩ := h.unique hLine
  exact ⟨hStart, rfl⟩

namespace LineMap

/-- The rows of the index are those of the text. -/
theorem lt_lineCount_iff : row < (ofText text).lineCount ↔ ∃ start stop, IsLine text row start stop := by
  refine ⟨fun hRow => ?_, fun ⟨start, stop, hLine⟩ => ?_⟩
  · obtain ⟨start, -, hLine⟩ := exists_isLine hRow
    exact ⟨start, _, hLine⟩
  · exact (Array.getElem?_eq_some_iff.mp hLine.indexed.1).1

/-- Every offset is on a line. -/
theorem exists_isLine_of_le (hInside : a ≤ text.size) :
    ∃ start stop, IsLine text (feedsBefore text a) start stop ∧ start ≤ a ∧ a ≤ stop := by
  have hRow : feedsBefore text a < (ofText text).lineCount := by
    rw [lineCount_ofText]
    exact Nat.lt_succ_of_le (feedsBefore_le text a)
  obtain ⟨start, -, hLine⟩ := exists_isLine hRow
  exact ⟨start, _, hLine, (hLine.row_eq_iff hInside).mp rfl⟩

theorem countP_starts (text : ByteArray) (offset : Nat) :
    (ofText text).starts.countP (· ≤ offset) = feedsBefore text offset + 1 := by
  rw [← countP_lineFeeds, ofText, ← Array.countP_toList, List.countP_cons, List.countP_map]
  simp only [Nat.zero_le, decide_true, if_true]
  rfl

/-- The point of an offset on a line counts from the start of the line. -/
theorem point_of_isLine (h : IsLine text row start stop) (hFirst : start ≤ a) (hLast : a ≤ stop) :
    (ofText text).point a = ⟨row, a - start⟩ := by
  have hInside : min a (ofText text).length = a := Nat.min_eq_left (Nat.le_trans hLast h.inside)
  have hStart : (ofText text).starts.getD row 0 = start := by
    rw [Array.getD_eq_getD_getElem?, h.indexed.1, Option.getD_some]
  simp only [point, hInside, countP_starts, h.row_eq hFirst hLast, Nat.add_sub_cancel, hStart]

/-- A column is added to the start of its line, and the end of the line cuts the sum. -/
theorem offset_of_isLine (h : IsLine text row start stop) (column : Nat) :
    (ofText text).offset ⟨row, column⟩ = some (min (Offset.add start column) stop) := by
  rw [offset, h.indexed.1, h.indexed.2]
  rfl

/-- Points and offsets of a text correspond. Every offset is the one of its point, later offsets have
later points, and every point on a line is the one of its offset. The row of a point counts the line
feeds in front of it. -/
theorem points_and_offsets_correspond (hFits : text.size < Offset.bound) :
    (∀ a ≤ text.size, (ofText text).offset ((ofText text).point a) = some a)
      ∧ StrictMonoOn (fun a => ((ofText text).point a).place) (Set.Iic text.size)
      ∧ (∀ row < (ofText text).lineCount, ∃ start stop, IsLine text row start stop
          ∧ ∀ column ≤ stop - start, ∃ a, (ofText text).offset ⟨row, column⟩ = some a
            ∧ (ofText text).point a = ⟨row, column⟩)
      ∧ ∀ a ≤ text.size, ((ofText text).point a).row = feedsBefore text a := by
  refine ⟨fun a hInside => ?_, fun a hInside b hInside' hLess => ?_, fun row hRow => ?_,
    fun a hInside => ?_⟩
  · obtain ⟨start, stop, hLine, hFirst, hLast⟩ := exists_isLine_of_le hInside
    have hSum : start + (a - start) = a := Nat.add_sub_cancel' hFirst
    rw [point_of_isLine hLine hFirst hLast, offset_of_isLine hLine, Offset.add_eq (by omega), hSum,
      Nat.min_eq_left hLast]
  · obtain ⟨start, stop, hLine, hFirst, hLast⟩ := exists_isLine_of_le hInside
    obtain ⟨start', stop', hLine', hFirst', hLast'⟩ := exists_isLine_of_le hInside'
    dsimp only
    rw [point_of_isLine hLine hFirst hLast, point_of_isLine hLine' hFirst' hLast', Point.place,
      Point.place, Prod.Lex.toLex_lt_toLex]
    rcases Nat.lt_or_eq_of_le (feedsBefore_mono (Nat.le_of_lt hLess)) with hRow | hRow
    · exact .inl hRow
    · rw [← hRow] at hLine'
      obtain ⟨rfl, rfl⟩ := hLine.unique hLine'
      exact .inr ⟨hRow, Nat.sub_lt_sub_right hFirst hLess⟩
  · obtain ⟨start, stop, hLine⟩ := lt_lineCount_iff.mp hRow
    refine ⟨start, stop, hLine, fun column hColumn => ⟨start + column, ?_, ?_⟩⟩
    · have hOrder := hLine.order
      have hInside := hLine.inside
      rw [offset_of_isLine hLine, Offset.add_eq (by omega), Nat.min_eq_left (by omega)]
    · have hOrder := hLine.order
      rw [point_of_isLine hLine (Nat.le_add_right _ _) (by omega), Nat.add_sub_cancel_left]
  · obtain ⟨start, stop, hLine, hFirst, hLast⟩ := exists_isLine_of_le hInside
    rw [point_of_isLine hLine hFirst hLast]

/-- A line with a carriage return, an empty one, and a last one without an end. -/
theorem correspond_on_three_lines :
    "a\r\n\nbc".toUTF8.size < Offset.bound ∧ (ofText "a\r\n\nbc".toUTF8).lineCount = 3
      ∧ (∀ a ≤ 6, (ofText "a\r\n\nbc".toUTF8).offset ((ofText "a\r\n\nbc".toUTF8).point a) = some a)
      ∧ ((ofText "a\r\n\nbc".toUTF8).point 2).place < ((ofText "a\r\n\nbc".toUTF8).point 3).place
      ∧ (ofText "a\r\n\nbc".toUTF8).point 6 = ⟨2, 2⟩ := by
  have hSize : "a\r\n\nbc".toUTF8.size = 6 := by decide +kernel
  have hFits : "a\r\n\nbc".toUTF8.size < Offset.bound := by decide +kernel
  obtain ⟨hRound, hIncreasing, -⟩ := points_and_offsets_correspond hFits
  rw [hSize] at hRound hIncreasing
  refine ⟨hFits, by decide +kernel, hRound, ?_, by decide +kernel⟩
  exact hIncreasing (show 2 ≤ 6 by decide) (show 3 ≤ 6 by decide) (by decide)

end LineMap
end
end IncrementalParsing
