import IncrementalParsing.Proofs.Text.Scalar

/-! Well-formed text, taken apart from its first character. -/
namespace IncrementalParsing.Text

/-- The bytes from one place to another are characters in UTF-8. -/
def WellFormed (text : ByteArray) (i j : Nat) : Prop := (text.extract i j).IsValidUTF8

/-- The first byte behind a place that is no part of a character. -/
structure Malformed (text : ByteArray) (i j : Nat) : Prop where
  behind : i ≤ j
  inside : j < text.size
  before : WellFormed text i j
  here : text.utf8DecodeChar? j = none

section
variable {text : ByteArray} {i j k : Nat} {c : Char}

theorem secondByte_high (lead : UInt8) : 0x80 ≤ (secondByte lead).1 := by
  unfold secondByte
  repeat' split
  all_goals decide

/-- Behind the first byte of a character there are no bytes of ASCII in it. -/
theorem high_of_decodes {b : UInt8} (hDecodes : text.utf8DecodeChar? i = some c) (hAfter : i < k)
    (hBefore : k < i + c.utf8Size) (hByte : byteAt? text k = some b) : 0x80 ≤ b := by
  have hWidth := scalarWidth?_of_decodes hDecodes
  have hHigh : ∀ {m : Nat} {low high : UInt8}, byteIn text (i + m) low high = true → 0x80 ≤ low →
      k = i + m → 0x80 ≤ b := by
    rintro m low high hIn hLow rfl
    obtain ⟨other, hOther, hLess, -⟩ := byteIn_eq_true_iff.mp hIn
    obtain rfl := Option.some.inj (hByte.symm.trans hOther)
    exact UInt8.le_trans hLow hLess
  generalize c.utf8Size = width at *
  unfold scalarWidth? at hWidth
  split at hWidth
  · cases hWidth
  · rename_i lead hLead
    dsimp only at hWidth
    have hSecond := secondByte_high lead
    repeat' split at hWidth
    all_goals cases hWidth
    · omega
    · rename_i hNext
      exact hHigh hNext (by decide) (by omega)
    · rename_i hBytes
      obtain ⟨hNext, hThird⟩ := Bool.and_eq_true_iff.mp hBytes
      obtain hPlace | hPlace : k = i + 1 ∨ k = i + 2 := by omega
      · exact hHigh hNext hSecond hPlace
      · exact hHigh hThird (by decide) hPlace
    · rename_i hBytes
      obtain ⟨hFront, hFourth⟩ := Bool.and_eq_true_iff.mp hBytes
      obtain ⟨hNext, hThird⟩ := Bool.and_eq_true_iff.mp hFront
      obtain hPlace | hPlace | hPlace : k = i + 1 ∨ k = i + 2 ∨ k = i + 3 := by omega
      · exact hHigh hNext hSecond hPlace
      · exact hHigh hThird (by decide) hPlace
      · exact hHigh hFourth (by decide) hPlace

theorem wellFormed_self (text : ByteArray) (i : Nat) : WellFormed text i i := by
  rw [WellFormed, ByteArray.extract_eq_empty_iff.mpr (Nat.min_le_left _ _)]
  exact ByteArray.isValidUTF8_empty

theorem WellFormed.append (hText : WellFormed text i j) (hFirst : i ≤ j) (hLast : j ≤ k)
    (hRest : WellFormed text j k) : WellFormed text i k := by
  rw [WellFormed, ByteArray.extract_eq_extract_append_extract j hFirst hLast]
  exact ByteArray.IsValidUTF8.append hText hRest

/-- Text is well-formed if it is behind a character. -/
theorem wellFormed_next (hDecodes : text.utf8DecodeChar? i = some c) (hLe : i + c.utf8Size ≤ j) :
    WellFormed text i j ↔ WellFormed text (i + c.utf8Size) j := by
  have hFirst : text.extract i (i + c.utf8Size) = [c].utf8Encode := by
    have hSize := ByteArray.le_size_of_utf8DecodeChar?_eq_some hDecodes
    rw [ByteArray.utf8DecodeChar?_eq_utf8DecodeChar?_extract] at hDecodes
    rw [List.utf8Encode_singleton, String.toByteArray_utf8EncodeChar_of_utf8DecodeChar?_eq_some hDecodes,
      ByteArray.extract_extract, Nat.add_zero, Nat.min_eq_left hSize]
  rw [WellFormed, ByteArray.extract_eq_extract_append_extract _ (Nat.le_add_right i c.utf8Size) hLe, hFirst]
  exact ByteArray.isValidUTF8_utf8Encode_singleton_append_iff

/-- Well-formed text begins with a character. -/
theorem WellFormed.first (hText : WellFormed text i j) (hLess : i < j) (hInside : j ≤ text.size) :
    ∃ c, text.utf8DecodeChar? i = some c ∧ i + c.utf8Size ≤ j := by
  obtain ⟨cs, hChars⟩ := hText
  cases cs with
  | nil =>
      have hEmpty := ByteArray.extract_eq_empty_iff.mp hChars
      omega
  | cons c cs =>
      have hFirst : (text.extract i j).utf8DecodeChar? 0 = some c := by
        rw [hChars]
        exact List.utf8DecodeChar?_utf8Encode_cons
      have hSize := ByteArray.le_size_of_utf8DecodeChar?_eq_some hFirst
      rw [ByteArray.size_extract] at hSize
      refine ⟨c, ?_, by omega⟩
      rw [ByteArray.utf8DecodeChar?_eq_utf8DecodeChar?_extract,
        ByteArray.extract_eq_extract_append_extract j (Nat.le_of_lt hLess) hInside]
      exact ByteArray.utf8DecodeChar?_append_eq_some hFirst _

end

end IncrementalParsing.Text
