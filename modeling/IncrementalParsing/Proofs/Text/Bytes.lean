import IncrementalParsing.Text.Scalar

/-! Bytes of a text as a list. -/
namespace IncrementalParsing.Text

theorem toList_loop (bytes : ByteArray) (i : Nat) (found : List UInt8) :
    ByteArray.toList.loop bytes i found = found.reverse ++ bytes.data.toList.drop i := by
  fun_induction ByteArray.toList.loop bytes i found with
  | case1 i found hLess ih =>
      have hByte : bytes.data.toList.drop i = bytes.get! i :: bytes.data.toList.drop (i + 1) := by
        have hList : i < bytes.data.toList.length := by simpa using hLess
        rw [List.drop_eq_getElem_cons hList]
        congr 1
        have hData : i < bytes.data.size := by simpa using hLess
        change bytes.data.toList[i] = bytes.data[i]!
        rw [getElem!_pos bytes.data i hData, Array.getElem_toList]
      rw [ih, hByte]
      simp
  | case2 i found hMore =>
      have hList : bytes.data.toList.length ≤ i := by simpa using hMore
      rw [List.drop_of_length_le hList, List.append_nil]

/-- The bytes of a text as a list are those of its array. -/
theorem toList_eq (bytes : ByteArray) : bytes.toList = bytes.data.toList := by
  rw [ByteArray.toList, toList_loop]
  rfl

theorem length_toList (bytes : ByteArray) : bytes.toList.length = bytes.size := by
  rw [toList_eq]
  simp

/-- A list of bytes and a text are two ways to write the same. -/
theorem toByteArray_toList (bytes : ByteArray) : bytes.toList.toByteArray = bytes := by
  rw [toList_eq]
  exact ByteArray.ext (by simp)

/-- A byte at an offset is an element of the array. -/
theorem byteAt?_eq (bytes : ByteArray) (i : Nat) : byteAt? bytes i = bytes.data[i]? := by
  unfold byteAt?
  by_cases hLess : i < bytes.size
  · rw [getElem?_pos bytes i hLess, getElem?_pos bytes.data i (by simpa using hLess)]
    rfl
  · rw [getElem?_neg bytes i hLess, getElem?_neg bytes.data i (by simpa using hLess)]

/-- It is an element of the list as well. -/
theorem getElem?_toList (bytes : ByteArray) (i : Nat) : bytes.toList[i]? = byteAt? bytes i := by
  rw [toList_eq, byteAt?_eq, Array.getElem?_toList]

theorem getLast?_toList (bytes : ByteArray) :
    bytes.toList.getLast? = byteAt? bytes (bytes.size - 1) := by
  rw [List.getLast?_eq_getElem?, length_toList, getElem?_toList]

/-- An offset that has a byte is in the text. -/
theorem lt_size_of_byteAt? {bytes : ByteArray} {i : Nat} {byte : UInt8}
    (hByte : byteAt? bytes i = some byte) : i < bytes.size := by
  refine Nat.lt_of_not_le fun hBeyond => ?_
  rw [byteAt?_eq_none_iff.mpr hBeyond] at hByte
  cases hByte

/-- Two texts with the same byte at every offset are equal. -/
theorem ext_byteAt? {a b : ByteArray} (h : ∀ i, byteAt? a i = byteAt? b i) : a = b := by
  refine ByteArray.ext (Array.ext_getElem? fun i => ?_)
  rw [← byteAt?_eq, ← byteAt?_eq, h]

/-- In one text behind another, the bytes of the second one are counted from its start. -/
theorem byteAt?_append (front back : ByteArray) (i : Nat) :
    byteAt? (front ++ back) i =
      if i < front.size then byteAt? front i else byteAt? back (i - front.size) := by
  simp only [byteAt?_eq, ByteArray.data_append, Array.getElem?_append, ByteArray.size_data]

/-- In a part of a text, bytes are counted from the start of the part. -/
theorem byteAt?_extract (bytes : ByteArray) (start stop i : Nat) :
    byteAt? (bytes.extract start stop) i =
      if i < min stop bytes.size - start then byteAt? bytes (start + i) else none := by
  simp only [byteAt?_eq, ByteArray.data_extract, Array.getElem?_extract, ByteArray.size_data]

theorem toList_append (front back : ByteArray) :
    (front ++ back).toList = front.toList ++ back.toList := by
  simp only [toList_eq, ByteArray.data_append, Array.toList_append]

/-- Two parts that meet are one part. -/
theorem toList_extract_append (bytes : ByteArray) {a b c : Nat} (hFirst : a ≤ b) (hLast : b ≤ c) :
    (bytes.extract a b).toList ++ (bytes.extract b c).toList = (bytes.extract a c).toList := by
  rw [← toList_append, ByteArray.extract_append_extract, Nat.min_eq_left hFirst,
    Nat.max_eq_right hLast]

/-- A part that goes on by a byte ends in this byte. -/
theorem toList_extract_succ {bytes : ByteArray} {a b : Nat} {byte : UInt8} (hLe : a ≤ b)
    (hByte : byteAt? bytes b = some byte) :
    (bytes.extract a (b + 1)).toList = (bytes.extract a b).toList ++ [byte] := by
  rw [byteAt?_eq] at hByte
  obtain ⟨hLess, hByte⟩ := Array.getElem?_eq_some_iff.mp hByte
  rw [toList_eq, toList_eq, ByteArray.data_extract, ByteArray.data_extract,
    Array.extract_succ_right (Nat.lt_succ_of_le hLe) hLess, Array.toList_push, hByte]

/-- A byte of a part of a text is at an offset within that part. -/
theorem mem_toList_extract {bytes : ByteArray} {a b : Nat} {byte : UInt8}
    (hMem : byte ∈ (bytes.extract a b).toList) :
    ∃ i, a ≤ i ∧ i < b ∧ byteAt? bytes i = some byte := by
  obtain ⟨i, hByte⟩ := List.mem_iff_getElem?.mp hMem
  rw [getElem?_toList, byteAt?_extract] at hByte
  split at hByte
  · exact ⟨a + i, Nat.le_add_right _ _, by omega, hByte⟩
  · cases hByte

end IncrementalParsing.Text
