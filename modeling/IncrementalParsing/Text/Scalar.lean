/-!
Well-formed UTF-8 at a place of a text. A text may hold any bytes, so a scalar value is recognised
where its bytes stand, and nothing is assumed of what is around it.
-/
namespace IncrementalParsing.Text

/-- The byte at a place, if the text goes that far. -/
def byteAt? (text : ByteArray) (i : Nat) : Option UInt8 := text[i]?

/-- The byte at a place lies between two bounds. -/
def byteIn (text : ByteArray) (i : Nat) (low high : UInt8) : Bool :=
  match byteAt? text i with
  | some b => low ≤ b && b ≤ high
  | none => false

/-- The byte at a place continues a scalar value. -/
def continues (text : ByteArray) (i : Nat) : Bool := byteIn text i 0x80 0xBF

/-- The bounds that the first byte sets for the second one. They keep out longer forms than
necessary, surrogates, and values past the last one. -/
def secondByte (lead : UInt8) : UInt8 × UInt8 :=
  if lead = 0xE0 then (0xA0, 0xBF)
  else if lead = 0xED then (0x80, 0x9F)
  else if lead = 0xF0 then (0x90, 0xBF)
  else if lead = 0xF4 then (0x80, 0x8F)
  else (0x80, 0xBF)

/-- The number of bytes of the scalar value that starts at a place, if one does. -/
def scalarWidth? (text : ByteArray) (i : Nat) : Option Nat :=
  match byteAt? text i with
  | none => none
  | some lead =>
      let (low, high) := secondByte lead
      if lead < 0x80 then some 1
      else if lead < 0xC2 then none
      else if lead < 0xE0 then if continues text (i + 1) then some 2 else none
      else if lead < 0xF0 then
        if byteIn text (i + 1) low high && continues text (i + 2) then some 3 else none
      else if lead < 0xF5 then
        if byteIn text (i + 1) low high && continues text (i + 2) && continues text (i + 3) then
          some 4
        else none
      else none

/-- There is a byte at each offset within the text and at no other. -/
theorem byteAt?_eq_none_iff {text : ByteArray} {i : Nat} :
    byteAt? text i = none ↔ text.size ≤ i := by
  simp [byteAt?]

/-- A scalar value has a byte, and it starts inside the text. -/
theorem scalarWidth?_pos {text : ByteArray} {i w : Nat} (hWidth : scalarWidth? text i = some w) :
    0 < w ∧ i < text.size := by
  unfold scalarWidth? at hWidth
  split at hWidth
  · simp at hWidth
  · rename_i lead hLead
    constructor
    · repeat' split at hWidth
      all_goals first | (simp at hWidth; omega) | simp at hWidth
    · by_cases h : i < text.size
      · exact h
      · rw [byteAt?_eq_none_iff.mpr (by omega)] at hLead
        simp at hLead

/-- The first place from `i` on whose byte does not satisfy `p`. -/
def runEnd (p : UInt8 → Bool) (text : ByteArray) (i : Nat) : Nat :=
  if h : i < text.size then if p text[i] then runEnd p text (i + 1) else i else i
termination_by text.size - i

theorem le_runEnd (p : UInt8 → Bool) (text : ByteArray) (i : Nat) : i ≤ runEnd p text i := by
  fun_induction runEnd p text i <;> omega

end IncrementalParsing.Text
