import IncrementalParsing.Text.Scalar
import Mathlib.Algebra.Group.Nat.Defs

/-! Scalar values are characters in UTF-8: the bounds on their bytes hold where a character can be
decoded, and nowhere else. -/
namespace IncrementalParsing.Text
open ByteArray.utf8DecodeChar?

/-! The value of a character, from its bytes. -/

/-- The low bits of a byte are a remainder. -/
theorem toNat_and_mask (b : UInt8) {bits : Nat} (hBits : bits ≤ 8) :
    (b &&& UInt8.ofNat (2 ^ bits - 1)).toNat = b.toNat % 2 ^ bits := by
  have hPow : 2 ^ bits ≤ 2 ^ 8 := Nat.pow_le_pow_right Nat.two_pos hBits
  rw [UInt8.toNat_and, UInt8.toNat_ofNat', Nat.mod_eq_of_lt (by omega), Nat.and_two_pow_sub_one_eq_mod]

/-- Bits that are put below shifted ones are added to a product. -/
theorem toNat_shiftLeft_or {a b n : UInt32} (hShift : n.toNat < 32) (hLow : b.toNat < 2 ^ n.toNat)
    (hHigh : a.toNat * 2 ^ n.toNat < 2 ^ 32) :
    (a <<< n ||| b).toNat = a.toNat * 2 ^ n.toNat + b.toNat := by
  rw [UInt32.toNat_or, UInt32.toNat_shiftLeft, Nat.mod_eq_of_lt hShift, Nat.shiftLeft_eq,
    Nat.mod_eq_of_lt hHigh, Nat.mul_comm, ← Nat.two_pow_add_eq_or_of_lt hLow]

/-- The number of a character in two bytes, and in three and four below. -/
theorem toNat_assemble₂ (w x : UInt8) :
    (assemble₂Unchecked w x).toNat = w.toNat % 32 * 64 + x.toNat % 64 := by
  have hW : (w &&& 0x1f).toNat = w.toNat % 32 := toNat_and_mask w (by decide : 5 ≤ 8)
  have hX : (x &&& 0x3f).toNat = x.toNat % 64 := toNat_and_mask x (by decide : 6 ≤ 8)
  rw [assemble₂Unchecked, toNat_shiftLeft_or] <;>
    simp only [UInt8.toNat_toUInt32, hW, hX, UInt32.reduceToNat, Nat.reducePow] <;> omega

theorem toNat_assemble₃ (w x y : UInt8) : (assemble₃Unchecked w x y).toNat
    = w.toNat % 16 * 4096 + (x.toNat % 64 * 64 + y.toNat % 64) := by
  have hW : (w &&& 0x0f).toNat = w.toNat % 16 := toNat_and_mask w (by decide : 4 ≤ 8)
  have hX : (x &&& 0x3f).toNat = x.toNat % 64 := toNat_and_mask x (by decide : 6 ≤ 8)
  have hY : (y &&& 0x3f).toNat = y.toNat % 64 := toNat_and_mask y (by decide : 6 ≤ 8)
  have hRest : ((x &&& 0x3f).toUInt32 <<< 6 ||| (y &&& 0x3f).toUInt32).toNat
      = x.toNat % 64 * 64 + y.toNat % 64 := by
    rw [toNat_shiftLeft_or] <;>
      simp only [UInt8.toNat_toUInt32, hX, hY, UInt32.reduceToNat, Nat.reducePow] <;> omega
  rw [assemble₃Unchecked, UInt32.or_assoc, toNat_shiftLeft_or] <;>
    simp only [UInt8.toNat_toUInt32, hW, hRest, UInt32.reduceToNat, Nat.reducePow] <;> omega

theorem toNat_assemble₄ (w x y z : UInt8) : (assemble₄Unchecked w x y z).toNat
    = w.toNat % 8 * 262144 + (x.toNat % 64 * 4096 + (y.toNat % 64 * 64 + z.toNat % 64)) := by
  have hW : (w &&& 0x07).toNat = w.toNat % 8 := toNat_and_mask w (by decide : 3 ≤ 8)
  have hX : (x &&& 0x3f).toNat = x.toNat % 64 := toNat_and_mask x (by decide : 6 ≤ 8)
  have hY : (y &&& 0x3f).toNat = y.toNat % 64 := toNat_and_mask y (by decide : 6 ≤ 8)
  have hZ : (z &&& 0x3f).toNat = z.toNat % 64 := toNat_and_mask z (by decide : 6 ≤ 8)
  have hRest : ((x &&& 0x3f).toUInt32 <<< 12
      ||| ((y &&& 0x3f).toUInt32 <<< 6 ||| (z &&& 0x3f).toUInt32)).toNat
        = x.toNat % 64 * 4096 + (y.toNat % 64 * 64 + z.toNat % 64) := by
    have hLast : ((y &&& 0x3f).toUInt32 <<< 6 ||| (z &&& 0x3f).toUInt32).toNat
        = y.toNat % 64 * 64 + z.toNat % 64 := by
      rw [toNat_shiftLeft_or] <;>
        simp only [UInt8.toNat_toUInt32, hY, hZ, UInt32.reduceToNat, Nat.reducePow] <;> omega
    rw [toNat_shiftLeft_or] <;>
      simp only [UInt8.toNat_toUInt32, hX, hLast, UInt32.reduceToNat, Nat.reducePow] <;> omega
  rw [assemble₄Unchecked, UInt32.or_assoc, UInt32.or_assoc, toNat_shiftLeft_or] <;>
    simp only [UInt8.toNat_toUInt32, hW, hRest, UInt32.reduceToNat, Nat.reducePow] <;> omega

/-- The ranges of bytes that the masks of the first and the further bytes stand for. -/
theorem mask_iff (b : UInt8) : (b &&& 0x80 = 0 ↔ b.toNat < 128)
    ∧ (b &&& 0xE0 = 0xC0 ↔ 192 ≤ b.toNat ∧ b.toNat < 224)
    ∧ (b &&& 0xF0 = 0xE0 ↔ 224 ≤ b.toNat ∧ b.toNat < 240)
    ∧ (b &&& 0xF8 = 0xF0 ↔ 240 ≤ b.toNat ∧ b.toNat < 248)
    ∧ (b &&& 0xC0 = 0x80 ↔ 128 ≤ b.toNat ∧ b.toNat < 192) := by
  have hAll : ∀ n < 256, (UInt8.ofNat n &&& 0x80 = 0 ↔ n < 128)
      ∧ (UInt8.ofNat n &&& 0xE0 = 0xC0 ↔ 192 ≤ n ∧ n < 224)
      ∧ (UInt8.ofNat n &&& 0xF0 = 0xE0 ↔ 224 ≤ n ∧ n < 240)
      ∧ (UInt8.ofNat n &&& 0xF8 = 0xF0 ↔ 240 ≤ n ∧ n < 248)
      ∧ (UInt8.ofNat n &&& 0xC0 = 0x80 ↔ 128 ≤ n ∧ n < 192) := by
    decide +kernel
  have hHere := hAll b.toNat b.toNat_lt
  rwa [UInt8.ofNat_toNat] at hHere

/-- What the first byte of a character says about its width, by ranges. -/
theorem parseFirstByte_eq (b : UInt8) : parseFirstByte b =
    if b.toNat < 128 then .done else if b.toNat < 192 then .invalid else if b.toNat < 224 then .oneMore
    else if b.toNat < 240 then .twoMore else if b.toNat < 248 then .threeMore else .invalid := by
  obtain ⟨hDone, hOne, hTwo, hThree, -⟩ := mask_iff b
  simp only [parseFirstByte, beq_iff_eq, hDone, hOne, hTwo, hThree]
  repeat' split
  all_goals first | rfl | omega

/-- Bytes in the middle of a character are those from 128 to 191. -/
theorem isInvalidContinuationByte_eq (b : UInt8) :
    isInvalidContinuationByte b = !decide (128 ≤ b.toNat ∧ b.toNat < 192) := by
  rw [isInvalidContinuationByte, bne, Bool.not_inj_iff, Bool.eq_iff_iff, beq_iff_eq, decide_eq_true_eq]
  exact (mask_iff b).2.2.2.2

theorem byteAt?_of_lt {text : ByteArray} {i : Nat} (hInside : i < text.size) :
    byteAt? text i = some text[i] :=
  getElem?_pos text i hInside

/-- Within the text a byte is in a range if its number is. -/
theorem byteIn_of_lt {text : ByteArray} {i : Nat} (hInside : i < text.size) (low high : UInt8) :
    byteIn text i low high = decide (low.toNat ≤ text[i].toNat ∧ text[i].toNat ≤ high.toNat) := by
  simp only [byteIn, byteAt?_of_lt hInside, UInt8.le_iff_toNat_le, Bool.decide_and]

theorem byteIn_of_le {text : ByteArray} {i : Nat} (hOutside : text.size ≤ i) (low high : UInt8) :
    byteIn text i low high = false := by
  simp only [byteIn, byteAt?_eq_none_iff.mpr hOutside]

/-! What is checked on the value of a character is what the bounds on its bytes say. -/

/-- Which pairs of bytes are a character. The next two say it of three and of four. -/
theorem verify₂_eq (w x : UInt8) (hLead : 192 ≤ w.toNat ∧ w.toNat < 224) :
    verify₂ w x = decide (194 ≤ w.toNat ∧ 128 ≤ x.toNat ∧ x.toNat ≤ 191) := by
  rw [Bool.eq_iff_iff]
  simp only [verify₂, isInvalidContinuationByte_eq, toNat_assemble₂, UInt32.le_iff_toNat_le,
    UInt32.reduceToNat, Bool.not_eq_true', decide_eq_false_iff_not]
  split <;> simp only [decide_eq_true_eq, Bool.false_eq_true, false_iff] <;> omega

theorem verify₃_eq (w x y : UInt8) (hLead : 224 ≤ w.toNat ∧ w.toNat < 240) :
    verify₃ w x y = decide ((secondByte w).1.toNat ≤ x.toNat ∧ x.toNat ≤ (secondByte w).2.toNat
      ∧ 128 ≤ y.toNat ∧ y.toNat ≤ 191) := by
  rw [Bool.eq_iff_iff]
  simp only [verify₃, isInvalidContinuationByte_eq, toNat_assemble₃, UInt32.le_iff_toNat_le,
    UInt32.lt_iff_toNat_lt, UInt32.reduceToNat, Bool.not_eq_true', decide_eq_false_iff_not, secondByte,
    ← UInt8.toNat_inj, UInt8.reduceToNat, Bool.or_eq_true]
  repeat' split
  all_goals simp only [decide_eq_true_eq, Bool.false_eq_true, false_iff, UInt8.reduceToNat]
  all_goals omega

theorem verify₄_eq (w x y z : UInt8) (hLead : 240 ≤ w.toNat ∧ w.toNat < 248) :
    verify₄ w x y z = decide (w.toNat < 245 ∧ (secondByte w).1.toNat ≤ x.toNat
      ∧ x.toNat ≤ (secondByte w).2.toNat ∧ 128 ≤ y.toNat ∧ y.toNat ≤ 191
      ∧ 128 ≤ z.toNat ∧ z.toNat ≤ 191) := by
  rw [Bool.eq_iff_iff]
  simp only [verify₄, isInvalidContinuationByte_eq, toNat_assemble₄, UInt32.le_iff_toNat_le,
    UInt32.reduceToNat, Bool.not_eq_true', decide_eq_false_iff_not, secondByte,
    ← UInt8.toNat_inj, UInt8.reduceToNat, Bool.or_eq_true]
  repeat' split
  all_goals simp only [decide_eq_true_eq, Bool.false_eq_true, false_iff, UInt8.reduceToNat]
  all_goals omega

/-- Within the text a byte goes on with a character if it is one of the middle. -/
theorem continues_of_lt {text : ByteArray} {i : Nat} (hInside : i < text.size) :
    continues text i = decide (128 ≤ text[i].toNat ∧ text[i].toNat ≤ 191) :=
  byteIn_of_lt hInside _ _

theorem continues_of_le {text : ByteArray} {i : Nat} (hOutside : text.size ≤ i) :
    continues text i = false :=
  byteIn_of_le hOutside _ _

/-- The first byte decides which test is made. -/
theorem validateUTF8At_eq {text : ByteArray} {i : Nat} (hInside : i < text.size) :
    text.validateUTF8At i =
      if text[i].toNat < 128 then true
      else if text[i].toNat < 192 then false
      else if text[i].toNat < 224 then
        if h : i + 1 < text.size then verify₂ text[i] text[i + 1] else false
      else if text[i].toNat < 240 then
        if h : i + 2 < text.size then verify₃ text[i] text[i + 1] text[i + 2] else false
      else if text[i].toNat < 248 then
        if h : i + 3 < text.size then verify₄ text[i] text[i + 1] text[i + 2] text[i + 3] else false
      else false := by
  have hFirst := parseFirstByte_eq text[i]
  rw [ByteArray.validateUTF8At, dif_pos hInside]
  split <;> rename_i hKind <;> rw [hKind] at hFirst
  all_goals
    repeat' split at hFirst
    all_goals first | contradiction | simp only [*, if_true, if_false]
  rfl

/-- A scalar value is where a character can be decoded. -/
theorem isSome_scalarWidth? (text : ByteArray) (i : Nat) :
    (scalarWidth? text i).isSome = text.validateUTF8At i := by
  by_cases hInside : i < text.size
  · rw [validateUTF8At_eq hInside, scalarWidth?, byteAt?_of_lt hInside]
    simp only [UInt8.lt_iff_toNat_lt, UInt8.reduceToNat]
    by_cases hOne : text[i].toNat < 128
    · rw [if_pos hOne, if_pos hOne]
      rfl
    rw [if_neg hOne, if_neg hOne]
    by_cases hStray : text[i].toNat < 192
    · rw [if_pos hStray, if_pos (by omega)]
      rfl
    rw [if_neg hStray]
    by_cases hTwo : text[i].toNat < 224
    · rw [if_pos hTwo, if_pos hTwo]
      by_cases hNext : i + 1 < text.size
      · rw [dif_pos hNext, verify₂_eq _ _ (by omega), continues_of_lt hNext]
        repeat' split
        all_goals grind
      · rw [dif_neg hNext, continues_of_le (by omega)]
        split <;> rfl
    rw [if_neg hTwo, if_neg hTwo, if_neg (by omega)]
    by_cases hThree : text[i].toNat < 240
    · rw [if_pos hThree, if_pos hThree]
      by_cases hNext : i + 2 < text.size
      · rw [dif_pos hNext, verify₃_eq _ _ _ (by omega), continues_of_lt hNext,
          byteIn_of_lt (by omega : i + 1 < text.size), ← Bool.decide_and, Bool.eq_iff_iff]
        split <;> simp_all
      · rw [dif_neg hNext, continues_of_le (by omega), Bool.and_false]
        rfl
    rw [if_neg hThree, if_neg hThree]
    by_cases hFour : text[i].toNat < 248
    · rw [if_pos hFour]
      by_cases hNext : i + 3 < text.size
      · rw [dif_pos hNext, verify₄_eq _ _ _ _ (by omega), continues_of_lt hNext,
          continues_of_lt (by omega : i + 2 < text.size), byteIn_of_lt (by omega : i + 1 < text.size),
          ← Bool.decide_and, ← Bool.decide_and, Bool.eq_iff_iff]
        by_cases hLast : text[i].toNat < 245
        · rw [if_pos hLast]
          split <;> simp_all
        · simp [hLast]
      · rw [dif_neg hNext, continues_of_le (by omega : text.size ≤ i + 3), Bool.and_false]
        split <;> rfl
    rw [if_neg hFour, if_neg (by omega)]
    rfl
  · rw [scalarWidth?, ByteArray.validateUTF8At, byteAt?_eq_none_iff.mpr (Nat.le_of_not_lt hInside),
      dif_neg hInside]
    rfl

/-- The width of a character by the range of its first byte. -/
theorem utf8ByteSize_eq {b : UInt8} (hFirst : b.IsUTF8FirstByte) : b.utf8ByteSize hFirst =
    if b.toNat < 128 then 1 else if b.toNat < 224 then 2 else if b.toNat < 240 then 3 else 4 := by
  obtain ⟨hDone, hOne, hTwo, hThree, -⟩ := mask_iff b
  have hRange := hFirst
  rw [UInt8.IsUTF8FirstByte, hDone, hOne, hTwo, hThree] at hRange
  simp only [UInt8.utf8ByteSize, hDone, hOne, hTwo]
  repeat' split
  all_goals first | rfl | omega

/-- The width of a scalar value is set by its first byte. -/
theorem eq_of_scalarWidth? {text : ByteArray} {i width : Nat} (hInside : i < text.size)
    (hWidth : scalarWidth? text i = some width) : width =
      if text[i].toNat < 128 then 1 else if text[i].toNat < 224 then 2
      else if text[i].toNat < 240 then 3 else 4 := by
  rw [scalarWidth?, byteAt?_of_lt hInside] at hWidth
  simp only [UInt8.lt_iff_toNat_lt, UInt8.reduceToNat] at hWidth
  repeat' split at hWidth
  all_goals simp only [reduceCtorEq, Option.some.injEq] at hWidth
  all_goals
    subst hWidth
    repeat' split
    all_goals first | rfl | omega

/-- A scalar value is a character in UTF-8. -/
theorem scalarWidth?_eq (text : ByteArray) (i : Nat) :
    scalarWidth? text i = (text.utf8DecodeChar? i).map Char.utf8Size := by
  have hSame := (isSome_scalarWidth? text i).trans ByteArray.validateUTF8At_eq_isSome_utf8DecodeChar?
  cases hWidth : scalarWidth? text i with
  | none =>
      rw [hWidth] at hSame
      rw [Option.isNone_iff_eq_none.mp (Option.isSome_eq_false_iff.mp hSame.symm)]
      rfl
  | some width =>
      rw [hWidth] at hSame
      have hDecodes : (text.utf8DecodeChar? i).isSome := hSame.symm
      have hInside := ByteArray.lt_size_of_isSome_utf8DecodeChar? hDecodes
      have hSize := ByteArray.utf8Size_utf8DecodeChar (b := text) (i := i) (h := hDecodes)
      rw [utf8ByteSize_eq, ← eq_of_scalarWidth? hInside hWidth] at hSize
      rw [← hSize, ByteArray.utf8DecodeChar, ← Option.map_some, Option.some_get]

/-- Where a character can be decoded the scanner finds its width. -/
theorem scalarWidth?_of_decodes {text : ByteArray} {i : Nat} {c : Char}
    (hDecodes : text.utf8DecodeChar? i = some c) :
    scalarWidth? text i = some c.utf8Size := by
  rw [scalarWidth?_eq, hDecodes, Option.map_some]

/-- A byte in a range is a byte of the text. -/
theorem byteIn_eq_true_iff {text : ByteArray} {i : Nat} {low high : UInt8} : byteIn text i low high = true ↔
    ∃ b, byteAt? text i = some b ∧ low ≤ b ∧ b ≤ high := by
  unfold byteIn
  cases byteAt? text i <;> simp

/-- A byte of ASCII is the character of its value. -/
theorem utf8DecodeChar?_of_ascii {text : ByteArray} {i : Nat} {b : UInt8}
    (hByte : byteAt? text i = some b) (hAscii : b < 0x80) :
    text.utf8DecodeChar? i = some (Char.ofNat b.toNat) := by
  obtain ⟨hInside, rfl⟩ := getElem?_eq_some_iff.mp hByte
  have hLow : text[i].toNat < 128 := UInt8.lt_iff_toNat_lt.mp hAscii
  have hDone : parseFirstByte text[i] = .done := by rw [parseFirstByte_eq, if_pos hLow]
  rw [ByteArray.utf8DecodeChar?, dif_pos hInside]
  split <;> rename_i hKind <;> rw [hDone] at hKind <;> first | contradiction | skip
  rw [assemble₁, Option.some.injEq]
  refine Char.ext (UInt32.toNat_inj.mp ?_)
  rw [UInt8.toNat_toUInt32, Char.ofNat, dif_pos (.inl (by omega))]
  rfl

/-- A character of ASCII is the byte of its value. The others begin with none of these bytes. -/
theorem byteAt?_of_utf8DecodeChar? {text : ByteArray} {i : Nat} {c : Char}
    (hDecodes : text.utf8DecodeChar? i = some c) :
    ∃ b, byteAt? text i = some b
      ∧ (b.toNat < 128 ∧ c.toNat = b.toNat ∧ c.utf8Size = 1 ∨ 128 ≤ b.toNat ∧ 128 ≤ c.toNat) := by
  have hWidth := scalarWidth?_of_decodes hDecodes
  have hInside := (scalarWidth?_pos hWidth).2
  have hSize := eq_of_scalarWidth? hInside hWidth
  refine ⟨text[i], byteAt?_of_lt hInside, ?_⟩
  by_cases hLow : text[i].toNat < 128
  · rw [if_pos hLow] at hSize
    have hHere := utf8DecodeChar?_of_ascii (byteAt?_of_lt hInside) (UInt8.lt_iff_toNat_lt.mpr hLow)
    obtain rfl := Option.some.inj (hDecodes.symm.trans hHere)
    refine .inl ⟨hLow, ?_, hSize⟩
    rw [Char.ofNat, dif_pos (.inl (by omega))]
    rfl
  · rw [if_neg hLow] at hSize
    refine .inr ⟨Nat.le_of_not_lt hLow, Nat.le_of_not_lt fun hAscii => ?_⟩
    have hOne := Char.utf8Size_eq_one_iff.mpr (UInt32.le_iff_toNat_le.mpr (Nat.le_of_lt_succ hAscii))
    rw [hOne] at hSize
    repeat' split at hSize
    all_goals omega

end IncrementalParsing.Text
