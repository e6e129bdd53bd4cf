import IncrementalParsing.Proofs.Blob.Shipping
import Mathlib.Data.Nat.Bitwise

/-! A damaged blob never loads. The length in the header catches bytes that are cut off or added,
and the check value catches any single byte that is changed: taking a byte into the register is
injective in the byte and in the register. -/
namespace IncrementalParsing
namespace Crc32

theorem toNat_shiftRight (a : UInt32) : (a >>> 1).toNat = a.toNat / 2 := by
  simp [UInt32.toNat_shiftRight, Nat.shiftRight_eq_div_pow]

theorem toNat_and (a : UInt32) : (a &&& 1).toNat = a.toNat % 2 := by
  simp [UInt32.toNat_and, Nat.and_one_is_mod]

/-- The highest bit of the polynomial is set, and no shifted register has it. -/
theorem shiftRight_xor_ne (a b : UInt32) : (a >>> 1) ^^^ polynomial ≠ b >>> 1 := by
  intro hSame
  have hHalf : ∀ c : UInt32, (c >>> 1).toNat < 2 ^ 31 := by
    intro c
    have hLess := UInt32.toNat_lt c
    rw [toNat_shiftRight]
    omega
  have hPolynomial : polynomial = (a >>> 1) ^^^ (b >>> 1) := by
    rw [← hSame, ← UInt32.xor_assoc, UInt32.xor_self, UInt32.zero_xor]
  have hLess := Nat.xor_lt_two_pow (hHalf a) (hHalf b)
  rw [← UInt32.toNat_xor, ← hPolynomial] at hLess
  exact absurd hLess (by decide)

/-- One step of the register can be undone. -/
theorem shift_injective : Function.Injective shift := by
  intro a b hSame
  have hFromHalf : a >>> 1 = b >>> 1 → (a &&& 1 = 1 ↔ b &&& 1 = 1) → a = b := by
    intro hHalf hParity
    have hHalfNat := congrArg UInt32.toNat hHalf
    rw [← UInt32.toNat_inj, ← UInt32.toNat_inj, toNat_and, toNat_and] at hParity
    rw [toNat_shiftRight, toNat_shiftRight] at hHalfNat
    rw [← UInt32.toNat_inj]
    have hOne : (1 : UInt32).toNat = 1 := rfl
    omega
  unfold shift at hSame
  split at hSame <;> split at hSame
  · rename_i hFirst hSecond
    exact hFromHalf (UInt32.xor_left_inj polynomial |>.mp hSame) (iff_of_true hFirst hSecond)
  · exact absurd hSame (shiftRight_xor_ne a b)
  · exact absurd hSame.symm (shiftRight_xor_ne b a)
  · rename_i hFirst hSecond
    exact hFromHalf hSame (iff_of_false hFirst hSecond)

theorem update_inj_register {a b : UInt32} (byte : UInt8) (hSame : update a byte = update b byte) :
    a = b :=
  (UInt32.xor_left_inj _).mp (shift_injective.iterate 8 hSame)

theorem update_inj_byte {register : UInt32} {a b : UInt8}
    (hSame : update register a = update register b) : a = b := by
  have hBytes := (UInt32.xor_right_inj _).mp (shift_injective.iterate 8 hSame)
  rw [← UInt8.toNat_inj, ← UInt8.toNat_toUInt32, ← UInt8.toNat_toUInt32, hBytes]

/-- So what follows a difference cannot hide it. -/
theorem foldl_update_inj {a b : UInt32} (bytes : List UInt8)
    (hSame : bytes.foldl update a = bytes.foldl update b) : a = b := by
  induction bytes generalizing a b with
  | nil => exact hSame
  | cons byte bytes ih => exact update_inj_register byte (ih hSame)

/-- A message with one byte changed has another check value. -/
theorem eq_of_ofBytes_set {bytes : List UInt8} {i : Nat} {byte : UInt8} (hIndex : i < bytes.length)
    (hSame : ofBytes (bytes.set i byte) = ofBytes bytes) : byte = bytes[i] := by
  have hFold := (UInt32.xor_left_inj _).mp hSame
  have hWhole : bytes = bytes.take i ++ bytes[i] :: bytes.drop (i + 1) := by simp
  rw [List.set_eq_take_append_cons_drop, if_pos hIndex] at hFold
  conv at hFold => rhs; rw [hWhole]
  rw [List.foldl_append, List.foldl_append, List.foldl_cons, List.foldl_cons] at hFold
  exact update_inj_byte (foldl_update_inj _ hFold)

end Crc32

namespace Blob

theorem word32_inj {n k : Nat} (hFirst : n < 0x100000000) (hSecond : k < 0x100000000)
    (hSame : word32 n = word32 k) : n = k := by
  simp only [word32, List.cons.injEq, and_true] at hSame
  obtain ⟨hLow, hNext, hThird, hHigh⟩ := hSame
  rw [← ofBytes4_word32 hFirst, ← ofBytes4_word32 hSecond, hLow, hNext, hThird, hHigh]

theorem checksum_lt (payload : List UInt8) : (Crc32.ofBytes payload).toNat < 0x100000000 :=
  UInt32.toNat_lt _

/-- The free bytes stand at places six and seven. -/
theorem sealed_eq_set (free : UInt8 × UInt8) (payload : List UInt8) :
    sealed free payload = ((sealed (0, 0) payload).set 6 free.1).set 7 free.2 := rfl

/-- The header says where the payload ends, so a sealed payload is not the front of another. -/
theorem eq_nil_of_sealed_append {first second : UInt8 × UInt8} {payload other rest : List UInt8}
    (hFirst : payload.length < 0x100000000) (hSecond : other.length < 0x100000000)
    (hSame : sealed first payload ++ rest = sealed second other) : rest = [] := by
  have hLength : payload.length = other.length :=
    word32_inj hFirst hSecond (congrArg (fun bytes => (bytes.drop 12).take 4) hSame)
  have hWhole := congrArg List.length hSame
  rw [List.length_append, length_sealed, length_sealed, hLength] at hWhole
  exact List.eq_nil_of_length_eq_zero (Nat.add_eq_left.mp hWhole)

/-- One changed byte does not make another sealed payload, unless it is a free one. -/
theorem eq_getElem_of_sealed_set {free : UInt8 × UInt8} {payload other : List UInt8} {i : Nat}
    {byte : UInt8} (hIndex : i < (sealed (0, 0) payload).length) (hFirst : i ≠ 6) (hSecond : i ≠ 7)
    (hSame : (sealed (0, 0) payload).set i byte = sealed free other) :
    byte = (sealed (0, 0) payload)[i] := by
  rcases Nat.lt_or_ge i 16 with hHeader | hPayload
  · -- The payload is untouched, and it decides the header.
    have hOther : payload = other := by
      have hDrop := congrArg (List.drop 16) hSame
      rwa [List.drop_set_of_lt hHeader] at hDrop
    have hHere := congrArg (·[i]?) hSame
    rw [← hOther, sealed_eq_set free, List.getElem?_set_ne (Ne.symm hSecond),
      List.getElem?_set_ne (Ne.symm hFirst), List.getElem?_set_self hIndex,
      List.getElem?_eq_getElem hIndex] at hHere
    exact Option.some.inj hHere
  · -- The header is untouched, so its check value would be that of two payloads.
    have hOther : payload.set (i - 16) byte = other := by
      have hDrop := congrArg (List.drop 16) hSame
      rwa [List.drop_set, if_neg (Nat.not_lt.mpr hPayload)] at hDrop
    have hSum : word32 (Crc32.ofBytes payload).toNat = word32 (Crc32.ofBytes other).toNat := by
      have hTake := congrArg (fun bytes => ((bytes.take 16).drop 8).take 4) hSame
      rwa [List.take_set_of_le hPayload] at hTake
    have hCheck := UInt32.toNat_inj.mp (word32_inj (checksum_lt _) (checksum_lt _) hSum)
    rw [← hOther] at hCheck
    have hWithin : i - 16 < payload.length := by
      rw [length_sealed] at hIndex
      omega
    rw [Crc32.eq_of_ofBytes_set hWithin hCheck.symm]
    have hBehind : (sealed (0, 0) payload)[i]? = payload[i - 16]? :=
      List.getElem?_append_right hPayload
    rw [List.getElem?_eq_getElem hIndex, List.getElem?_eq_getElem hWithin] at hBehind
    exact (Option.some.inj hBehind).symm

end Blob

/-- A blob that is cut short, continued or changed in one byte that is not free does not load. The
free bytes may be anything. -/
theorem Tables.Compact.damage_shows {t : Tables} (hCompact : t.Compact) :
    (∀ part rest, part ++ rest = t.toBytes → rest ≠ [] →
        ∃ cause, Tables.ofBytes part = .error cause)
      ∧ (∀ more, more ≠ [] → ∃ cause, Tables.ofBytes (t.toBytes ++ more) = .error cause)
      ∧ (∀ (i : Nat) (hIndex : i < t.toBytes.length) (byte : UInt8), byte ≠ t.toBytes[i] →
        i ≠ 6 → i ≠ 7 → ∃ cause, Tables.ofBytes (t.toBytes.set i byte) = .error cause)
      ∧ ∀ first second : UInt8, Tables.ofBytes ((t.toBytes.set 6 first).set 7 second) = .ok t := by
  have hRefused : ∀ bytes, (∀ free payload, bytes = Blob.sealed free payload →
      payload.length < 0x100000000 → False) → ∃ cause, Tables.ofBytes bytes = .error cause := by
    intro bytes hNever
    cases hLoads : Tables.ofBytes bytes with
    | error cause => exact ⟨cause, rfl⟩
    | ok found =>
        obtain ⟨free, payload, -, hSealed, hLength, -⟩ := exists_sealed_of_ofBytes hLoads
        exact (hNever free payload hSealed hLength).elim
  rw [toBytes_eq_sealed]
  refine ⟨?_, ?_, ?_, ?_⟩
  · intro part rest hWhole hCut
    refine hRefused part fun free payload hSealed hLength => hCut ?_
    rw [hSealed] at hWhole
    exact Blob.eq_nil_of_sealed_append hLength hCompact.payload hWhole
  · intro more hMore
    refine hRefused _ fun free payload hSealed hLength => hMore ?_
    exact Blob.eq_nil_of_sealed_append hCompact.payload hLength hSealed
  · intro i hIndex byte hByte hFirst hSecond
    refine hRefused _ fun free payload hSealed _ => hByte ?_
    exact Blob.eq_getElem_of_sealed_set hIndex hFirst hSecond hSealed
  · intro first second
    rw [← Blob.sealed_eq_set (first, second)]
    exact ofBytes_sealed _ hCompact.payload (Blob.readPayload_payload hCompact)

/-- A real blob without its bytes behind the first twenty, and one with the next byte changed. -/
theorem Labels.damage_shows_in_tables : Labels.tables.Compact
    ∧ (∃ cause, Tables.ofBytes (Labels.tables.toBytes.take 20) = .error cause)
    ∧ ∃ cause, Tables.ofBytes (Labels.tables.toBytes.set 20 7) = .error cause := by
  obtain ⟨hCut, -, hChanged, -⟩ := Tables.Compact.damage_shows compact_tables
  refine ⟨compact_tables, ?_, ?_⟩
  · exact hCut _ (Labels.tables.toBytes.drop 20) (List.take_append_drop 20 _) (by decide +kernel)
  · exact hChanged 20 (by decide +kernel) 7 (by decide +kernel) (by decide) (by decide)

end IncrementalParsing
