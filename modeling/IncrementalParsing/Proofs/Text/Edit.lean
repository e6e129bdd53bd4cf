import IncrementalParsing.Proofs.Text.Bytes
import IncrementalParsing.Proofs.Text.Lengths

/-! Edits against the texts they change. Outside its two ranges an edit leaves all bytes alone, and
so does the single edit that stands for several ones. -/
namespace IncrementalParsing
open Text

namespace Edit

/-- The edit leads from one text to another: in front of it and behind it they are the same. -/
structure Leads (e : Edit) (old new : ByteArray) : Prop where
  oldRange : e.start ≤ e.oldEnd ∧ e.oldEnd ≤ old.size
  newRange : e.start ≤ e.newEnd ∧ e.newEnd ≤ new.size
  sizes : old.size + e.newEnd = new.size + e.oldEnd
  before : ∀ i < e.start, byteAt? new i = byteAt? old i
  behind : ∀ i, byteAt? new (e.newEnd + i) = byteAt? old (e.oldEnd + i)

theorem Leads.resizes {e : Edit} {old new : ByteArray} (h : e.Leads old new) :
    e.Resizes old.size new.size :=
  ⟨h.oldRange, h.newRange, h.sizes⟩

/-- An edit that is applied leads to the text that results. -/
theorem leads_of_apply {e : Edit} {old replacement new : ByteArray}
    (hApply : e.apply old replacement = .ok new) : e.Leads old new := by
  unfold apply at hApply
  cases hCheck : e.check old.size with
  | error cause => simp [hCheck, bind, Except.bind] at hApply
  | ok done =>
      obtain ⟨hOld, hNew, hBound⟩ := check_eq_ok hCheck
      simp only [hCheck, bind, Except.bind] at hApply
      split at hApply
      · simp [throw, throwThe, MonadExceptOf.throw] at hApply
      · rename_i hLength
        obtain rfl := Except.ok.inj hApply
        replace hLength : replacement.size = e.newEnd - e.start := Classical.not_not.mp hLength
        have hFront : (old.extract 0 e.start).size = e.start := by
          rw [ByteArray.size_extract]
          omega
        have hBack : (old.extract e.oldEnd old.size).size = old.size - e.oldEnd := by
          rw [ByteArray.size_extract, Nat.min_self]
        have hHead : (old.extract 0 e.start ++ replacement).size = e.newEnd := by
          rw [ByteArray.size_append, hFront, hLength]
          omega
        refine ⟨⟨hOld, hBound⟩, ⟨hNew, ?_⟩, ?_, ?_, ?_⟩
        · rw [ByteArray.size_append, hHead]
          omega
        · rw [ByteArray.size_append, hHead, hBack]
          omega
        · intro i hLess
          rw [byteAt?_append, hHead, if_pos (by omega), byteAt?_append, hFront, if_pos hLess,
            byteAt?_extract, if_pos (by omega), Nat.zero_add]
        · intro i
          rw [byteAt?_append, hHead, if_neg (by omega), byteAt?_extract, Nat.min_self]
          split
          · congr 1
            omega
          · rw [byteAt?_eq_none_iff.mpr (by omega)]

/-- Two edits in a row are the one that is kept for them. -/
theorem Leads.andThen {e next : Edit} {old middle new : ByteArray} (h : e.Leads old middle)
    (hNext : next.Leads middle new) (hOld : old.size < Offset.bound)
    (hNew : new.size < Offset.bound) : (e.andThen next).Leads old new := by
  obtain ⟨hRange, hRange', hSizes⟩ := h.resizes.andThen hNext.resizes hOld hNew
  have hStart : (e.andThen next).start = min e.start next.start := rfl
  have hWhole := h.resizes.andThen_eq hNext.resizes hOld hNew
  refine ⟨hRange, hRange', hSizes, fun i hLess => ?_, fun i => ?_⟩
  · rw [hNext.before i (by omega), h.before i (by omega)]
  · rw [hWhole]
    dsimp only
    rcases Nat.lt_or_ge e.newEnd next.oldEnd with hBeyond | hInside
    · rw [Nat.sub_eq_zero_of_le (Nat.le_of_lt hBeyond), Nat.zero_add, hNext.behind,
        Nat.add_comm (next.oldEnd - e.newEnd), Nat.add_assoc, ← h.behind]
      congr 1
      omega
    · rw [Nat.sub_eq_zero_of_le hInside, Nat.zero_add, ← h.behind,
        Nat.add_comm (e.newEnd - next.oldEnd), Nat.add_assoc, hNext.behind]
      congr 1
      omega

theorem image_of_behind {e : Edit} {old new : ByteArray} (h : e.Leads old new)
    (hNew : new.size < Offset.bound) {offset : Nat} (hBehind : e.oldEnd < offset)
    (hBound : offset ≤ old.size) : e.image offset = offset - e.oldEnd + e.newEnd := by
  have hStart := h.oldRange
  rw [h.resizes.image_eq hNew hBound, if_neg (by omega)]

end Edit
end IncrementalParsing
