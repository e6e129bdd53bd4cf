import IncrementalParsing.Text.Edit
import Mathlib.Algebra.Ring.Nat

/-! Edits by their lengths alone. What an edit does to offsets does not depend on the bytes, so it is
enough to know how long the texts are, and that offsets reach them. Where they do, no sum and no
difference on the way leaves the range of offsets. -/
namespace IncrementalParsing

namespace Offset
variable {offset source target result : Nat}

/-- The sum, as long as it is an offset. -/
def add? (offset distance : Nat) : Option Nat :=
  if offset + distance < bound then some (offset + distance) else none

/-- The difference, as long as it is not negative. -/
def sub? (offset distance : Nat) : Option Nat :=
  if distance ≤ offset then some (offset - distance) else none

/-- As far behind `target` as `offset` lies behind `source`, as long as neither the difference nor the
sum leaves the range of offsets. -/
def shift? (offset source target : Nat) : Option Nat :=
  (sub? offset source).bind fun distance => add? distance target

/-- An offset can be shifted if it lies behind the source and the result can be held. -/
theorem shift?_eq_some_iff : shift? offset source target = some result ↔
    source ≤ offset ∧ offset - source + target < bound ∧ offset - source + target = result := by
  by_cases hLe : source ≤ offset
  · by_cases hBound : offset - source + target < bound <;>
      simp [shift?, sub?, add?, hLe, hBound]
  · simp [shift?, sub?, hLe]

/-- Where nothing leaves the range of offsets, nothing is reduced. -/
theorem shift?_eq_some (hLe : source ≤ offset) (hBound : offset - source + target < bound) :
    shift? offset source target = some (shift offset source target) :=
  shift?_eq_some_iff.mpr ⟨hLe, hBound, (shift_eq hLe hBound).symm⟩

end Offset

namespace Edit
variable {e f : Edit} {es : List Edit} {old middle new length a b : Nat}

/-- What a checked edit promises. -/
theorem check_eq_ok (hCheck : e.check length = .ok ()) :
    e.start ≤ e.oldEnd ∧ e.start ≤ e.newEnd ∧ e.oldEnd ≤ length := by
  unfold check at hCheck
  repeat' split at hCheck
  all_goals first | contradiction | omega

/-- The edit fits a text of `old` bytes and makes one of `new` bytes of it. -/
structure Resizes (e : Edit) (old new : Nat) : Prop where
  oldRange : e.start ≤ e.oldEnd ∧ e.oldEnd ≤ old
  newRange : e.start ≤ e.newEnd ∧ e.newEnd ≤ new
  sizes : old + e.newEnd = new + e.oldEnd

/-- A checked edit resizes the text it was checked against. -/
theorem resizes_of_check (hCheck : e.check old = .ok ()) :
    e.Resizes old (old - e.oldEnd + e.newEnd) := by
  obtain ⟨hOld, hNew, hEnd⟩ := check_eq_ok hCheck
  exact ⟨⟨hOld, hEnd⟩, ⟨hNew, Nat.le_add_left _ _⟩, by omega⟩

/-- Between lengths that offsets reach, edits are put together without going around. -/
theorem Resizes.andThen_eq (h : e.Resizes old middle) (hNext : f.Resizes middle new)
    (hOld : old < Offset.bound) (hNew : new < Offset.bound) :
    e.andThen f = ⟨min e.start f.start, f.oldEnd - e.newEnd + e.oldEnd,
      e.newEnd - f.oldEnd + f.newEnd⟩ := by
  obtain ⟨hRange, hRange', hSizes⟩ := h
  obtain ⟨hNextRange, hNextRange', hNextSizes⟩ := hNext
  have hBack : Offset.shift (max e.newEnd f.oldEnd) f.oldEnd f.newEnd
      = e.newEnd - f.oldEnd + f.newEnd := by
    rw [Offset.shift_eq (Nat.le_max_right _ _) (by omega)]
    omega
  have hFront : (if e.newEnd < f.oldEnd then Offset.shift f.oldEnd e.newEnd e.oldEnd else e.oldEnd)
      = f.oldEnd - e.newEnd + e.oldEnd := by
    split
    · rename_i hBeyond
      exact Offset.shift_eq (Nat.le_of_lt hBeyond) (by omega)
    · omega
  rw [Edit.andThen, hBack, hFront]

/-- Two edits in a row are one edit of the first text. -/
theorem Resizes.andThen (h : e.Resizes old middle) (hNext : f.Resizes middle new)
    (hOld : old < Offset.bound) (hNew : new < Offset.bound) : (e.andThen f).Resizes old new := by
  rw [h.andThen_eq hNext hOld hNew]
  obtain ⟨hRange, hRange', hSizes⟩ := h
  obtain ⟨hNextRange, hNextRange', hNextSizes⟩ := hNext
  constructor
  all_goals dsimp only; omega

theorem image_of_le (hLe : a ≤ e.start) : e.image a = a := if_pos hLe

/-- Offsets up to the start stay. Those behind it are counted from where the edit ends, and offsets that
the edit has taken out count as its end. -/
theorem Resizes.image_eq (h : e.Resizes old new) (hNew : new < Offset.bound) (hEnd : a ≤ old) :
    e.image a = if a ≤ e.start then a else a - e.oldEnd + e.newEnd := by
  have hSizes := h.sizes
  rw [image]
  split
  · rfl
  · split
    · rename_i hBehind
      exact Offset.shift_eq hBehind (by omega)
    · omega

/-- The end of the text stays if the edit starts there, and else it becomes the end of the new text. -/
theorem Resizes.image_end (h : e.Resizes old new) (hNew : new < Offset.bound) :
    e.image old = if e.start < old then new else old := by
  have hRange := h.oldRange
  have hSizes := h.sizes
  rw [h.image_eq hNew (Nat.le_refl old)]
  split <;> split <;> omega

/-- What is kept as an edit makes a text of `new` bytes of one of `old` bytes. -/
def Resized (edit : Option Edit) (old new : Nat) : Prop :=
  match edit with
  | some e => e.Resizes old new
  | none => new = old

/-! The same operations, as long as no sum and no difference leaves the range of offsets. -/

/-- Length of the new text. -/
def lengthAfter? (e : Edit) (length : Nat) : Option Nat := Offset.shift? length e.oldEnd e.newEnd

/-- Where an offset of the old text lands. -/
def image? (e : Edit) (offset : Nat) : Option Nat :=
  if offset ≤ e.start then some offset
  else if e.oldEnd ≤ offset then Offset.shift? offset e.oldEnd e.newEnd
  else some e.newEnd

/-- The single edit that stands for `e` followed by `next`. -/
def andThen? (e next : Edit) : Option Edit := do
  let oldEnd ←
    if e.newEnd < next.oldEnd then Offset.shift? next.oldEnd e.newEnd e.oldEnd else some e.oldEnd
  let newEnd ← Offset.shift? (max e.newEnd next.oldEnd) next.oldEnd next.newEnd
  return ⟨min e.start next.start, oldEnd, newEnd⟩

/-- The new length is what the checked computation gives. -/
theorem Resizes.lengthAfter?_eq (h : e.Resizes old new) (hNew : new < Offset.bound) :
    e.lengthAfter? old = some new := by
  have hEnd := h.oldRange.2
  have hSizes := h.sizes
  exact Offset.shift?_eq_some_iff.mpr ⟨hEnd, by omega, by omega⟩

theorem Resizes.lengthAfter_eq (h : e.Resizes old new) (hNew : new < Offset.bound) :
    e.lengthAfter old = new := by
  obtain ⟨hEnd, hBound, hSame⟩ := Offset.shift?_eq_some_iff.mp (h.lengthAfter?_eq hNew)
  exact (Offset.shift_eq hEnd hBound).trans hSame

/-- The image of each offset of the old text is what the checked computation gives. -/
theorem Resizes.image?_eq (h : e.Resizes old new) (hNew : new < Offset.bound) (hEnd : a ≤ old) :
    e.image? a = some (e.image a) := by
  have hSizes := h.sizes
  rw [image?, image]
  split
  · rfl
  · split
    · rename_i hBehind
      exact Offset.shift?_eq_some hBehind (by omega)
    · rfl

/-- The edit that does the work of two is what the checked computation gives. -/
theorem Resizes.andThen?_eq (h : e.Resizes old middle) (hNext : f.Resizes middle new)
    (hOld : old < Offset.bound) (hNew : new < Offset.bound) :
    e.andThen? f = some (e.andThen f) := by
  obtain ⟨hRange, hRange', hSizes⟩ := h
  obtain ⟨hNextRange, hNextRange', hNextSizes⟩ := hNext
  have hBack : Offset.shift? (max e.newEnd f.oldEnd) f.oldEnd f.newEnd
      = some (Offset.shift (max e.newEnd f.oldEnd) f.oldEnd f.newEnd) :=
    Offset.shift?_eq_some (Nat.le_max_right _ _) (by omega)
  rw [andThen?, hBack, Edit.andThen]
  split
  · rename_i hBeyond
    rw [Offset.shift?_eq_some (Nat.le_of_lt hBeyond) (by omega)]
    rfl
  · rfl

/-- A further edit goes on where the one that is kept ends. -/
theorem Resized.andThen {edit : Option Edit} (h : Resized edit old middle)
    (hNext : f.Resizes middle new) (hOld : old < Offset.bound) (hNew : new < Offset.bound) :
    (edit.elim f (·.andThen f)).Resizes old new := by
  cases edit with
  | some e => exact Resizes.andThen h hNext hOld hNew
  | none =>
      obtain rfl : middle = old := h
      exact hNext

theorem Resized.andThen?_eq {edit : Option Edit} (h : Resized edit old middle)
    (hNext : f.Resizes middle new) (hOld : old < Offset.bound) (hNew : new < Offset.bound) :
    edit.elim (some f) (·.andThen? f) = some (edit.elim f (·.andThen f)) := by
  cases edit with
  | some e => exact Resizes.andThen?_eq h hNext hOld hNew
  | none => rfl

/-- The number of bytes that an edit takes out. -/
def removed (e : Edit) : Nat := e.oldEnd - e.start

/-- The number of bytes that an edit puts in. -/
def inserted (e : Edit) : Nat := e.newEnd - e.start

/-- The length of a text after edits, however large it is. -/
def exactLength (length : Nat) (es : List Edit) : Int :=
  length - (es.map removed).sum + (es.map inserted).sum

theorem exactLength_nil (length : Nat) : exactLength length [] = length := by
  simp [exactLength]

/-- The first of several edits makes a text that the others go on with. -/
theorem Resizes.exactLength_cons (h : e.Resizes old new) (es : List Edit) :
    exactLength old (e :: es) = exactLength new es := by
  have hRange := h.oldRange
  have hRange' := h.newRange
  have hSizes := h.sizes
  simp only [exactLength, removed, inserted, List.map_cons, List.sum_cons]
  omega

end Edit
end IncrementalParsing
