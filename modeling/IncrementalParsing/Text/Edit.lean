import IncrementalParsing.Text.Offset

/-!
Edits of a text. An edit names a range of the old text and where its replacement ends in the
new text. It can be checked against the length of the text, composed with a later edit, applied,
and used to carry offsets from the old text to the new one.
-/
namespace IncrementalParsing

/-- Replaces the bytes of the old text from `start` up to `oldEnd` by bytes that end at `newEnd`
in the new text. -/
structure Edit where
  start : Nat
  oldEnd : Nat
  newEnd : Nat
deriving DecidableEq, Repr, Inhabited

/-- Why an edit, or the tree it belongs to, does not fit the text at hand. -/
inductive EditError where
  | startAfterOldEnd (start oldEnd : Nat)
  | startAfterNewEnd (start newEnd : Nat)
  | outOfBounds (oldEnd length : Nat)
  | lengthMismatch (expected found : Nat)
  | languageMismatch (expected found : String)
deriving DecidableEq, Repr

/-- The report a user reads. -/
def EditError.message : EditError → String
  | startAfterOldEnd start oldEnd => s!"edit starts at {start} after its old end {oldEnd}"
  | startAfterNewEnd start newEnd => s!"edit starts at {start} after its new end {newEnd}"
  | outOfBounds oldEnd length =>
      s!"edit old end {oldEnd} is past the end of the text ({length} bytes)"
  | lengthMismatch expected found => s!"edited text should be {expected} bytes, got {found}"
  | languageMismatch expected found =>
      s!"previous tree was built by grammar `{found}`, parser uses `{expected}`"

namespace Edit

/-- Replaces the bytes from `start` to `stop` by `inserted` new ones. -/
def replace (start stop inserted : Nat) : Edit :=
  ⟨start, stop, Offset.add start inserted⟩

/-- Accepts exactly the edits of a text of `length` bytes whose two ranges both start at `start`
and are not inverted. The first broken condition is reported. -/
def check (e : Edit) (length : Nat) : Except EditError Unit :=
  if e.oldEnd < e.start then .error (.startAfterOldEnd e.start e.oldEnd)
  else if e.newEnd < e.start then .error (.startAfterNewEnd e.start e.newEnd)
  else if length < e.oldEnd then .error (.outOfBounds e.oldEnd length)
  else .ok ()

/-- Length of the new text, for a valid edit of `length` bytes. -/
def lengthAfter (e : Edit) (length : Nat) : Nat :=
  Offset.shift length e.oldEnd e.newEnd

/-- Where an offset of the old text lands. Offsets up to the start stay, offsets from the old end
on move with the text behind the edit, and those in between fall on the new end. -/
def image (e : Edit) (offset : Nat) : Nat :=
  if offset ≤ e.start then offset
  else if e.oldEnd ≤ offset then Offset.shift offset e.oldEnd e.newEnd
  else e.newEnd

/-- Whether the old range from `start` to `stop` meets the edit. Both ends count, because text
inserted beside a token can become part of it. -/
def meets (e : Edit) (start stop : Nat) : Bool :=
  start ≤ e.oldEnd && e.start ≤ stop

/-- The single edit that stands for `e` followed by `next`, where `next` is an edit of the text
that `e` produced. -/
def andThen (e next : Edit) : Edit where
  start := min e.start next.start
  oldEnd := if e.newEnd < next.oldEnd then Offset.shift next.oldEnd e.newEnd e.oldEnd else e.oldEnd
  newEnd := Offset.shift (max e.newEnd next.oldEnd) next.oldEnd next.newEnd

/-- The new text, when the edit fits the old one and the replacement has the declared length. -/
def apply (e : Edit) (old replacement : ByteArray) : Except EditError ByteArray := do
  e.check old.size
  if replacement.size ≠ e.newEnd - e.start then
    throw (.lengthMismatch (e.newEnd - e.start) replacement.size)
  return old.extract 0 e.start ++ replacement ++ old.extract e.oldEnd old.size

end Edit
end IncrementalParsing
