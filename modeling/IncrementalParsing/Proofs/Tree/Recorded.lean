import IncrementalParsing.Proofs.Letters.Language
import IncrementalParsing.Proofs.Parser.Origins
import IncrementalParsing.Proofs.Parser.Records
import IncrementalParsing.Proofs.Tree.Marks

/-! How far was looked to build the nodes of a tree, and what of that is on record. A flawless node records how
far was looked for everything below it, whatever tree it was taken over from, and also for the hidden nodes
that are not there any more. What gets lost is a token that was passed over behind a hidden node. -/
namespace IncrementalParsing
open Subtree

namespace Subtree
variable {language : Language} {u : Subtree}

/-- A node that shows, has no damage and was not decided on by recovery. -/
structure Flawless (t : Tables) (u : Subtree) : Prop where
  shown : t.isHidden u.kind = false
  whole : u.hasError = false
  firm : u.isFragile = false

/-- Everything below a flawless node is flawless. -/
theorem Flawless.all {t : Tables} {kinds : Kinds} (hMeasured : All (Measured kinds) u) (hSturdy : All Sturdy u)
    (hShows : All (Shows t) u) (h : Flawless t u) : All (Flawless t) u := by
  induction u using children_induction with
  | node u ih =>
      refine all_iff.mpr ⟨h, fun c hMem =>
        ih c hMem (hMeasured.child hMem) (hSturdy.child hMem) (hShows.child hMem) ⟨?_, ?_, ?_⟩⟩
      · refine Bool.eq_false_iff.mpr fun hHidden => ?_
        have hError := hSturdy.self.error (hShows.self h.shown c hMem hHidden).1 (not_isLeaf_of_mem hMem)
        exact Bool.false_ne_true (h.whole.symm.trans hError)
      · refine Bool.eq_false_iff.mpr fun hError => ?_
        exact Bool.false_ne_true (h.whole.symm.trans (hMeasured.self.damaged c hMem hError))
      · exact hSturdy.self.sturdy_child h.whole h.firm hMem

end Subtree

section
variable {language : Language} {g : Grammar} {m : Automaton} {job : ParseJob} {s : ParseState}
  {lookahead : Lookahead}

end

/-- Where a parse comes to in some steps, or where it ends before. -/
def ParseJob.after (job : ParseJob) : (count : Nat) → Configuration → Configuration
  | 0, c => c
  | count + 1, c =>
      match job.step c.1 c.2 with
      | .next lookahead s => job.after count (s, lookahead)
      | .done _ _ => c

namespace Letters

end Letters
end IncrementalParsing
