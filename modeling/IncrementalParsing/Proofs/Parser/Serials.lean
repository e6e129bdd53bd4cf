import IncrementalParsing.Proofs.Parser.Sights

/-! The numbers that a parse gives out. They only grow, so no two reductions on one way make the same node. -/
namespace IncrementalParsing
open Subtree

namespace ParseStack
variable {t : Tables} {s : ParseStack}

theorem nextSerial_le_closeError (s : ParseStack) : s.nextSerial ≤ s.closeError.nextSerial :=
  (s.renews_closeError []).le

theorem nextSerial_le_pop (s : ParseStack) (depth : Nat) : s.nextSerial ≤ (s.pop depth).2.nextSerial :=
  (s.renews_pop depth []).le

/-- A reduction gives out the number of its node. -/
theorem nextSerial_lt_reduce (t : Tables) (s : ParseStack) (rule : Production) (lookaheadStop : Nat) :
    s.closeError.nextSerial < (s.reduce t rule lookaheadStop).2.nextSerial := by
  rw [reduce_eq]
  refine Nat.lt_of_lt_of_le ?_ (renews_putBack _ _ []).le
  split
  · rename_i next hGoto
    exact ((s.closeError.uncovered rule).renews_push next (s.closeError.reduced t rule lookaheadStop) []).le
  · change _ < ((s.closeError.uncovered rule).pushSkipped t
      [s.closeError.reduced t rule lookaheadStop]).nextSerial
    rw [nextSerial_pushSkipped]
    exact Nat.lt_succ_self _

end ParseStack

namespace ParseJob
variable {job : ParseJob} {g : Grammar} {m : Automaton} {s r : ParseState}

/-- No number is given out twice. -/
theorem Move.nextSerial_le (hMove : job.Move s r) : s.stack.nextSerial ≤ r.stack.nextSerial := by
  cases hMove with
  | note | offer | advance | drop => exact Nat.le_refl _
  | read => exact Nat.le_succ _
  | insert ts nextSerial hLeaves hInserted hSerials hNext => exact hNext ▸ Nat.le_add_right _ _
  | shift t ts next | reuse t ts next => exact (s.stack.renews_push next t []).le
  | reduce t ts rule info lookaheadStop =>
      exact s.stack.nextSerial_le_closeError.trans
        (Nat.le_of_lt (ParseStack.nextSerial_lt_reduce job.tables s.stack info lookaheadStop))
  | skip t ts => exact (ParseStack.nextSerial_pushSkipped job.tables s.stack [t]).ge
  | cut depth ts u us =>
      dsimp only
      split
      · exact s.stack.nextSerial_le_pop depth
      · rw [ParseStack.nextSerial_pushSkipped]
        exact s.stack.nextSerial_le_pop depth

variable {c d : Configuration} {start : Nat} {pieces : List Subtree} {node : Subtree}

/-- A step never takes the counter of serials back. -/
theorem Assured.nextSerial_le (hKnown : job.Assured g m c.1 c.2) (hStep : job.step c.1 c.2 = .next d.2 d.1) :
    c.1.stack.nextSerial ≤ d.1.stack.nextSerial := by
  have hLeads := leads_step (hKnown.generated.stops hKnown.proper) c.1 c.2 hKnown.along.tidy
  rw [hStep] at hLeads
  have hFacing : c.1.stack.nextSerial ≤ (d.1.facing d.2).stack.nextSerial :=
    keep_of_moves (P := fun r => c.1.stack.nextSerial ≤ r.stack.nextSerial)
      (fun hMove hBefore => hBefore.trans hMove.nextSerial_le) hLeads.1 (Nat.le_refl _)
  exact hFacing

/-- The node of a reduction takes the next free serial. -/
theorem Makes.serial (h : job.Makes c start pieces node) : node.serial = c.1.stack.closeError.nextSerial := by
  obtain ⟨rule, info, -, -, -, -, rfl⟩ := h.rule
  rfl

end ParseJob

section
variable {language : Language} {g : Grammar} {m : Automaton} {job : ParseJob} {c d : Configuration}
  (hFaithful : language.tables.Faithful g m) (hProper : g.Proper)

/-- Whatever is reached from an arising configuration arises. -/
theorem Arises.of_reaches (h : Arises language job c.1 c.2) (hReaches : job.Reaches c d) :
    Arises language job d.1 d.2 := by
  induction hReaches with
  | refl => exact h
  | tail _ hStep ih => exact ih.step hStep

include hFaithful hProper

theorem Arises.nextSerial_le (h : Arises language job c.1 c.2) (hReaches : job.Reaches c d) :
    c.1.stack.nextSerial ≤ d.1.stack.nextSerial := by
  induction hReaches with
  | refl => exact Nat.le_refl _
  | tail hBefore hStep ih =>
      exact ih.trans (((h.of_reaches hBefore).assured hFaithful hProper).nextSerial_le hStep)

end
end IncrementalParsing
