import IncrementalParsing.Text.Edit
import IncrementalParsing.Subtree.Unwrap

/-!
A queue over the subtrees of an edited tree. It moves forward only, and finds subtrees that the
edit has left alone.
-/
namespace IncrementalParsing

/-- The subtrees that are still ahead, where the first one starts in the old text, and the edit
that leads to the new text. -/
structure ReuseQueue where
  ahead : List Subtree
  start : Nat
  edit : Option Edit

namespace ReuseQueue

/-- Starts in front of the children of a root. -/
def ofRoot (root : Subtree) (edit : Option Edit) : ReuseQueue := ⟨root.children, 0, edit⟩

/-- Where an offset of the old text lies in the new one. -/
def map (q : ReuseQueue) (offset : Nat) : Nat :=
  match q.edit with
  | some edit => edit.image offset
  | none => offset

/-- Moves past the first subtree. -/
def pass (q : ReuseQueue) : ReuseQueue :=
  match q.ahead with
  | [] => q
  | t :: ts => { q with ahead := ts, start := q.start + t.total }

/-- Moves to the first child of the first subtree, or past it if it has none. -/
def enter (q : ReuseQueue) : ReuseQueue :=
  match q.ahead with
  | [] => q
  | t :: ts => if t.isLeaf then q.pass else { q with ahead := t.children ++ ts }

/-- The number of nodes ahead. -/
def weight (q : ReuseQueue) : Nat := Subtree.countAll q.ahead

/-- Passing a subtree leaves fewer nodes in front of the queue. -/
theorem weight_pass_lt {q : ReuseQueue} {t : Subtree} {ts : List Subtree}
    (hAhead : q.ahead = t :: ts) : q.pass.weight < q.weight := by
  simp only [weight, pass, hAhead, Subtree.countAll, Subtree.count_eq t]
  omega

/-- Entering a subtree leaves fewer nodes too, as the subtree itself goes. -/
theorem weight_enter_lt {q : ReuseQueue} {t : Subtree} {ts : List Subtree}
    (hAhead : q.ahead = t :: ts) : q.enter.weight < q.weight := by
  simp only [enter, hAhead]
  split
  · exact weight_pass_lt hAhead
  · simp only [weight, hAhead, Subtree.countAll, Subtree.countAll_append, Subtree.count_eq t]
    omega

/-- Whether the edit meets a subtree that starts at `start`, or anything that was read to build
it. -/
def isDirty (q : ReuseQueue) (start : Nat) (t : Subtree) : Bool :=
  match q.edit with
  | some edit => edit.meets start (start + t.total + (t.lookahead - 1))
  | none => false

/-- Whether the first subtree can be taken over as it is. -/
def isReusable (q : ReuseQueue) (start : Nat) (t : Subtree) : Bool :=
  !q.isDirty start t && !t.hasError && !t.isFragile && t.total != 0

/-- The next subtree that can be taken over and starts exactly at `position` in the new text. The
queue stays in front of it. -/
def offer (q : ReuseQueue) (position : Nat) : Option Subtree × ReuseQueue :=
  match _hAhead : q.ahead with
  | [] => (none, q)
  | t :: _ =>
      if position < q.map q.start then (none, q)
      else if q.map q.start < position then
        if q.map (q.start + t.total) ≤ position then q.pass.offer position
        else q.enter.offer position
      else if q.isReusable q.start t then (some t, q)
      else q.enter.offer position
termination_by q.weight
decreasing_by
  · exact weight_pass_lt _hAhead
  · exact weight_enter_lt _hAhead
  · exact weight_enter_lt _hAhead

end ReuseQueue
end IncrementalParsing
