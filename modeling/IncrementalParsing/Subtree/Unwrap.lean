import IncrementalParsing.Subtree.Basic

/-!
Replacing nodes by their children. Hidden nodes disappear into the node above them this way, and
nested error nodes into the error node that takes them up.
-/
namespace IncrementalParsing.Subtree

@[simp] theorem countAll_append (ts us : List Subtree) :
    countAll (ts ++ us) = countAll ts + countAll us := by
  induction ts with
  | nil => simp [countAll]
  | cons t ts ih => simp [countAll, ih]; omega

/-- The field of a node does not count. -/
theorem count_withField (field : Option FieldId) (t : Subtree) :
    (t.withField field).count = t.count := by
  cases t; simp [withField, count]

@[simp] theorem count_orField (field : Option FieldId) (t : Subtree) :
    (t.orField field).count = t.count :=
  count_withField _ t

/-- Handing a field down does not change the number of nodes. -/
theorem countAll_map_orField (field : Option FieldId) (ts : List Subtree) :
    countAll (ts.map (orField field)) = countAll ts := by
  induction ts with
  | nil => rfl
  | cons t ts ih => simp [countAll, ih]

/-- A node counts one more than what is below it. -/
theorem count_eq (t : Subtree) : t.count = countAll t.children + 1 := by
  cases t; rfl

/-- Replaces every subtree that `opens` by its children, over and over, and appends the others to
`found` in order. A child without a field takes that of the node it came from. -/
def unwrap (opens : Subtree → Bool) (work : List Subtree) (found : Array Subtree) :
    Array Subtree :=
  match work with
  | [] => found
  | t :: work =>
      if opens t then unwrap opens (t.children.map (orField t.field) ++ work) found
      else unwrap opens work (found.push t)
termination_by countAll work
decreasing_by
  · simp only [countAll_append, countAll_map_orField, countAll, count_eq t]; omega
  · simp only [countAll, count_eq t]; omega

end IncrementalParsing.Subtree
