import IncrementalParsing.Proofs.Subtree.Leaves

/-! The shape of a subtree: what is left of it without the numbers of its nodes and without how far was
read behind them. It is made of the shapes of its children, however they come about. -/
namespace IncrementalParsing.Subtree

mutual
/-- A subtree without the identities of its nodes, and without what was read behind them. -/
def shape : Subtree → Subtree
  | mk info field children => mk { info with serial := 0, lookahead := 0 } field (shapes children)

/-- The same for subtrees side by side. -/
def shapes : List Subtree → List Subtree
  | [] => []
  | t :: ts => shape t :: shapes ts
end

/-- What a token shows of itself apart from how far was read behind it. -/
def look (t : Subtree) : SymbolId × Nat × Nat := (t.kind, t.padding, t.size)

/-- The shapes of subtrees side by side are those of each of them. -/
theorem shapes_eq_map (ts : List Subtree) : shapes ts = ts.map shape := by
  induction ts with
  | nil => rfl
  | cons t ts ih => rw [shapes, ih, List.map_cons]

section
variable (t : Subtree)

/-- The children of a shape are the shapes of the children. Everything but the identities and what was read
stays as it is. -/
@[simp] theorem children_shape : t.shape.children = t.children.map shape := by
  cases t
  exact shapes_eq_map _

@[simp] theorem kind_shape : t.shape.kind = t.kind := by cases t; rfl

@[simp] theorem field_shape : t.shape.field = t.field := by cases t; rfl

@[simp] theorem size_shape : t.shape.size = t.size := by cases t; rfl

@[simp] theorem padding_shape : t.shape.padding = t.padding := by cases t; rfl

@[simp] theorem total_shape : t.shape.total = t.total := by cases t; rfl

@[simp] theorem tokens_shape : t.shape.tokens = t.tokens := by cases t; rfl

@[simp] theorem hasError_shape : t.shape.hasError = t.hasError := by cases t; rfl

@[simp] theorem isFragile_shape : t.shape.isFragile = t.isFragile := by cases t; rfl

@[simp] theorem isLeaf_shape : t.shape.isLeaf = t.isLeaf := by simp [isLeaf]

@[simp] theorem isFragile_withField (field : Option FieldId) :
    (t.withField field).isFragile = t.isFragile := by
  simp [isFragile]

/-- The part that a subtree plays is part of its shape. -/
theorem shape_withField (field : Option FieldId) :
    (t.withField field).shape = t.shape.withField field := by
  cases t
  rfl

/-- So is the part that it plays if it has none yet. -/
theorem shape_orField (field : Option FieldId) : (t.orField field).shape = t.shape.orField field := by
  rw [orField, orField, shape_withField, field_shape]

end

section
variable {t u : Subtree} {ts us : List Subtree}

/-- Subtrees of one shape are of one kind. -/
theorem kind_of_shape (hShape : t.shape = u.shape) : t.kind = u.kind := by
  rw [← kind_shape, hShape, kind_shape]

/-- What looks the same has the same width. -/
theorem total_of_look (hLook : t.look = u.look) : t.total = u.total := by
  obtain ⟨-, hPadding, hSize⟩ : t.kind = u.kind ∧ t.padding = u.padding ∧ t.size = u.size := by
    simpa [look] using hLook
  exact congrArg₂ (· + ·) hPadding hSize

/-- Subtrees that look the same one by one are as wide together. -/
theorem width_of_looks (hLooks : ts.map look = us.map look) : width ts = width us := by
  induction ts generalizing us with
  | nil =>
      obtain rfl : us = [] := by simpa using hLooks.symm
      rfl
  | cons t ts ih =>
      cases us with
      | nil => simp at hLooks
      | cons u us =>
          obtain ⟨hHead, hTail⟩ := List.cons.inj hLooks
          rw [width_cons, width_cons, total_of_look hHead, ih hTail]

/-- Shapes are as wide as the subtrees. -/
theorem width_map_shape (ts : List Subtree) : width (ts.map shape) = width ts := by
  induction ts with
  | nil => rfl
  | cons t ts ih => rw [List.map_cons, width_cons, width_cons, ih, total_shape]

/-- Giving subtrees a part to play and forgetting who they are can be done in either order. -/
theorem map_shape_withField (field : Option FieldId) (ts : List Subtree) :
    (ts.map (withField field)).map shape = (ts.map shape).map (withField field) := by
  rw [List.map_map, List.map_map]
  exact List.map_congr_left fun t _ => shape_withField t field

/-- The bytes in front of the first subtree with a size are those of the shapes. -/
theorem leading_map_shape (ts : List Subtree) : leading (ts.map shape) = leading ts := by
  induction ts with
  | nil => rfl
  | cons t ts ih => rw [List.map_cons, leading, leading, ih, size_shape, padding_shape, total_shape]

/-- Where subtrees start side by side depends on their shapes. -/
theorem offsetsFrom_map_shape (offset : Nat) (ts : List Subtree) :
    offsetsFrom offset (ts.map shape) = offsetsFrom offset ts := by
  induction ts generalizing offset with
  | nil => rfl
  | cons t ts ih => rw [List.map_cons, offsetsFrom, offsetsFrom, ih, total_shape]

/-- Shapes have the tokens of the subtrees. -/
theorem tokens_map_shape (ts : List Subtree) :
    (ts.map shape).foldr (·.tokens + ·) 0 = ts.foldr (·.tokens + ·) 0 := by
  rw [List.foldr_map]
  simp only [tokens_shape]

/-- A test that depends on shapes only finds something among subtrees of the same shapes too. -/
theorem any_of_shapes {p : Subtree → Bool} (hShown : ∀ u, p u.shape = p u)
    (hSame : ts.map shape = us.map shape) : ts.any p = us.any p := by
  have hAny := congrArg (List.any · p) hSame
  simp only [List.any_map] at hAny
  rwa [show p ∘ shape = p from funext hShown] at hAny

/-- The shape of a node depends on the shapes of its children. -/
theorem shape_branch {kind : SymbolId} {state : Option StateId} {fragile : Bool}
    (hChildren : ts.map shape = us.map shape) (serial serial' lookaheadEnd lookaheadEnd' : Nat) :
    (branch serial kind state ts lookaheadEnd fragile).shape
      = (branch serial' kind state us lookaheadEnd' fragile).shape := by
  have hWidth := congrArg width hChildren
  have hLeading := congrArg leading hChildren
  have hTokens := congrArg (List.foldr (·.tokens + ·) 0) hChildren
  have hOffsets := congrArg (offsetsFrom 0) hChildren
  have hError := any_of_shapes hasError_shape hChildren
  rw [width_map_shape, width_map_shape] at hWidth
  rw [leading_map_shape, leading_map_shape] at hLeading
  rw [tokens_map_shape, tokens_map_shape] at hTokens
  rw [offsetsFrom_map_shape, offsetsFrom_map_shape] at hOffsets
  simp only [branch, shape, shapes_eq_map, hWidth, hLeading, hTokens, hOffsets, hError, hChildren]

/-- Taking nodes apart by what their shapes show leaves nodes of the same shapes. -/
theorem map_shape_unwrapped {opens : Subtree → Bool} (hOpens : ∀ u, opens u.shape = opens u)
    (ts : List Subtree) : (unwrapped opens ts).map shape = unwrapped opens (ts.map shape) := by
  induction ts using unwrapped_induction opens with
  | nil => simp
  | opened t ts hOpen ihChildren ih =>
      have hShape : opens t.shape = true := (hOpens t).trans hOpen
      have hInner : (t.children.map (orField t.field)).map shape
          = t.shape.children.map (orField t.shape.field) := by
        rw [children_shape, field_shape, List.map_map, List.map_map]
        exact List.map_congr_left fun c _ => shape_orField c t.field
      rw [List.map_cons, unwrapped_of_opens hOpen, unwrapped_of_opens hShape, List.map_append, ihChildren,
        hInner, ih]
  | closed t ts hClosed ih =>
      have hShape : opens t.shape = false := (hOpens t).trans hClosed
      rw [List.map_cons, unwrapped_of_not_opens hClosed, unwrapped_of_not_opens hShape, List.map_cons, ih]

/-- What is left when nodes are taken apart has the same shapes, if the test is one of shapes. -/
theorem unwrapped_of_shapes {opens : Subtree → Bool} (hOpens : ∀ u, opens u.shape = opens u)
    (hSame : ts.map shape = us.map shape) :
    (unwrapped opens ts).map shape = (unwrapped opens us).map shape := by
  rw [map_shape_unwrapped hOpens, map_shape_unwrapped hOpens, hSame]

end
end IncrementalParsing.Subtree
