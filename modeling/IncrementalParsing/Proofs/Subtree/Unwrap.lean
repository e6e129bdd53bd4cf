import IncrementalParsing.Subtree.Unwrap

/-! What replacing nodes by their children does, as an equation on lists: the array that collects
the result and the work list are both gone. -/
namespace IncrementalParsing.Subtree

/-- The part that a subtree plays is all that changes when it is given another one. -/
@[simp] theorem info_withField (field : Option FieldId) (t : Subtree) :
    (t.withField field).info = t.info := by
  cases t; rfl

@[simp] theorem children_withField (field : Option FieldId) (t : Subtree) :
    (t.withField field).children = t.children := by
  cases t; rfl

@[simp] theorem field_withField (field : Option FieldId) (t : Subtree) :
    (t.withField field).field = field := by
  cases t; rfl

@[simp] theorem kind_withField (field : Option FieldId) (t : Subtree) :
    (t.withField field).kind = t.kind := by
  simp [kind]

@[simp] theorem serial_withField (field : Option FieldId) (t : Subtree) :
    (t.withField field).serial = t.serial := by
  simp [serial]

@[simp] theorem total_withField (field : Option FieldId) (t : Subtree) :
    (t.withField field).total = t.total := by
  simp [total]

@[simp] theorem isLeaf_withField (field : Option FieldId) (t : Subtree) :
    (t.withField field).isLeaf = t.isLeaf := by
  simp [isLeaf]

/-- The last part that is given counts. -/
@[simp] theorem withField_withField (field other : Option FieldId) (t : Subtree) :
    (t.withField other).withField field = t.withField field := by
  cases t; rfl

/-- A subtree that is given the part it plays stays as it is. -/
theorem withField_field (t : Subtree) : t.withField t.field = t := by
  cases t; rfl

/-- A part that is given only where there is none leaves the rest alone too. -/
@[simp] theorem children_orField (field : Option FieldId) (t : Subtree) :
    (t.orField field).children = t.children :=
  children_withField _ t

@[simp] theorem kind_orField (field : Option FieldId) (t : Subtree) :
    (t.orField field).kind = t.kind :=
  kind_withField _ t

@[simp] theorem total_orField (field : Option FieldId) (t : Subtree) :
    (t.orField field).total = t.total :=
  total_withField _ t

/-- A subtree keeps the part that it plays, and takes the one offered if it plays none. -/
@[simp] theorem field_orField (field : Option FieldId) (t : Subtree) :
    (t.orField field).field = t.field.or field :=
  field_withField _ t

@[simp] theorem width_nil : width [] = 0 := rfl

@[simp] theorem width_cons (t : Subtree) (ts : List Subtree) :
    width (t :: ts) = t.total + width ts := rfl

/-- Widths of subtrees side by side add up. -/
@[simp] theorem width_append (ts us : List Subtree) : width (ts ++ us) = width ts + width us := by
  induction ts with
  | nil => simp
  | cons t ts ih => simp [ih, Nat.add_assoc]

/-- Subtrees without a width have none together. -/
theorem width_eq_zero {ts : List Subtree} (hEmpty : ∀ t ∈ ts, t.total = 0) : width ts = 0 := by
  induction ts with
  | nil => rfl
  | cons t ts ih =>
      rw [width_cons, hEmpty t (by simp), ih fun u hMem => hEmpty u (by simp [hMem])]

/-- What parts subtrees play does not matter for their width. -/
theorem width_map_withField (fields : Subtree → Option FieldId) (ts : List Subtree) :
    width (ts.map fun t => t.withField (fields t)) = width ts := by
  induction ts with
  | nil => rfl
  | cons t ts ih => simp [ih]

/-- Subtrees that differ only in the parts they play have the same width. -/
theorem width_congr {ts us : List Subtree}
    (hSame : ts.map (withField none) = us.map (withField none)) : width ts = width us := by
  rw [← width_map_withField (fun _ => none) ts, ← width_map_withField (fun _ => none) us]
  exact congrArg width hSame

theorem width_map_orField (field : Option FieldId) (ts : List Subtree) :
    width (ts.map (orField field)) = width ts :=
  width_map_withField (fun t => t.field.or field) ts

/-- The subtrees that are left when everything that `opens` is replaced by its children. -/
def unwrapped (opens : Subtree → Bool) (ts : List Subtree) : List Subtree :=
  (unwrap opens ts #[]).toList

/-- Taking apart with an accumulator adds what is left at its end. -/
theorem unwrap_toList (opens : Subtree → Bool) (ts : List Subtree) (found : Array Subtree) :
    (unwrap opens ts found).toList = found.toList ++ unwrapped opens ts := by
  induction hWeight : countAll ts using Nat.strongRecOn generalizing ts found with
  | ind n hLess =>
      cases ts with
      | nil => simp [unwrap, unwrapped]
      | cons t ts =>
          have hCount : countAll (t :: ts) = countAll t.children + 1 + countAll ts := by
            simp only [countAll, count_eq t]
          rw [unwrapped, unwrap, unwrap]
          split
          · refine hLess (countAll (t.children.map (orField t.field) ++ ts)) ?_ _ found rfl
            rw [countAll_append, countAll_map_orField]
            omega
          · have hTail := hLess (countAll ts) (by omega) ts
            rw [hTail (found.push t) rfl, hTail (#[].push t) rfl]
            simp

@[simp] theorem unwrapped_nil (opens : Subtree → Bool) : unwrapped opens [] = [] := by
  simp [unwrapped, unwrap]

/-- The first subtree is either replaced by its children, which are looked at next, or kept. -/
theorem unwrapped_cons (opens : Subtree → Bool) (t : Subtree) (ts : List Subtree) :
    unwrapped opens (t :: ts) =
      if opens t then unwrapped opens (t.children.map (orField t.field) ++ ts)
      else t :: unwrapped opens ts := by
  rw [unwrapped, unwrap]
  split
  · rfl
  · simp [unwrap_toList]

/-- Subtrees are taken apart one by one. -/
theorem unwrapped_append (opens : Subtree → Bool) (ts us : List Subtree) :
    unwrapped opens (ts ++ us) = unwrapped opens ts ++ unwrapped opens us := by
  induction hWeight : countAll ts using Nat.strongRecOn generalizing ts with
  | ind n hLess =>
      cases ts with
      | nil => simp
      | cons t ts =>
          have hCount : countAll (t :: ts) = countAll t.children + 1 + countAll ts := by
            simp only [countAll, count_eq t]
          rw [List.cons_append, unwrapped_cons, unwrapped_cons]
          split
          · rw [← List.append_assoc]
            refine hLess (countAll (t.children.map (orField t.field) ++ ts)) ?_ _ rfl
            rw [countAll_append, countAll_map_orField]
            omega
          · rw [hLess (countAll ts) (by omega) ts rfl, List.cons_append]

/-- What an opened subtree leaves behind. -/
theorem unwrapped_of_opens {opens : Subtree → Bool} {t : Subtree} (hOpens : opens t = true)
    (ts : List Subtree) :
    unwrapped opens (t :: ts) =
      unwrapped opens (t.children.map (orField t.field)) ++ unwrapped opens ts := by
  rw [unwrapped_cons, if_pos hOpens, unwrapped_append]

theorem unwrapped_of_not_opens {opens : Subtree → Bool} {t : Subtree} (hClosed : opens t = false)
    (ts : List Subtree) : unwrapped opens (t :: ts) = t :: unwrapped opens ts := by
  simp [unwrapped_cons, hClosed]

/-- Induction along the unwrapping of a list. -/
theorem unwrapped_induction (opens : Subtree → Bool) {motive : List Subtree → Prop}
    (nil : motive [])
    (opened : ∀ t ts, opens t = true → motive (t.children.map (orField t.field)) → motive ts →
      motive (t :: ts))
    (closed : ∀ t ts, opens t = false → motive ts → motive (t :: ts)) (ts : List Subtree) :
    motive ts := by
  induction hWeight : countAll ts using Nat.strongRecOn generalizing ts with
  | ind n hLess =>
      cases ts with
      | nil => exact nil
      | cons t ts =>
          have hCount : countAll (t :: ts) = countAll t.children + 1 + countAll ts := by
            simp only [countAll, count_eq t]
          have hTail : motive ts := hLess (countAll ts) (by omega) ts rfl
          cases hOpens : opens t with
          | false => exact closed t ts hOpens hTail
          | true =>
              refine opened t ts hOpens (hLess _ ?_ _ rfl) hTail
              rw [countAll_map_orField]
              omega

/-- Nothing is left that should have been replaced. -/
theorem not_opens_of_mem_unwrapped {opens : Subtree → Bool} (ts : List Subtree) :
    ∀ t ∈ unwrapped opens ts, opens t = false := by
  induction ts using unwrapped_induction opens with
  | nil => simp
  | opened t ts hOpens ihChildren ihRest =>
      intro u hMem
      rw [unwrapped_of_opens hOpens] at hMem
      exact (List.mem_append.mp hMem).elim (ihChildren u) (ihRest u)
  | closed t ts hClosed ih =>
      intro u hMem
      rw [unwrapped_of_not_opens hClosed] at hMem
      rcases List.mem_cons.mp hMem with rfl | hMem
      · exact hClosed
      · exact ih u hMem

end IncrementalParsing.Subtree
