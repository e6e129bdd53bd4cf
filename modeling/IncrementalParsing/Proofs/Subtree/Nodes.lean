import IncrementalParsing.Proofs.Subtree.Leaves
import Mathlib.Data.List.Nodup
import Mathlib.Logic.Relation

/-! The nodes of subtrees in order, each at its place, and how a parse changes them: it leaves out
nodes that are taken apart and makes nodes with numbers of their own, but it moves none. -/
namespace IncrementalParsing.Subtree

mutual
/-- The nodes of a subtree that starts at `start` in pre-order, each with where it starts. The part
that a node plays is left out. -/
def placed (start : Nat) : Subtree → List (Nat × Subtree)
  | mk info _ children => (start, mk info none children) :: placedAll start children

/-- The same for subtrees side by side. -/
def placedAll (start : Nat) : List Subtree → List (Nat × Subtree)
  | [] => []
  | t :: ts => placed start t ++ placedAll (start + t.total) ts
end

@[simp] theorem placedAll_nil (start : Nat) : placedAll start [] = [] := rfl

@[simp] theorem placedAll_cons (start : Nat) (t : Subtree) (ts : List Subtree) :
    placedAll start (t :: ts) = placed start t ++ placedAll (start + t.total) ts := rfl

/-- A node stands in front of everything below it, at the same place as its first child. -/
theorem placed_eq (start : Nat) (t : Subtree) :
    placed start t = (start, t.withField none) :: placedAll start t.children := by
  cases t; rfl

@[simp] theorem placed_withField (start : Nat) (field : Option FieldId) (t : Subtree) :
    placed start (t.withField field) = placed start t := by
  cases t; rfl

/-- Nodes of a later list are placed behind the width of an earlier one. -/
theorem placedAll_append (start : Nat) (ts us : List Subtree) :
    placedAll start (ts ++ us) = placedAll start ts ++ placedAll (start + width ts) us := by
  induction ts generalizing start with
  | nil => simp
  | cons t ts ih => simp [ih, Nat.add_assoc]

theorem placedAll_map_withField (fields : Subtree → Option FieldId) (start : Nat)
    (ts : List Subtree) :
    placedAll start (ts.map fun t => t.withField (fields t)) = placedAll start ts := by
  induction ts generalizing start with
  | nil => rfl
  | cons t ts ih => simp [ih]

/-- Subtrees that differ only in the parts they play have the same nodes. -/
theorem placedAll_congr {ts us : List Subtree}
    (hSame : ts.map (withField none) = us.map (withField none)) (start : Nat) :
    placedAll start ts = placedAll start us := by
  rw [← placedAll_map_withField (fun _ => none) start ts,
    ← placedAll_map_withField (fun _ => none) start us]
  exact congrArg (placedAll start) hSame

mutual
/-- A subtree that starts further behind has the same nodes, all of them further behind. -/
theorem placed_add (shift start : Nat) : ∀ t : Subtree,
    placed (shift + start) t = (placed start t).map fun x => (shift + x.1, x.2)
  | mk info field children => by
      rw [placed, placed, List.map_cons, placedAll_add shift start children]

/-- Moving a list moves every node below it by the same distance. -/
theorem placedAll_add (shift start : Nat) : ∀ ts : List Subtree,
    placedAll (shift + start) ts = (placedAll start ts).map fun x => (shift + x.1, x.2)
  | [] => rfl
  | t :: ts => by
      rw [placedAll, placedAll, List.map_append, placed_add shift start t, Nat.add_assoc,
        placedAll_add shift (start + t.total) ts]
end

/-- Which nodes a subtree has does not depend on where it starts. -/
theorem map_snd_placed (start other : Nat) (t : Subtree) :
    (placed start t).map (·.2) = (placed other t).map (·.2) := by
  have hFrom : ∀ start, (placed start t).map (·.2) = (placed 0 t).map (·.2) := by
    intro start
    rw [← Nat.add_zero start, placed_add, List.map_map]
    rfl
  rw [hFrom start, hFrom other]

mutual
/-- All nodes of a subtree have a property if and only if they have it at their places. -/
theorem forall_placed_iff {P : Subtree → Prop} (hField : ∀ u : Subtree, P (u.withField none) ↔ P u)
    (start : Nat) : ∀ t : Subtree, (∀ x ∈ placed start t, P x.2) ↔ All P t
  | mk info field children => by
      rw [placed_eq, List.forall_mem_cons, hField, All]
      exact and_congr_right fun _ => forall_placedAll_iff hField start children

/-- To hold of all placed nodes is to hold of all nodes, wherever they are. -/
theorem forall_placedAll_iff {P : Subtree → Prop} (hField : ∀ u : Subtree, P (u.withField none) ↔ P u)
    (start : Nat) : ∀ ts : List Subtree, (∀ x ∈ placedAll start ts, P x.2) ↔ AllIn P ts
  | [] => by simp [AllIn]
  | t :: ts => by
      rw [placedAll, List.forall_mem_append, AllIn, forall_placed_iff hField start t,
        forall_placedAll_iff hField (start + t.total) ts]
end

/-- Unwrapping leaves out nodes, and moves none. -/
theorem placedAll_unwrapped {kinds : Kinds} {opens : Subtree → Bool} (hOpener : Opener kinds opens)
    (start : Nat) (ts : List Subtree)
    (hTop : ∀ t ∈ ts, opens t = true → t.children = [] → t.total = 0)
    (h : ∀ t ∈ ts, All (Measured kinds) t) :
    (placedAll start (unwrapped opens ts)).Sublist (placedAll start ts) := by
  induction ts using unwrapped_induction opens generalizing start with
  | nil => simp
  | opened t ts hOpens ihChildren ih =>
      have hHead : All (Measured kinds) t := h t (by simp)
      have hInnerTop : ∀ c ∈ t.children.map (orField t.field), opens c = true → c.children = [] →
          c.total = 0 := by
        intro c hMem hChild hNone
        obtain ⟨d, hOld, rfl⟩ := List.mem_map.mp hMem
        rw [orField, hOpener.field] at hChild
        simpa using hOpener.child t hHead.self hOpens d hOld hChild (by simpa using hNone)
      have hInner : ∀ c ∈ t.children.map (orField t.field), All (Measured kinds) c := by
        intro c hMem
        obtain ⟨d, hChild, rfl⟩ := List.mem_map.mp hMem
        exact (hHead.child hChild).withField Measured.withField _
      have hWidth : width (unwrapped opens (t.children.map (orField t.field))) = t.total := by
        rw [(unwrapped_conserves hOpener _ hInnerTop hInner).2, width_map_orField]
        by_cases hNone : t.children = []
        · rw [hNone, hTop t (by simp) hOpens hNone, width_nil]
        · exact (hHead.self.total hNone).symm
      have hBelow := ihChildren start hInnerTop hInner
      rw [show t.children.map (orField t.field)
        = t.children.map (fun c => c.withField (c.field.or t.field)) from rfl,
        placedAll_map_withField] at hBelow
      rw [unwrapped_of_opens hOpens, placedAll_append, hWidth, placedAll_cons, placed_eq]
      exact (hBelow.cons _).append (ih _ (fun u hMem => hTop u (by simp [hMem]))
        fun u hMem => h u (by simp [hMem]))
  | closed t ts hClosed ih =>
      rw [unwrapped_of_not_opens hClosed, placedAll_cons, placedAll_cons]
      exact (List.Sublist.refl _).append (ih _ (fun u hMem => hTop u (by simp [hMem]))
        fun u hMem => h u (by simp [hMem]))

/-- The number that the next node gets, and nodes at their places. -/
abbrev Stock := Nat × List (Nat × Subtree)

/-- One change to the nodes at hand: some are left out, or one is made. -/
inductive Renew : Stock → Stock → Prop
  | drop {next : Nat} {before after : List (Nat × Subtree)} (hLess : after.Sublist before) :
      Renew (next, before) (next, after)
  | make {next : Nat} {front back : List (Nat × Subtree)} {x : Nat × Subtree}
      (hSerial : x.2.serial = next) : Renew (next, front ++ back) (next + 1, front ++ x :: back)

/-- Any number of changes. -/
abbrev Renews := Relation.ReflTransGen Renew

theorem Renews.le {p q : Stock} (h : Renews p q) : p.1 ≤ q.1 := by
  induction h with
  | refl => exact Nat.le_refl _
  | tail _ hStep ih =>
      cases hStep with
      | drop => exact ih
      | make => exact Nat.le_succ_of_le ih

/-- Of the nodes with small numbers some are left out, and nothing else happens to them. -/
theorem Renews.kept {p q : Stock} (h : Renews p q) {old : Nat}
    (hOld : old ≤ p.1) :
    (q.2.filter (·.2.serial < old)).Sublist (p.2.filter (·.2.serial < old)) := by
  induction h with
  | refl => exact List.Sublist.refl _
  | tail hBefore hStep ih =>
      refine List.Sublist.trans ?_ ih
      have hLe := Renews.le hBefore
      cases hStep with
      | drop hLess => exact hLess.filter _
      | @make next front back x hSerial =>
          have hNew : ¬ x.2.serial < old := by
            rw [hSerial]
            exact Nat.not_lt.mpr (Nat.le_trans hOld hLe)
          simp [hNew]

/-- The numbers of the nodes are small enough, and those from `old` on are all different. -/
structure Numbered (old : Nat) (p : Stock) : Prop where
  below : ∀ x ∈ p.2, x.2.serial < p.1
  nodup : ((p.2.filter (old ≤ ·.2.serial)).map (·.2.serial)).Nodup

/-- Renewed stock is numbered if what it came from was. -/
theorem Numbered.renews {old : Nat} {p q : Stock} (h : Numbered old p)
    (hRenews : Renews p q) : Numbered old q := by
  induction hRenews with
  | refl => exact h
  | tail _ hStep ih =>
      obtain ⟨hBelow, hNodup⟩ := ih
      cases hStep with
      | drop hLess =>
          exact ⟨fun x hMem => hBelow x (hLess.subset hMem),
            hNodup.sublist ((hLess.filter _).map _)⟩
      | @make next front back x hSerial =>
          refine ⟨?_, ?_⟩
          · intro y hMem
            rcases List.mem_append.mp hMem with hMem | hMem
            · exact Nat.lt_succ_of_lt (hBelow y (List.mem_append_left _ hMem))
            · rcases List.mem_cons.mp hMem with rfl | hMem
              · exact Nat.lt_succ_of_le (Nat.le_of_eq hSerial)
              · exact Nat.lt_succ_of_lt (hBelow y (List.mem_append_right _ hMem))
          · -- The new number is larger than all the others.
            have hFresh : ∀ y ∈ front ++ back, y.2.serial ≠ x.2.serial := fun y hMem =>
              Nat.ne_of_lt (hSerial ▸ hBelow y hMem)
            have hPerm : (((front ++ x :: back).filter (old ≤ ·.2.serial)).map (·.2.serial)).Perm
                (((x :: (front ++ back)).filter (old ≤ ·.2.serial)).map (·.2.serial)) :=
              (List.perm_middle.filter _).map _
            rw [hPerm.nodup_iff, List.filter_cons]
            split
            · refine List.nodup_cons.mpr ⟨?_, hNodup⟩
              intro hMem
              obtain ⟨y, hFound, hSame⟩ := List.mem_map.mp hMem
              exact hFresh y (List.mem_of_mem_filter hFound) hSame
            · exact hNodup

end IncrementalParsing.Subtree
