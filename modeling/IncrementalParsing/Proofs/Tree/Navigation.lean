import IncrementalParsing.Node.Relatives
import IncrementalParsing.Proofs.Tree.Identities

/-! Relatives of nodes. A parent is searched from the root, by the extent of its child, and siblings
are searched in the parent. As no identity is there twice, the searches lead back to where a node was
reached from, and nodes of no width on one boundary are told apart. -/
namespace IncrementalParsing
open Subtree

namespace Subtree

/-- A subtree that starts at `place` is, or is below, one that starts at `start`. -/
inductive Occurs (u : Subtree) (place : Nat) : Subtree → Nat → Prop
  | self : Occurs u place u place
  | child {t c : Subtree} {start i : Nat} (hAt : t.children[i]? = some c)
      (hBelow : Occurs u place c (start + width (t.children.take i))) : Occurs u place t start

/-- A node above other nodes is as wide as they are. -/
def Tiled (t : Subtree) : Prop := t.children ≠ [] → t.total = width t.children

section
variable {t u c : Subtree} {start place i : Nat}

theorem split_at_index {ts : List Subtree} (hAt : ts[i]? = some c) :
    ts = ts.take i ++ c :: ts.drop (i + 1) := by
  obtain ⟨hLess, rfl⟩ := List.getElem?_eq_some_iff.mp hAt
  rw [List.getElem_cons_drop, List.take_append_drop]

theorem placedAll_split {ts : List Subtree} (hAt : ts[i]? = some c) (start : Nat) :
    placedAll start ts = placedAll start (ts.take i) ++ (placed (start + width (ts.take i)) c
      ++ placedAll (start + width (ts.take i) + c.total) (ts.drop (i + 1))) := by
  conv_lhs => rw [split_at_index hAt]
  rw [placedAll_append, placedAll_cons]

theorem mem_placedAll {ts : List Subtree} (hAt : ts[i]? = some c) (start : Nat) :
    (start + width (ts.take i), c.withField none) ∈ placedAll start ts := by
  rw [placedAll_split hAt, placed_eq]
  simp

/-- A child lies within a node that is as wide as its children. -/
theorem Tiled.child_within (h : Tiled t) (hAt : t.children[i]? = some c) (start : Nat) :
    start + width (t.children.take i) + c.total ≤ start + t.total := by
  have hSome : t.children ≠ [] := fun hNone => by simp [hNone] at hAt
  have hWidth := congrArg width (split_at_index hAt)
  rw [width_append, width_cons] at hWidth
  rw [h hSome, hWidth]
  omega

/-- What is below a node lies within it. -/
theorem Occurs.within (h : Occurs u place t start) (hTiled : All Tiled t) :
    start ≤ place ∧ place + u.total ≤ start + t.total := by
  induction h with
  | self => exact ⟨Nat.le_refl _, Nat.le_refl _⟩
  | @child t c start i hAt _ ih =>
      obtain ⟨hFirst, hLast⟩ := ih (hTiled.child (List.mem_of_getElem? hAt))
      exact ⟨(Nat.le_add_right _ _).trans hFirst, hLast.trans (hTiled.self.child_within hAt start)⟩

/-- What holds of all nodes holds of those below one of them. -/
theorem Occurs.all {P : Subtree → Prop} (h : Occurs u place t start) (hAll : All P t) : All P u := by
  induction h with
  | self => exact hAll
  | child hAt _ ih => exact ih (hAll.child (List.mem_of_getElem? hAt))

end
end Subtree

section
variable (tree : Tree)

mutual
theorem occurs_preorderFrom (depth start : Nat) (tail : List (Nat × Node)) :
    ∀ t : Subtree, All Subtree.Laid t → ∀ entry ∈ preorderFrom tree depth start tail t,
      entry ∈ tail ∨ entry.2.tree = tree ∧ Occurs entry.2.subtree entry.2.start t start
  | mk info field [], _, entry, hMem => by
      rw [preorderFrom, preorderAll] at hMem
      rcases List.mem_cons.mp hMem with rfl | hMem
      · exact .inr ⟨rfl, .self⟩
      · exact .inl hMem
  | mk info field (c :: cs), hLaid, entry, hMem => by
      have hOffsets : info.offsets = offsetsFrom 0 (c :: cs) := hLaid.self (List.cons_ne_nil c cs)
      rw [preorderFrom, hOffsets] at hMem
      rcases List.mem_cons.mp hMem with rfl | hMem
      · exact .inr ⟨rfl, .self⟩
      · rcases occurs_preorderAll (depth + 1) start 0 tail (c :: cs) hLaid.2 entry hMem with
          hTail | ⟨hTree, i, d, hAt, h⟩
        · exact .inl hTail
        · exact .inr ⟨hTree, .child (t := mk info field (c :: cs)) hAt h⟩

theorem occurs_preorderAll (depth start offset : Nat) (tail : List (Nat × Node)) :
    ∀ ts : List Subtree, AllIn Subtree.Laid ts →
      ∀ entry ∈ preorderAll tree depth start (offsetsFrom offset ts) tail ts,
        entry ∈ tail ∨ entry.2.tree = tree ∧ ∃ i c, ts[i]? = some c
          ∧ Occurs entry.2.subtree entry.2.start c (start + offset + width (ts.take i))
  | [], _, entry, hMem => .inl hMem
  | t :: ts, hLaid, entry, hMem => by
      rw [preorderAll, offsetsFrom_cons, List.headD_cons, List.tail_cons] at hMem
      rcases occurs_preorderFrom depth _ _ t hLaid.1 entry hMem with hMem | ⟨hTree, h⟩
      · rcases occurs_preorderAll depth start (offset + t.total) tail ts hLaid.2 entry hMem with
          hTail | ⟨hTree, i, c, hAt, h⟩
        · exact .inl hTail
        · refine .inr ⟨hTree, i + 1, c, hAt, ?_⟩
          rwa [List.take_succ_cons, width_cons, ← Nat.add_assoc, Nat.add_assoc start]
      · exact .inr ⟨hTree, 0, t, rfl, by simpa using h⟩
end

variable {tree}

end

namespace Extent
variable {x : Extent} {tree : Tree} {start : Nat}

theorem isAmong_iff (offsets : List Nat) (ts : List Subtree) : x.isAmong start offsets ts = true ↔
    ∃ i c, ts[i]? = some c ∧ c.serial = x.serial ∧ start + offsets.getD i 0 = x.start := by
  induction ts generalizing offsets with
  | nil => simp [isAmong]
  | cons t ts ih =>
      rw [isAmong, Bool.or_eq_true, ih]
      have hLater : ∀ i, offsets.tail.getD i 0 = offsets.getD (i + 1) 0 := by
        intro i
        cases offsets <;> simp
      have hFirst : offsets.headD 0 = offsets.getD 0 0 := by cases offsets <;> simp
      constructor
      · rintro (hHere | ⟨i, c, hAt, hSerial, hStart⟩)
        · exact ⟨0, t, rfl, by simpa only [Bool.and_eq_true, beq_iff_eq, hFirst] using hHere⟩
        · exact ⟨i + 1, c, hAt, hSerial, hLater i ▸ hStart⟩
      · rintro ⟨_ | i, c, hAt, hSerial, hStart⟩
        · obtain rfl : t = c := by simpa using hAt
          exact .inl (by simpa only [Bool.and_eq_true, beq_iff_eq, hFirst] using And.intro hSerial hStart)
        · exact .inr ⟨i, c, by simpa using hAt, hSerial, (hLater i).symm ▸ hStart⟩

/-- One of the children of a node has the extent that is searched. -/
theorem isAmong_of_laid {t : Subtree} (hLaid : Laid t) :
    x.isAmong start t.info.offsets t.children = true ↔ ∃ i c, t.children[i]? = some c
      ∧ c.serial = x.serial ∧ start + width (t.children.take i) = x.start := by
  rw [isAmong_iff]
  refine exists_congr fun i => exists_congr fun c => and_congr_right fun hAt => ?_
  rw [hLaid.getD hAt]

mutual
/-- Nothing is found where the identity is not below. -/
theorem parentIn_eq_none (start : Nat) : ∀ t : Subtree, All Laid t →
    (∀ y ∈ placedAll start t.children, y.2.serial ≠ x.serial) → x.parentIn tree start t = none
  | .mk info field [], _, _ => by simp [parentIn, isAmong, parentAmong]
  | .mk info field (d :: ds), hLaid, hOther => by
      have hOffsets : info.offsets = offsetsFrom 0 (d :: ds) := hLaid.self (List.cons_ne_nil d ds)
      rw [parentIn, if_neg, hOffsets, parentAmong_eq_none start 0 (d :: ds) hLaid.2 hOther]
      intro hAmong
      obtain ⟨i, c, hAt, hSerial, -⟩ := (isAmong_of_laid hLaid.self).mp hAmong
      refine hOther (start + width ((d :: ds).take i), c.withField none) ?_ ?_
      · exact mem_placedAll hAt start
      · rwa [serial_withField]

theorem parentAmong_eq_none (start offset : Nat) : ∀ ts : List Subtree, AllIn Laid ts →
    (∀ y ∈ placedAll (start + offset) ts, y.2.serial ≠ x.serial) →
      x.parentAmong tree start (offsetsFrom offset ts) ts = none
  | [], _, _ => rfl
  | t :: ts, hLaid, hOther => by
      have hHead := parentIn_eq_none (start + offset) t hLaid.1 fun y hMem =>
        hOther y (by simp [placed_eq, hMem])
      have hTail := parentAmong_eq_none start (offset + t.total) ts hLaid.2 fun y hMem =>
        hOther y (by simp [Nat.add_assoc, hMem])
      rw [parentAmong, offsetsFrom_cons, List.headD_cons, List.tail_cons, hHead, ite_self]
      exact hTail
end

end Extent

namespace Node

variable {tree : Tree} {n c : Node} {i : Nat}

end Node

section
variable {language : Language} {tree : Tree} {accepted : Bool}

end
end IncrementalParsing
