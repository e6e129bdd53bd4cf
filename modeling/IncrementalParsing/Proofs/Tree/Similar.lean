import IncrementalParsing.Node.Similar
import IncrementalParsing.Proofs.Tree.Places
import Mathlib.Data.List.Forall2

/-! Nodes that look alike. The comparison goes through two subtrees side by side, so that whatever is a
function of what it sees at each node agrees on both sides. -/
namespace IncrementalParsing
open Subtree

section Pairs
variable {α β γ : Type} {R : α → β → Prop} {S : β → γ → Prop} {as : List α} {bs : List β} {cs : List γ}

/-- Lists that agree in pairs do so with pairs of elements of theirs. -/
theorem forall₂_mem (h : List.Forall₂ R as bs) :
    List.Forall₂ (fun a b => a ∈ as ∧ b ∈ bs ∧ R a b) as bs := by
  induction h with
  | nil => exact .nil
  | cons hHead _ ih =>
      refine .cons ⟨List.mem_cons_self, List.mem_cons_self, hHead⟩ (ih.imp ?_)
      exact fun a b h => ⟨List.mem_cons_of_mem _ h.1, List.mem_cons_of_mem _ h.2.1, h.2.2⟩

/-- Agreement in pairs composes. -/
theorem forall₂_comp (h : List.Forall₂ R as bs) (hNext : List.Forall₂ S bs cs) :
    List.Forall₂ (fun a c => ∃ b, R a b ∧ S b c) as cs := by
  induction h generalizing cs with
  | nil =>
      obtain rfl := List.forall₂_nil_left_iff.mp hNext
      exact .nil
  | cons hHead _ ih =>
      obtain ⟨c, cs, hHead', hTail', rfl⟩ := List.forall₂_cons_left_iff.mp hNext
      exact .cons ⟨_, hHead, hHead'⟩ (ih hTail')

/-- If what is made of two lists agrees in pairs, the same list is made of both. -/
theorem map_eq_of_forall₂ {f : α → γ} {g : β → γ} (h : List.Forall₂ (fun a b => f a = g b) as bs) :
    as.map f = bs.map g := by
  induction h with
  | nil => rfl
  | cons hHead _ ih => rw [List.map_cons, List.map_cons, hHead, ih]

/-- Searches that test pairs in the same way find a pair, or nothing. -/
theorem find?_of_forall₂ {p : α → Bool} {q : β → Bool}
    (hSame : ∀ a b, R a b → p a = q b) (h : List.Forall₂ R as bs) :
    (as.find? p = none ∧ bs.find? q = none)
      ∨ ∃ (i : Nat) (a : α) (b : β), as[i]? = some a ∧ bs[i]? = some b ∧ R a b
        ∧ as.find? p = some a ∧ bs.find? q = some b := by
  induction h with
  | nil => exact .inl ⟨rfl, rfl⟩
  | @cons a b as bs hHead _ ih =>
      rw [List.find?_cons, List.find?_cons, ← hSame a b hHead]
      cases p a with
      | true => exact .inr ⟨0, a, b, rfl, rfl, hHead, rfl, rfl⟩
      | false =>
          rcases ih with hNone | ⟨i, c, d, hFirst, hSecond, hPair⟩
          · exact .inl hNone
          · exact .inr ⟨i + 1, c, d, hFirst, hSecond, hPair⟩

/-- Lists that agree in pairs do so at every place. -/
theorem rel_getElem? (h : List.Forall₂ R as bs) (i : Nat) :
    Option.Rel R as[i]? bs[i]? := by
  induction h generalizing i with
  | nil => exact .none
  | cons hHead _ ih =>
      cases i with
      | zero => exact .some hHead
      | succ i => exact ih i

theorem rel_map {α' β' : Type} {Q : α' → β' → Prop} {f : α → α'} {g : β → β'} {o : Option α}
    {p : Option β} (h : Option.Rel R o p) (hPair : ∀ a b, R a b → Q (f a) (g b)) :
    Option.Rel Q (o.map f) (p.map g) := by
  cases h with
  | none => exact .none
  | some hHere => exact .some (hPair _ _ hHere)

theorem rel_or {o o' : Option α} {p p' : Option β} (h : Option.Rel R o p) (hElse : Option.Rel R o' p') :
    Option.Rel R (o.or o') (p.or p') := by
  cases h with
  | none => exact hElse
  | some hHere => exact .some hHere

theorem rel_cases {o : Option α} {p : Option β} (h : Option.Rel R o p) :
    (o = none ∧ p = none) ∨ ∃ a b, o = some a ∧ p = some b ∧ R a b := by
  cases h with
  | none => exact .inl ⟨rfl, rfl⟩
  | some hHere => exact .inr ⟨_, _, rfl, rfl, hHere⟩

end Pairs

namespace Node
variable {n m k : Node}

/-- What a comparison sees of a node: its number and its name, its range, the part it plays, and what is
wrong with it. -/
def looks (n : Node) : SymbolId × String × Nat × Nat × Option String × Bool × Bool :=
  (n.kindId, n.kind, n.startOffset, n.endOffset, n.fieldName?, n.isMissing, n.hasError)

/-- To look like each other is to have the same looks. -/
theorem looksLike_iff : n.looksLike m = true ↔ n.looks = m.looks := by
  simp [looksLike, looks, and_assoc]

/-- Lists of children are similar if they are so in pairs. -/
theorem similarAll_iff (tree other : Tree) (start otherStart : Nat) (offsets otherOffsets : List Nat)
    (ts us : List Subtree) : similarAll tree other start otherStart offsets otherOffsets ts us = true ↔
      List.Forall₂ (fun c d => c.similar d = true) (nodesFrom tree start offsets ts)
        (nodesFrom other otherStart otherOffsets us) := by
  induction ts generalizing offsets otherOffsets us with
  | nil => cases us <;> simp [similarAll, nodesFrom]
  | cons t ts ih =>
      cases us with
      | nil => simp [similarAll, nodesFrom]
      | cons u us =>
          rw [similarAll, nodesFrom, nodesFrom, List.forall₂_cons, Bool.and_eq_true, ih]
          rfl

/-- Nodes are similar if they look the same, have as many children, and these are similar in pairs. -/
theorem similar_iff : n.similar m = true ↔ n.looks = m.looks
    ∧ List.Forall₂ (fun c d => c.similar d = true) n.children m.children := by
  obtain ⟨tree, ⟨info, field, children⟩, start⟩ := n
  obtain ⟨other, ⟨info', field', children'⟩, start'⟩ := m
  rw [similar, similarFrom, Bool.and_eq_true, looksLike_iff, similarAll_iff]
  rfl

/-- A node is similar to itself. -/
theorem similar_refl (n : Node) : n.similar n = true := by
  induction n using tree_induction with
  | node n ih => exact similar_iff.mpr ⟨rfl, List.forall₂_same.mpr ih⟩

/-- Similarity goes both ways. -/
theorem similar_symm (h : n.similar m = true) : m.similar n = true := by
  induction n using tree_induction generalizing m with
  | node n ih =>
      obtain ⟨hLooks, hChildren⟩ := similar_iff.mp h
      have hPairs := ((List.forall₂_and_left _ _).mpr ⟨ih, hChildren⟩).imp
        fun c d hPair => hPair.1 hPair.2
      exact similar_iff.mpr ⟨hLooks.symm, hPairs.flip⟩

/-- Nodes that are similar to the same node are similar. -/
theorem similar_trans (h : n.similar m = true) (hNext : m.similar k = true) : n.similar k = true := by
  induction n using tree_induction generalizing m k with
  | node n ih =>
      obtain ⟨hLooks, hChildren⟩ := similar_iff.mp h
      obtain ⟨hLooks', hChildren'⟩ := similar_iff.mp hNext
      have hPairs := (List.forall₂_and_left _ _).mpr ⟨ih, forall₂_comp hChildren hChildren'⟩
      refine similar_iff.mpr ⟨hLooks.trans hLooks', hPairs.imp ?_⟩
      rintro c e ⟨hBelow, d, hFirst, hSecond⟩
      exact hBelow hFirst hSecond

/-- The nodes look alike, with everything below them, and their trees have the same tables. -/
structure Alike (n m : Node) : Prop where
  tables : n.tree.tables = m.tree.tables
  similar : n.similar m = true

theorem tree_of_mem_children {c : Node} (hMem : c ∈ n.children) : c.tree = n.tree := by
  obtain ⟨i, hChild⟩ := List.mem_iff_getElem?.mp hMem
  exact (child?_spec hChild).1

/-- The children of similar nodes are similar in pairs. -/
theorem Alike.children (h : n.Alike m) : List.Forall₂ Alike n.children m.children := by
  refine (forall₂_mem (similar_iff.mp h.similar).2).imp ?_
  rintro c d ⟨hFirst, hSecond, hSimilar⟩
  refine ⟨?_, hSimilar⟩
  rw [tree_of_mem_children hFirst, tree_of_mem_children hSecond, h.tables]

/-- What holds of two nodes that look alike if it holds of their children in pairs holds of all of them.
-/
theorem Alike.induction {motive : Node → Node → Prop}
    (node : ∀ n m : Node, n.Alike m →
      List.Forall₂ (fun c d => c.Alike d ∧ motive c d) n.children m.children → motive n m)
    (h : n.Alike m) : motive n m := by
  induction n using tree_induction generalizing m with
  | node n ih =>
      refine node n m h (((List.forall₂_and_left _ _).mpr ⟨ih, h.children⟩).imp ?_)
      exact fun c d hPair => ⟨hPair.2, hPair.1 hPair.2⟩

end Node
end IncrementalParsing
