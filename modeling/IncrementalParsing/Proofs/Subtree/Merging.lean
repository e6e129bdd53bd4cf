import IncrementalParsing.Proofs.Subtree.Flattening
import Mathlib.Data.List.Chain

/-! Error nodes side by side. Replacing hidden nodes by their children brings nodes together that were
apart before, so what counts is what subtrees show once that is done. -/
namespace IncrementalParsing.Subtree

/-- The kinds that subtrees show once the hidden ones among them are replaced by their children. -/
def shownKinds (t : Tables) (ts : List Subtree) : List SymbolId :=
  (unwrapped (t.isHidden ·.kind) ts).map (·.kind)

section Shown
variable {t : Tables} {ts us : List Subtree}

@[simp] theorem shownKinds_nil : shownKinds t [] = [] := by
  simp [shownKinds]

/-- What shows side by side is what shows of each. -/
theorem shownKinds_append (t : Tables) (ts us : List Subtree) :
    shownKinds t (ts ++ us) = shownKinds t ts ++ shownKinds t us := by
  rw [shownKinds, unwrapped_append, List.map_append]
  rfl

/-- Lists that are the same but for parts begin with the same subtree, but for its part. -/
theorem exists_cons_of_same {u : Subtree}
    (hSame : (u :: ts).map (withField none) = us.map (withField none)) :
    ∃ v vs, us = v :: vs ∧ v.kind = u.kind ∧ v.children = u.children
      ∧ ts.map (withField none) = vs.map (withField none) := by
  cases us with
  | nil => simp at hSame
  | cons v vs =>
      obtain ⟨hHead, hRest⟩ := List.cons.inj hSame
      exact ⟨v, vs, rfl, by simpa using congrArg kind hHead.symm,
        by simpa using congrArg children hHead.symm, hRest⟩

/-- Which kinds are shown does not depend on the parts that are played. -/
theorem shownKinds_congr (hSame : ts.map (withField none) = us.map (withField none)) :
    shownKinds t ts = shownKinds t us := by
  unfold shownKinds
  induction ts using unwrapped_induction (t.isHidden ·.kind) generalizing us with
  | nil =>
      obtain rfl : us = [] := by simpa using hSame.symm
      rfl
  | opened u ts hOpens ihChildren ih =>
      obtain ⟨v, vs, rfl, hKind, hChildren, hRest⟩ := exists_cons_of_same hSame
      have hInner := @ihChildren (v.children.map (orField v.field)) (by
        rw [hChildren, List.map_map, List.map_map]
        exact List.map_congr_left fun c _ => by simp [orField])
      have hOpened : t.isHidden v.kind = true := hKind ▸ hOpens
      rw [unwrapped_of_opens hOpens, @unwrapped_of_opens (t.isHidden ·.kind) _ hOpened,
        List.map_append, List.map_append, hInner, ih hRest]
  | closed u ts hClosed ih =>
      obtain ⟨v, vs, rfl, hKind, -, hRest⟩ := exists_cons_of_same hSame
      have hKept : t.isHidden v.kind = false := hKind ▸ hClosed
      rw [unwrapped_of_not_opens hClosed,
        @unwrapped_of_not_opens (t.isHidden ·.kind) _ hKept, List.map_cons, List.map_cons, hKind,
        ih hRest]

/-- Of a hidden node its children show. -/
theorem shownKinds_of_hidden {u : Subtree} (hHidden : t.isHidden u.kind = true) :
    shownKinds t [u] = shownKinds t u.children := by
  have hSame : shownKinds t (u.children.map (orField u.field)) = shownKinds t u.children := by
    refine shownKinds_congr ?_
    rw [List.map_map]
    exact List.map_congr_left fun c _ => by simp [orField]
  rw [← hSame, shownKinds, @unwrapped_of_opens (t.isHidden ·.kind) _ hHidden]
  simp [shownKinds]

theorem shownKinds_of_shown {u : Subtree} (hShown : t.isHidden u.kind = false) :
    shownKinds t [u] = [u.kind] := by
  rw [shownKinds, @unwrapped_of_not_opens (t.isHidden ·.kind) _ hShown]
  simp

/-- Nodes that are not hidden show their own kinds. -/
theorem shownKinds_eq_map (hShown : ∀ u ∈ ts, t.isHidden u.kind = false) :
    shownKinds t ts = ts.map (·.kind) := by
  rw [shownKinds, unwrapped_eq_self ts hShown]

/-- Replacing the hidden nodes does not change what is shown. -/
theorem shownKinds_unwrapped (t : Tables) (ts : List Subtree) :
    shownKinds t (unwrapped (t.isHidden ·.kind) ts) = shownKinds t ts :=
  shownKinds_eq_map (not_opens_of_mem_unwrapped ts)

end Shown

/-- No two error nodes are next to each other. -/
abbrev Apart (kinds : List SymbolId) : Prop :=
  kinds.IsChain fun k l => ¬ (k = errorSymbol ∧ l = errorSymbol)

/-- No two error nodes are next to each other, and none is at the end. -/
structure Spaced (kinds : List SymbolId) : Prop where
  apart : Apart kinds
  last : errorSymbol ∉ kinds.getLast?

/-- There is something, and it does not start with an error node. -/
def Headed (kinds : List SymbolId) : Prop := ∃ k ∈ kinds.head?, k ≠ errorSymbol

theorem spaced_nil : Spaced [] := ⟨.nil, by simp⟩

/-- A kind by itself has no neighbour. -/
theorem spaced_singleton {kind : SymbolId} (hKind : kind ≠ errorSymbol) : Spaced [kind] :=
  ⟨.singleton _, by simpa using hKind⟩

theorem Headed.append {ks ls : List SymbolId} (h : Headed ks) : Headed (ks ++ ls) := by
  obtain ⟨k, hHead, hKind⟩ := h
  exact ⟨k, by simp [List.head?_append, Option.mem_def.mp hHead], hKind⟩

/-- What is apart stays so when something follows that is, unless error nodes meet. -/
theorem Apart.append {ks ls : List SymbolId} (h : Apart ks) (hLater : Apart ls)
    (hMeet : errorSymbol ∈ ks.getLast? → errorSymbol ∉ ls.head?) : Apart (ks ++ ls) := by
  refine List.isChain_append.mpr ⟨h, hLater, ?_⟩
  rintro k hLast l hHead ⟨rfl, rfl⟩
  exact hMeet hLast hHead

/-- Error nodes have been merged right below a node: nothing that it shows is an error node next to
another one, nor does such a node come last. Of error nodes within an error node there are only
tokens. -/
structure Merged (t : Tables) (u : Subtree) : Prop where
  shown : u.kind ≠ errorSymbol → Spaced (shownKinds t u.children)
  error : u.kind = errorSymbol → ∀ c ∈ u.children, c.kind = errorSymbol → c.isLeaf = true

/-- A subtree that can follow an error node: a token, or a node that shows something else first. -/
def Fronted (t : Tables) (u : Subtree) : Prop :=
  t.isTerminal u.kind = true ∨ Headed (shownKinds t u.children)

section Merged
variable {t : Tables} {u : Subtree}

theorem Merged.withField (field : Option FieldId) (u : Subtree) (h : Merged t u) :
    Merged t (u.withField field) :=
  ⟨by simpa using h.shown, by simpa using h.error⟩

theorem merged_of_isLeaf (hLeaf : u.isLeaf = true) : Merged t u := by
  have hNone : u.children = [] := List.isEmpty_iff.mp hLeaf
  refine ⟨fun _ => ?_, fun _ => by simp [hNone]⟩
  rw [hNone, shownKinds_nil]
  exact spaced_nil

/-- What a node shows to its siblings. -/
theorem Merged.spaced (h : Merged t u) (hKind : u.kind ≠ errorSymbol) : Spaced (shownKinds t [u]) := by
  cases hHidden : t.isHidden u.kind with
  | true =>
      rw [shownKinds_of_hidden hHidden]
      exact h.shown hKind
  | false =>
      rw [shownKinds_of_shown hHidden]
      exact spaced_singleton hKind

/-- Of a subtree with a front that is no damage something else shows first. -/
theorem Fronted.headed (hShown : ∀ kind, t.isTerminal kind = true → t.isHidden kind = false)
    (hKind : u.kind ≠ errorSymbol) (h : Fronted t u) : Headed (shownKinds t [u]) := by
  cases hHidden : t.isHidden u.kind with
  | true =>
      rw [shownKinds_of_hidden hHidden]
      refine h.resolve_left fun hTerminal => ?_
      simp [hShown _ hTerminal] at hHidden
  | false =>
      rw [shownKinds_of_shown hHidden]
      exact ⟨u.kind, rfl, hKind⟩

end Merged
end IncrementalParsing.Subtree
