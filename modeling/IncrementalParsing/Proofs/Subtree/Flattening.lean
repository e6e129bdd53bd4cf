import IncrementalParsing.Tables.Basic
import IncrementalParsing.Proofs.Subtree.Leaves

/-! When the children of a node follow a rule. Hidden parts of the rule are replaced by what they
derive, error nodes do not count, and an inserted token counts as its terminal. -/
namespace IncrementalParsing
open Subtree

/-- A sequence of kinds, each with the part it plays. -/
abbrev Outline := List (SymbolId × Option FieldId)

/-- Slots in which every hidden symbol has been replaced by the right-hand side of one of its rules,
over and over. A part without a field takes that of the nearest hidden slot around it, and `outer`
if there is none. -/
inductive Flattens (t : Tables) : List Slot → (outer : Option FieldId) → Outline → Prop
  | nil (outer : Option FieldId) : Flattens t [] outer []
  | shown {slot : Slot} {slots : List Slot} {outer : Option FieldId} {rest : Outline}
      (hShown : t.isHidden slot.symbol = false) (hRest : Flattens t slots outer rest) :
      Flattens t (slot :: slots) outer ((slot.symbol, slot.field.or outer) :: rest)
  | hidden {slot : Slot} {slots : List Slot} {outer : Option FieldId} {inner rest : Outline}
      {rule : Production} (hHidden : t.isHidden slot.symbol = true) (hRule : rule ∈ t.rules)
      (hLhs : rule.lhs = slot.symbol) (hInner : Flattens t rule.rhs (slot.field.or outer) inner)
      (hRest : Flattens t slots outer rest) : Flattens t (slot :: slots) outer (inner ++ rest)

/-- One step of a derivation from a symbol, with its hidden parts replaced. -/
def Derives (t : Tables) (symbol : SymbolId) (found : Outline) : Prop :=
  ∃ rule ∈ t.rules, rule.lhs = symbol ∧ Flattens t rule.rhs none found

/-- Nothing hidden is left in a flattened rule. -/
theorem Flattens.shown_of_mem {t : Tables} {slots : List Slot} {outer : Option FieldId} {found : Outline}
    (h : Flattens t slots outer found) : ∀ part ∈ found, t.isHidden part.1 = false := by
  induction h with
  | nil => simp
  | shown hShown _ ih =>
      intro part hMem
      rcases List.mem_cons.mp hMem with rfl | hMem
      · exact hShown
      · exact ih part hMem
  | hidden _ _ _ _ _ ihInner ihRest =>
      intro part hMem
      rcases List.mem_append.mp hMem with hMem | hMem
      · exact ihInner part hMem
      · exact ihRest part hMem

namespace Subtree

/-- Kinds and fields of the subtrees that are no error nodes. -/
def outline (ts : List Subtree) : Outline :=
  (ts.filter fun t => t.kind != errorSymbol).map fun t => (t.kind, t.field)

@[simp] theorem outline_nil : outline [] = [] := rfl

/-- An `ERROR` node stands for no symbol of the rule it lies in. -/
theorem outline_cons_of_error {t : Subtree} (hKind : t.kind = errorSymbol) (ts : List Subtree) :
    outline (t :: ts) = outline ts := by
  simp [outline, hKind]

/-- Every other node stands for its own. -/
theorem outline_cons_of_ne {t : Subtree} (hKind : t.kind ≠ errorSymbol) (ts : List Subtree) :
    outline (t :: ts) = (t.kind, t.field) :: outline ts := by
  simp [outline, hKind]

@[simp] theorem outline_append (ts us : List Subtree) :
    outline (ts ++ us) = outline ts ++ outline us := by
  simp [outline]

/-- A field that is handed down goes to the nodes that have none of their own. -/
theorem outline_map_orField (field : Option FieldId) (ts : List Subtree) :
    outline (ts.map (orField field)) = (outline ts).map fun part => (part.1, part.2.or field) := by
  induction ts with
  | nil => rfl
  | cons t ts ih =>
      by_cases hKind : t.kind = errorSymbol
      · rw [List.map_cons, outline_cons_of_error (by simpa using hKind), ih,
          outline_cons_of_error hKind]
      · rw [List.map_cons, outline_cons_of_ne (by simpa using hKind), ih, outline_cons_of_ne hKind]
        simp

/-- Symbols and fields of slots. -/
def slotOutline (slots : List Slot) : Outline := slots.map fun slot => (slot.symbol, slot.field)

/-- A node follows a rule. The children of a hidden node stand for the slots of the rule one by one,
those of any other node for the slots with all hidden parts replaced. -/
structure Grammatical (t : Tables) (u : Subtree) : Prop where
  inner : u.isLeaf = false → u.kind = errorSymbol ∨ ∃ rule ∈ t.rules, rule.lhs = u.kind
  hidden : t.isTerminal u.kind = false → t.isHidden u.kind = true →
    ∃ rule ∈ t.rules, rule.lhs = u.kind ∧ outline u.children = slotOutline rule.rhs
  shown : t.isTerminal u.kind = false → t.isHidden u.kind = false →
    Derives t u.kind (outline u.children)

variable {t : Tables}

/-- Whether a node follows its rule does not depend on the field it fills. -/
theorem Grammatical.withField (field : Option FieldId) (u : Subtree) (h : Grammatical t u) :
    Grammatical t (u.withField field) :=
  ⟨by simpa using h.inner, by simpa using h.hidden, by simpa using h.shown⟩

/-- Terminals follow no rule. -/
theorem Grammatical.of_terminal {u : Subtree} (hTerminal : t.isTerminal u.kind = true)
    (hLeaf : u.isLeaf = true) : Grammatical t u where
  inner := by simp [hLeaf]
  hidden := by simp [hTerminal]
  shown := by simp [hTerminal]

/-- Nodes that stand for slots one by one stand for the slots with all hidden parts replaced, once
the hidden nodes among them have been replaced by their children. -/
theorem flattens_unwrapped (hShown : ∀ kind, t.isTerminal kind = true → t.isHidden kind = false)
    (hError : t.isTerminal errorSymbol = true) (us : List Subtree)
    (hGrammatical : ∀ u ∈ us, All (Grammatical t) u) (slots : List Slot) (outer : Option FieldId)
    (hSlots : outline us = slots.map fun slot => (slot.symbol, slot.field.or outer)) :
    Flattens t slots outer (outline (unwrapped (t.isHidden ·.kind) us)) := by
  induction us using unwrapped_induction (t.isHidden ·.kind)
    generalizing slots outer with
  | nil =>
      obtain rfl : slots = [] := by simpa using hSlots.symm
      simpa using Flattens.nil outer
  | opened u us hOpens ihChildren ih =>
      have hTerminal : t.isTerminal u.kind = false := by
        refine Bool.eq_false_iff.mpr fun hTerminal => ?_
        simp [hShown _ hTerminal] at hOpens
      have hKind : u.kind ≠ errorSymbol := by
        intro hKind
        simp [hKind, hError] at hTerminal
      have hHead : All (Grammatical t) u := hGrammatical u (by simp)
      obtain ⟨rule, hRule, hLhs, hChildren⟩ := hHead.self.hidden hTerminal hOpens
      rw [outline_cons_of_ne hKind] at hSlots
      cases slots with
      | nil => simp at hSlots
      | cons slot slots =>
          obtain ⟨⟨hSymbol, hField⟩, hRest⟩ : (u.kind = slot.symbol
              ∧ u.field = slot.field.or outer) ∧ outline us
                = slots.map fun slot => (slot.symbol, slot.field.or outer) := by
            simpa using hSlots
          rw [unwrapped_of_opens hOpens, outline_append]
          refine .hidden (hSymbol ▸ hOpens) hRule (hLhs.trans hSymbol) ?_ ?_
          · refine ihChildren ?_ _ _ ?_
            · intro c hMem
              obtain ⟨d, hChild, rfl⟩ := List.mem_map.mp hMem
              exact (hHead.child hChild).withField Grammatical.withField _
            · rw [outline_map_orField, hChildren, hField]
              simp [slotOutline]
          · exact ih (fun v hMem => hGrammatical v (by simp [hMem])) slots outer hRest
  | closed u us hClosed ih =>
      have hTail := fun v (hMem : v ∈ us) => hGrammatical v (by simp [hMem])
      rw [unwrapped_of_not_opens hClosed]
      by_cases hKind : u.kind = errorSymbol
      · rw [outline_cons_of_error hKind] at hSlots ⊢
        exact ih hTail slots outer hSlots
      · rw [outline_cons_of_ne hKind] at hSlots ⊢
        cases slots with
        | nil => simp at hSlots
        | cons slot slots =>
            obtain ⟨⟨hSymbol, hField⟩, hRest⟩ : (u.kind = slot.symbol
                ∧ u.field = slot.field.or outer) ∧ outline us
                  = slots.map fun slot => (slot.symbol, slot.field.or outer) := by
              simpa using hSlots
            rw [hSymbol, hField]
            exact .shown (hSymbol ▸ hClosed) (ih hTail slots outer hRest)

/-- Where nothing is to be opened, nothing is. -/
theorem unwrapped_eq_self {opens : Subtree → Bool} (us : List Subtree)
    (hClosed : ∀ u ∈ us, opens u = false) : unwrapped opens us = us := by
  induction us with
  | nil => exact unwrapped_nil opens
  | cons u us ih =>
      rw [unwrapped_of_not_opens (hClosed u (by simp)), ih fun v hMem => hClosed v (by simp [hMem])]

end Subtree
end IncrementalParsing
