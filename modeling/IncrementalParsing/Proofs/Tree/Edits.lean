import IncrementalParsing.Proofs.Tree.Grammatical
import Mathlib.Data.List.Infix

/-! Edits in a row. A tree keeps one edit for all that happened to its text, and this edit makes the
last text of the first one, in whatever order the edits were put together. -/
namespace IncrementalParsing
open Text

namespace Edit
variable {e f g : Edit} {old middle new last : ByteArray}

/-- An edit that leads from a text fits it. -/
theorem Leads.check_eq_ok (h : e.Leads old new) : e.check old.size = .ok () := by
  obtain ⟨hStart, hEnd⟩ := h.oldRange
  have hNew := h.newRange.1
  simp only [check, Nat.not_lt.mpr hStart, Nat.not_lt.mpr hNew, Nat.not_lt.mpr hEnd, if_false]

theorem Leads.lengthAfter_eq (h : e.Leads old new) (hNew : new.size < Offset.bound) :
    e.lengthAfter old.size = new.size :=
  h.resizes.lengthAfter_eq hNew

/-- The new text is what the edit makes of the old one, with the bytes that the new text has in the
range of the edit. -/
theorem Leads.apply_eq_ok (h : e.Leads old new) :
    e.apply old (new.extract e.start e.newEnd) = .ok new := by
  have hCheck := h.check_eq_ok
  obtain ⟨⟨hStart, hEnd⟩, ⟨hStart', hEnd'⟩, hSizes, hBefore, hBehind⟩ := h
  have hLength : (new.extract e.start e.newEnd).size = e.newEnd - e.start := by
    rw [ByteArray.size_extract]
    omega
  simp only [apply, hCheck, hLength, bind, Except.bind, ne_eq, not_true, if_false]
  congr 1
  refine ext_byteAt? fun i => ?_
  have hFront : (old.extract 0 e.start).size = e.start := by
    rw [ByteArray.size_extract]
    omega
  have hHead : (old.extract 0 e.start ++ new.extract e.start e.newEnd).size = e.newEnd := by
    rw [ByteArray.size_append, hFront, hLength]
    omega
  rw [byteAt?_append, hHead, byteAt?_append, hFront, byteAt?_extract, byteAt?_extract,
    byteAt?_extract]
  rcases Nat.lt_or_ge i e.start with hIn | hOut
  · rw [if_pos (by omega), if_pos hIn, if_pos (by omega), Nat.zero_add, hBefore i hIn]
  · rcases Nat.lt_or_ge i e.newEnd with hInside | hOutside
    · rw [if_pos hInside, if_neg (by omega), if_pos (by omega), Nat.add_sub_cancel' hOut]
    · have hByte := hBehind (i - e.newEnd)
      rw [Nat.add_sub_cancel' hOutside] at hByte
      rw [if_neg (by omega), hByte, Nat.min_self]
      split
      · rfl
      · rw [byteAt?_eq_none_iff.mpr (by omega)]

theorem exists_apply {replacement : ByteArray} (hCheck : e.check old.size = .ok ())
    (hLength : replacement.size = e.newEnd - e.start) : ∃ new, e.apply old replacement = .ok new :=
  ⟨_, by simp only [apply, hCheck, hLength, bind, Except.bind, ne_eq, not_true, if_false]; rfl⟩

/-- Between texts that offsets reach, edits are put together without going around. -/
theorem Leads.andThen_eq (h : e.Leads old middle) (hNext : f.Leads middle new)
    (hOld : old.size < Offset.bound) (hNew : new.size < Offset.bound) :
    e.andThen f = ⟨min e.start f.start, f.oldEnd - e.newEnd + e.oldEnd,
      e.newEnd - f.oldEnd + f.newEnd⟩ :=
  h.resizes.andThen_eq hNext.resizes hOld hNew

/-- Of three edits in a row, it does not matter which two are put together first. -/
theorem Leads.andThen_assoc (h : e.Leads old middle) (hNext : f.Leads middle new)
    (hLast : g.Leads new last) (hOld : old.size < Offset.bound) (hMiddle : middle.size < Offset.bound)
    (hNew : new.size < Offset.bound) (hBound : last.size < Offset.bound) :
    (e.andThen f).andThen g = e.andThen (f.andThen g) := by
  rw [(h.andThen hNext hOld hNew).andThen_eq hLast hOld hBound, h.andThen_eq hNext hOld hNew,
    h.andThen_eq (hNext.andThen hLast hMiddle hBound) hOld hBound,
    hNext.andThen_eq hLast hMiddle hBound]
  have hRange := hNext.oldRange.1
  have hRange' := hNext.newRange.1
  simp only [Edit.mk.injEq, Nat.min_assoc, true_and]
  omega

/-- Edits that are made one after the other, each with the bytes that it puts in. -/
def applyAll (edits : List (Edit × ByteArray)) (text : ByteArray) : Except EditError ByteArray :=
  edits.foldlM (fun text (e, replacement) => e.apply text replacement) text

/-- Edits lead from text to text, and offsets reach all of the texts. -/
inductive LeadAll : List Edit → ByteArray → ByteArray → Prop
  | nil {text : ByteArray} (hSize : text.size < Offset.bound) : LeadAll [] text text
  | cons {e : Edit} {es : List Edit} {old middle new : ByteArray} (hFirst : e.Leads old middle)
      (hRest : LeadAll es middle new) (hSize : old.size < Offset.bound) : LeadAll (e :: es) old new

theorem LeadAll.bounds {es : List Edit} (h : LeadAll es old new) :
    old.size < Offset.bound ∧ new.size < Offset.bound := by
  induction h with
  | nil hSize => exact ⟨hSize, hSize⟩
  | cons _ _ hSize ih => exact ⟨hSize, ih.2⟩

theorem LeadAll.split {es fs : List Edit} (h : LeadAll (es ++ fs) old new) :
    ∃ middle, LeadAll es old middle ∧ LeadAll fs middle new := by
  induction es generalizing old with
  | nil => exact ⟨old, .nil h.bounds.1, h⟩
  | cons e es ih =>
      cases h with
      | cons hFirst hRest hSize =>
          obtain ⟨middle, hFront, hBack⟩ := ih hRest
          exact ⟨middle, .cons hFirst hFront hSize, hBack⟩

/-- Put together one after the other, edits are one edit. -/
theorem LeadAll.foldl {es : List Edit} (hFirst : e.Leads old middle) (hOld : old.size < Offset.bound)
    (h : LeadAll es middle new) : (es.foldl Edit.andThen e).Leads old new := by
  induction h generalizing e with
  | nil => exact hFirst
  | cons hNext hRest _ ih => exact ih (hFirst.andThen hNext hOld hRest.bounds.1)

/-- An edit in front of edits that were put together is put together with the first of them. -/
theorem LeadAll.andThen_foldl {es : List Edit} (hFirst : e.Leads old middle)
    (hOld : old.size < Offset.bound) (hMiddle : middle.size < Offset.bound)
    (hNext : f.Leads middle new) (h : LeadAll es new last) :
    e.andThen (es.foldl Edit.andThen f) = es.foldl Edit.andThen (e.andThen f) := by
  induction h generalizing f with
  | nil => rfl
  | cons hHead hRest hSize ih =>
      rw [List.foldl_cons, List.foldl_cons, ih (hNext.andThen hHead hMiddle hRest.bounds.1),
        hFirst.andThen_assoc hNext hHead hOld hMiddle hSize hRest.bounds.1]

/-- Edits in a row, with the order in which neighbours are put together. -/
inductive Bracketing where
  | single (e : Edit)
  | pair (front back : Bracketing)

namespace Bracketing

/-- The edits from first to last. -/
def edits : Bracketing → List Edit
  | single e => [e]
  | pair front back => front.edits ++ back.edits

/-- What the edits are put together to. -/
def whole : Bracketing → Edit
  | single e => e
  | pair front back => front.whole.andThen back.whole

theorem exists_edits (b : Bracketing) : ∃ e es, b.edits = e :: es := by
  induction b with
  | single e => exact ⟨e, [], rfl⟩
  | pair front back hFront hBack =>
      obtain ⟨e, es, hEdits⟩ := hFront
      exact ⟨e, es ++ back.edits, by rw [edits, hEdits, List.cons_append]⟩

/-- In whatever order edits are put together, the result is that of doing so one after the other. -/
theorem whole_eq_foldl (b : Bracketing) {es : List Edit} (hEdits : b.edits = e :: es)
    (h : LeadAll (e :: es) old new) : b.whole = es.foldl Edit.andThen e := by
  induction b generalizing e es old new with
  | single first =>
      obtain ⟨rfl, rfl⟩ : first = e ∧ [] = es := by simpa [edits] using hEdits
      rfl
  | pair front back hFront hBack =>
      obtain ⟨first, firsts, hFirsts⟩ := front.exists_edits
      obtain ⟨second, seconds, hSeconds⟩ := back.exists_edits
      rw [edits, hFirsts, hSeconds, List.cons_append, List.cons.injEq] at hEdits
      obtain ⟨rfl, rfl⟩ := hEdits
      rw [← List.cons_append] at h
      obtain ⟨middle, hFronts, hBacks⟩ := h.split
      rw [whole, hFront hFirsts hFronts, hBack hSeconds hBacks, List.foldl_append, List.foldl_cons]
      cases hFronts with
      | cons hFirst hRest hOld =>
      cases hBacks with
      | cons hSecond hBehind hMiddle =>
      exact hBehind.andThen_foldl (hRest.foldl hFirst hOld) hOld hMiddle hSecond

end Bracketing
end Edit

namespace Tree
variable {tree edited : Tree} {text new : ByteArray}

/-- Records edits of the text one after the other. -/
def applyEdits (t : Tree) (edits : List Edit) : Except EditError Tree := edits.foldlM applyEdit t

theorem applyEdits_cons_eq_ok {e : Edit} {es : List Edit} : tree.applyEdits (e :: es) = .ok edited ↔
    ∃ next, tree.applyEdit e = .ok next ∧ next.applyEdits es = .ok edited := by
  cases hEdit : tree.applyEdit e <;> simp [applyEdits, hEdit, bind, Except.bind]

/-- Edits leave the nodes of a tree as they are, and become one edit. -/
theorem kept_of_applyEdits {es : List Edit} (hAccepted : tree.applyEdits es = .ok edited) :
    edited.root = tree.root
      ∧ edited.edit = es.foldl (fun kept e => some (kept.elim e (·.andThen e))) tree.edit := by
  induction es generalizing tree with
  | nil =>
      obtain rfl := Except.ok.inj hAccepted
      exact ⟨rfl, rfl⟩
  | cons e es ih =>
      obtain ⟨next, hEdit, hRest⟩ := applyEdits_cons_eq_ok.mp hAccepted
      obtain ⟨hRoot, hKept⟩ := ih hRest
      rw [hKept, hRoot, (applyEdit_eq_ok_iff.mp hEdit).2]
      exact ⟨rfl, rfl⟩

/-- Edits that a tree accepts can be made of its text, if each comes with as many bytes as it says. -/
theorem applyEdits_eq_ok {edits : List (Edit × ByteArray)} (hLength : tree.length = text.size)
    (hAccepted : tree.applyEdits (edits.map (·.1)) = .ok edited)
    (hReplaced : ∀ x ∈ edits, x.2.size = x.1.newEnd - x.1.start)
    (hBounds : ∀ front, front <+: edits → ∀ middle, Edit.applyAll front text = .ok middle →
      middle.size < Offset.bound) :
    ∃ new, Edit.applyAll edits text = .ok new ∧ edited.length = new.size
      ∧ Edit.LeadAll (edits.map (·.1)) text new := by
  have hSize : text.size < Offset.bound := hBounds [] List.nil_prefix text rfl
  induction edits generalizing tree text with
  | nil =>
      obtain rfl := Except.ok.inj hAccepted
      exact ⟨text, rfl, hLength, .nil hSize⟩
  | cons x edits ih =>
      obtain ⟨e, replacement⟩ := x
      obtain ⟨next, hEdit, hRest⟩ := applyEdits_cons_eq_ok.mp hAccepted
      obtain ⟨hCheck, hNext⟩ := applyEdit_eq_ok_iff.mp hEdit
      rw [hLength] at hCheck
      obtain ⟨middle, hApply⟩ := Edit.exists_apply hCheck (hReplaced _ List.mem_cons_self)
      have hFirst := Edit.leads_of_apply hApply
      have hOn : ∀ front, Edit.applyAll ((e, replacement) :: front) text
          = Edit.applyAll front middle := by
        intro front
        simp [Edit.applyAll, hApply, bind, Except.bind]
      have hMiddle : middle.size < Offset.bound :=
        hBounds [(e, replacement)] (by simp) middle (by rw [hOn]; rfl)
      have hNextLength : next.length = middle.size := by
        rw [hNext, hLength]
        exact hFirst.lengthAfter_eq hMiddle
      obtain ⟨new, hAll, hSame, hLeads⟩ := ih hNextLength hRest
        (fun y hMem => hReplaced y (List.mem_cons_of_mem _ hMem))
        (fun front hFront last hLast =>
          hBounds _ (List.cons_prefix_cons.mpr ⟨rfl, hFront⟩) last ((hOn front).trans hLast))
        hMiddle
      exact ⟨new, (hOn edits).trans hAll, hSame, .cons hFirst hLeads hSize⟩

theorem foldl_kept (edits : List Edit) (e : Edit) :
    edits.foldl (fun kept e => some (kept.elim e (·.andThen e))) (some e)
      = some (edits.foldl Edit.andThen e) := by
  induction edits generalizing e with
  | nil => rfl
  | cons f edits ih => exact ih (e.andThen f)

/-- However many edits a tree of a text has accepted, they are one edit of this text. It fits the
text, it makes the last text of it, and it does not matter in which order it was put together. -/
theorem applyEdits_is_edit {edits : List (Edit × ByteArray)} (hLength : tree.length = text.size)
    (hParsed : tree.edit = none) (hAccepted : tree.applyEdits (edits.map (·.1)) = .ok edited)
    (hReplaced : ∀ x ∈ edits, x.2.size = x.1.newEnd - x.1.start)
    (hBounds : ∀ front, front <+: edits → ∀ middle, Edit.applyAll front text = .ok middle →
      middle.size < Offset.bound) :
    ∃ new, Edit.applyAll edits text = .ok new ∧ edited.length = new.size
      ∧ (edits = [] → edited.edit = none)
      ∧ (edits ≠ [] → ∃ e, edited.edit = some e
        ∧ e.check text.size = .ok () ∧ e.lengthAfter text.size = new.size
        ∧ (∀ i < e.start, byteAt? new i = byteAt? text i)
        ∧ (∀ i, byteAt? new (e.newEnd + i) = byteAt? text (e.oldEnd + i))
        ∧ e.apply text (new.extract e.start e.newEnd) = .ok new
        ∧ ∀ b : Edit.Bracketing, b.edits = edits.map (·.1) → b.whole = e) := by
  obtain ⟨new, hAll, hSame, hLeads⟩ := applyEdits_eq_ok hLength hAccepted hReplaced hBounds
  have hKept := (kept_of_applyEdits hAccepted).2
  rw [hParsed] at hKept
  refine ⟨new, hAll, hSame, fun hNone => ?_, fun hSome => ?_⟩
  · rw [hKept, hNone]
    rfl
  · obtain ⟨⟨first, replacement⟩, rest, rfl⟩ := List.exists_cons_of_ne_nil hSome
    rw [List.map_cons] at hLeads hKept
    cases hLeads with
    | cons hFirst hRest hOld =>
        have hWhole := hRest.foldl hFirst hOld
        refine ⟨_, hKept.trans (foldl_kept _ _), hWhole.check_eq_ok,
          hWhole.lengthAfter_eq hRest.bounds.2, hWhole.before, hWhole.behind, hWhole.apply_eq_ok, ?_⟩
        exact fun b hEdits => b.whole_eq_foldl hEdits (.cons hFirst hRest hOld)

theorem exists_applyEdit {e : Edit} {length : Nat} (hLength : tree.length = length)
    (hCheck : e.check length = .ok ()) :
    ∃ edited, tree.applyEdit e = .ok edited ∧ edited.length = e.lengthAfter length := by
  subst hLength
  exact ⟨_, applyEdit_eq_ok_iff.mpr ⟨hCheck, rfl⟩, rfl⟩

/-- The second edit changes what the first one put in and a byte in front of it. -/
theorem applyEdits_is_edit_of_three : ∃ tree edited : Tree, ∃ new e,
    Labels.parser.parse "a5:x5".toUTF8 = some tree
      ∧ tree.applyEdits [⟨5, 5, 7⟩, ⟨4, 6, 5⟩, ⟨0, 1, 2⟩] = .ok edited
      ∧ Edit.applyAll [(⟨5, 5, 7⟩, "b:".toUTF8), (⟨4, 6, 5⟩, "c".toUTF8), (⟨0, 1, 2⟩, "zz".toUTF8)]
          "a5:x5".toUTF8 = .ok new
      ∧ edited.length = new.size ∧ edited.edit = some e
      ∧ e.apply "a5:x5".toUTF8 (new.extract e.start e.newEnd) = .ok new
      ∧ (Edit.andThen ⟨5, 5, 7⟩ ⟨4, 6, 5⟩).andThen ⟨0, 1, 2⟩ = e
      ∧ Edit.andThen ⟨5, 5, 7⟩ (Edit.andThen ⟨4, 6, 5⟩ ⟨0, 1, 2⟩) = e := by
  have hSize : "a5:x5".toUTF8.size = 5 := by decide +kernel
  let edits : List (Edit × ByteArray) :=
    [(⟨5, 5, 7⟩, "b:".toUTF8), (⟨4, 6, 5⟩, "c".toUTF8), (⟨0, 1, 2⟩, "zz".toUTF8)]
  have hReplaced : ∀ x ∈ edits, x.2.size = x.1.newEnd - x.1.start := by decide +kernel
  have hSizes : ∀ front ∈ edits.inits,
      (Edit.applyAll front "a5:x5".toUTF8).toOption.elim true (·.size < 10) = true := by
    decide +kernel
  have hBounds : ∀ front, front <+: edits → ∀ middle,
      Edit.applyAll front "a5:x5".toUTF8 = .ok middle → middle.size < Offset.bound := by
    intro front hFront middle hMiddle
    have hSmall := hSizes front ((List.mem_inits _ _).mpr hFront)
    rw [hMiddle] at hSmall
    exact Nat.lt_trans (of_decide_eq_true hSmall) (by decide)
  have hSome : (Labels.parser.parse "a5:x5".toUTF8).isSome = true := by decide +kernel
  obtain ⟨tree, hParse⟩ := Option.isSome_iff_exists.mp hSome
  obtain ⟨hLength, hParsed⟩ : tree.length = 5 ∧ tree.edit = none := by
    obtain ⟨made, -, hMade⟩ := Parser.runWith_eq_some hParse
    rw [hMade]
    exact ⟨hSize, rfl⟩
  obtain ⟨edited, hAccepted⟩ : ∃ edited, tree.applyEdits (edits.map (·.1)) = .ok edited := by
    obtain ⟨first, hFirst, hNext⟩ := @exists_applyEdit _ ⟨5, 5, 7⟩ _ hLength rfl
    obtain ⟨second, hSecond, hNext⟩ := @exists_applyEdit _ ⟨4, 6, 5⟩ _ hNext rfl
    obtain ⟨third, hThird, -⟩ := @exists_applyEdit _ ⟨0, 1, 2⟩ _ hNext rfl
    exact ⟨third, by simp [edits, applyEdits, hFirst, hSecond, hThird, bind, Except.bind, pure,
      Except.pure]⟩
  obtain ⟨new, hAll, hNew, -, hEdit⟩ :=
    applyEdits_is_edit (hLength.trans hSize.symm) hParsed hAccepted hReplaced hBounds
  obtain ⟨e, hKept, -, -, -, -, hApply, hWhole⟩ := hEdit (by simp [edits])
  refine ⟨tree, edited, new, e, hParse, hAccepted, hAll, hNew, hKept, hApply, ?_, ?_⟩
  · exact hWhole (.pair (.pair (.single _) (.single _)) (.single _)) rfl
  · exact hWhole (.pair (.single _) (.pair (.single _) (.single _))) rfl

end Tree
end IncrementalParsing
