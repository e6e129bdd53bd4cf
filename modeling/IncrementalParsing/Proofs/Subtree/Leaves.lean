import IncrementalParsing.Language
import IncrementalParsing.Proofs.Subtree.Unwrap
import Mathlib.Algebra.Ring.Nat

/-! The tokens below a subtree, read from left to right, and where they lie. Building a node over
its children and taking one apart again leaves them alone. -/
namespace IncrementalParsing.Subtree

mutual
/-- The property holds of the subtree and of every node below it. -/
def All (P : Subtree → Prop) : Subtree → Prop
  | mk info field children => P (mk info field children) ∧ AllIn P children

/-- The property holds of every node of several subtrees. -/
def AllIn (P : Subtree → Prop) : List Subtree → Prop
  | [] => True
  | t :: ts => All P t ∧ AllIn P ts
end

section All
variable {P Q : Subtree → Prop}

/-- To hold everywhere in a list is to hold everywhere in each of its subtrees. -/
theorem allIn_iff {ts : List Subtree} : AllIn P ts ↔ ∀ t ∈ ts, All P t := by
  induction ts with
  | nil => simp [AllIn]
  | cons t ts ih => simp [AllIn, ih]

/-- What holds everywhere in a subtree holds at its top, and everywhere below. -/
theorem all_iff {t : Subtree} : All P t ↔ P t ∧ ∀ c ∈ t.children, All P c := by
  cases t
  simp [All, allIn_iff, children]

theorem All.self {t : Subtree} (h : All P t) : P t := (all_iff.mp h).1

theorem All.child {t c : Subtree} (h : All P t) (hMem : c ∈ t.children) : All P c :=
  (all_iff.mp h).2 c hMem

/-- A property of nodes that does not look at the part they play survives a change of part. -/
theorem All.withField (hField : ∀ field t, P t → P (t.withField field)) {t : Subtree}
    (h : All P t) (field : Option FieldId) : All P (t.withField field) := by
  rw [all_iff] at h ⊢
  exact ⟨hField field t h.1, by simpa using h.2⟩

/-- What does not depend on parts is kept when nodes are taken apart. -/
theorem forall_all_unwrapped (hField : ∀ field t, P t → P (t.withField field))
    {opens : Subtree → Bool} (ts : List Subtree) (h : ∀ t ∈ ts, All P t) :
    ∀ t ∈ unwrapped opens ts, All P t := by
  induction ts using unwrapped_induction opens with
  | nil => simp
  | opened t ts hOpens ihChildren ih =>
      rw [unwrapped_of_opens hOpens]
      have hHead : All P t := h t (by simp)
      have hChildren : ∀ c ∈ t.children.map (orField t.field), All P c := by
        intro c hMem
        obtain ⟨d, hChild, rfl⟩ := List.mem_map.mp hMem
        exact (hHead.child hChild).withField hField _
      intro u hMem
      rcases List.mem_append.mp hMem with hMem | hMem
      · exact ihChildren hChildren u hMem
      · exact ih (fun t hMem => h t (by simp [hMem])) u hMem
  | closed t ts hClosed ih =>
      rw [unwrapped_of_not_opens hClosed]
      intro u hMem
      rcases List.mem_cons.mp hMem with rfl | hMem
      · exact h u (by simp)
      · exact ih (fun t hMem => h t (by simp [hMem])) u hMem

end All

/-- What a token shows of itself. -/
def token (info : NodeInfo) : Token := ⟨info.kind, info.padding, info.size, info.lookahead⟩

mutual
/-- The tokens of a subtree: its nodes without children, unless they have no width. -/
def leaves : Subtree → List Token
  | mk info _ [] => if 0 < info.padding + info.size then [token info] else []
  | mk _ _ (t :: ts) => leavesAll (t :: ts)

/-- The tokens of subtrees side by side. -/
def leavesAll : List Subtree → List Token
  | [] => []
  | t :: ts => leaves t ++ leavesAll ts
end

mutual
/-- The tokens of a subtree that starts at `start`, each with where its padding starts. -/
def placedLeaves (start : Nat) : Subtree → List (Nat × Token)
  | mk info _ [] => if 0 < info.padding + info.size then [(start, token info)] else []
  | mk _ _ (t :: ts) => placedLeavesAll start (t :: ts)

/-- The same for subtrees side by side. -/
def placedLeavesAll (start : Nat) : List Subtree → List (Nat × Token)
  | [] => []
  | t :: ts => placedLeaves start t ++ placedLeavesAll (start + t.total) ts
end

/-- Tokens that follow each other without a gap from `start` on. -/
def inSequence : (start : Nat) → List Token → List (Nat × Token)
  | _, [] => []
  | start, t :: ts => (start, t) :: inSequence (start + t.width) ts

/-- More tokens lie where the first ones end. -/
theorem inSequence_append (start : Nat) (ts us : List Token) :
    inSequence start (ts ++ us) =
      inSequence start ts ++ inSequence (start + (ts.map Token.width).sum) us := by
  induction ts generalizing start with
  | nil => simp [inSequence]
  | cons t ts ih => simp [inSequence, ih, Nat.add_assoc]

@[simp] theorem leavesAll_nil : leavesAll [] = [] := by simp [leavesAll]

@[simp] theorem leavesAll_cons (t : Subtree) (ts : List Subtree) :
    leavesAll (t :: ts) = t.leaves ++ leavesAll ts := by
  simp [leavesAll]

/-- Tokens of subtrees side by side are those of one behind those of the other. -/
@[simp] theorem leavesAll_append (ts us : List Subtree) :
    leavesAll (ts ++ us) = leavesAll ts ++ leavesAll us := by
  induction ts with
  | nil => simp
  | cons t ts ih => simp [ih]

/-- A node has the tokens of its children. -/
theorem leaves_of_children {t : Subtree} (h : t.children ≠ []) :
    t.leaves = leavesAll t.children := by
  obtain ⟨info, field, _ | ⟨c, cs⟩⟩ := t
  · simp [children] at h
  · rw [leaves]; rfl

/-- A subtree without children is a token itself, if it has a width. -/
theorem leaves_of_no_children {t : Subtree} (h : t.children = []) :
    t.leaves = if 0 < t.total then [token t.info] else [] := by
  obtain ⟨info, field, _ | ⟨c, cs⟩⟩ := t
  · rfl
  · simp [children] at h

/-- What part a subtree plays is no matter for its tokens. -/
@[simp] theorem leaves_withField (field : Option FieldId) (t : Subtree) :
    (t.withField field).leaves = t.leaves := by
  obtain ⟨info, field, _ | ⟨c, cs⟩⟩ := t <;> simp [withField, leaves]

theorem leavesAll_map_withField (fields : Subtree → Option FieldId) (ts : List Subtree) :
    leavesAll (ts.map fun t => t.withField (fields t)) = leavesAll ts := by
  induction ts with
  | nil => rfl
  | cons t ts ih => simp [ih]

/-- Subtrees that differ only in the parts they play have the same tokens. -/
theorem leavesAll_congr {ts us : List Subtree}
    (hSame : ts.map (withField none) = us.map (withField none)) : leavesAll ts = leavesAll us := by
  rw [← leavesAll_map_withField (fun _ => none) ts, ← leavesAll_map_withField (fun _ => none) us]
  exact congrArg leavesAll hSame

theorem leavesAll_map_orField (field : Option FieldId) (ts : List Subtree) :
    leavesAll (ts.map (orField field)) = leavesAll ts :=
  leavesAll_map_withField (fun t => t.field.or field) ts

/-- What the kinds of a language mean for a tree: which of them are taken apart, and which are
given to tokens that nothing accepts. -/
structure Kinds where
  spliced : SymbolId → Bool
  invalid : SymbolId → Bool

/-- A subtree without children has a width only if its kind is not one that is taken apart. -/
def Plain (kinds : Kinds) (t : Subtree) : Prop :=
  t.children = [] → kinds.spliced t.kind = true → t.total = 0

/-- A node above other nodes says that each of them starts where those in front of it end. -/
def Laid (t : Subtree) : Prop := t.children ≠ [] → t.info.offsets = offsetsFrom 0 t.children

@[simp] theorem offsetsFrom_cons (offset : Nat) (t : Subtree) (ts : List Subtree) :
    offsetsFrom offset (t :: ts) = offset :: offsetsFrom (offset + t.total) ts := rfl

/-- Subtrees side by side start where those in front of them end. -/
theorem getD_offsetsFrom {ts : List Subtree} {i : Nat} {t : Subtree} (hAt : ts[i]? = some t)
    (offset : Nat) : (offsetsFrom offset ts).getD i 0 = offset + width (ts.take i) := by
  induction ts generalizing offset i with
  | nil => simp at hAt
  | cons u ts ih =>
      cases i with
      | zero => rfl
      | succ i =>
          rw [offsetsFrom_cons, List.getD_cons_succ, ih (by simpa using hAt), List.take_succ_cons, width_cons,
            Nat.add_assoc]

/-- A child is where those in front of it end. -/
theorem Laid.getD {t c : Subtree} {i : Nat} (h : Laid t) (hAt : t.children[i]? = some c) :
    t.info.offsets.getD i 0 = width (t.children.take i) := by
  have hSome : t.children ≠ [] := fun hNone => by simp [hNone] at hAt
  rw [h hSome, getD_offsetsFrom hAt, Nat.zero_add]

theorem Laid.withField {t : Subtree} (field : Option FieldId) (h : Laid t) : Laid (t.withField field) := by
  simpa [Laid] using h

/-- A node above other nodes is as wide as they are, starts where the first of them with a size
does, read at least as far to be built, and is damaged if one of them is. It says where its children
start. They are plain, but error nodes may hold anything. -/
structure Measured (kinds : Kinds) (t : Subtree) : Prop where
  laid : Laid t
  total : t.children ≠ [] → t.total = width t.children
  padding : t.children ≠ [] → t.padding = leading t.children
  reach : t.children ≠ [] → reach t.children ≤ t.total + t.lookahead
  plain : t.kind ≠ errorSymbol → ∀ c ∈ t.children, Plain kinds c
  damaged : ∀ c ∈ t.children, c.hasError = true → t.hasError = true
  marked : t.children = [] → 0 < t.total → kinds.invalid t.kind = true → t.hasError = true

/-- Nodes that are opened have no width of their own, whatever part they play. -/
structure Opener (kinds : Kinds) (opens : Subtree → Bool) : Prop where
  field : ∀ field t, opens (t.withField field) = opens t
  child : ∀ t, Measured kinds t → opens t = true →
    ∀ c ∈ t.children, opens c = true → c.children = [] → c.total = 0

section Measured
variable {kinds : Kinds} {opens : Subtree → Bool}

/-- What part a subtree plays is no matter for its measures. -/
theorem Measured.withField (field : Option FieldId) (t : Subtree) (h : Measured kinds t) :
    Measured kinds (t.withField field) :=
  ⟨h.laid.withField field, by simpa using h.total, by simpa [Subtree.padding] using h.padding,
    by simpa [lookahead] using h.reach, by simpa using h.plain,
    by simpa [hasError] using h.damaged, by simpa [hasError] using h.marked⟩

theorem Plain.withField {t : Subtree} (field : Option FieldId) (h : Plain kinds t) :
    Plain kinds (t.withField field) := by
  simpa [Plain] using h

/-- Hidden nodes hold their tokens in their children. -/
theorem opener_kind {p : SymbolId → Bool} (hHidden : ∀ k, p k = true → kinds.spliced k = true)
    (hError : p errorSymbol = false) : Opener kinds fun t => p t.kind where
  field := by simp
  child := by
    intro t hMeasured hOpens c hMem hChild hNone
    refine hMeasured.plain ?_ c hMem hNone (hHidden _ hChild)
    intro hKind
    simp [hKind, hError] at hOpens

/-- Unwrapping keeps the tokens and their widths. -/
theorem unwrapped_conserves (hOpener : Opener kinds opens) (ts : List Subtree)
    (hTop : ∀ t ∈ ts, opens t = true → t.children = [] → t.total = 0)
    (h : ∀ t ∈ ts, All (Measured kinds) t) :
    leavesAll (unwrapped opens ts) = leavesAll ts ∧ width (unwrapped opens ts) = width ts := by
  induction ts using unwrapped_induction opens with
  | nil => simp
  | opened t ts hOpens ihChildren ih =>
      have hHead : All (Measured kinds) t := h t (by simp)
      have hTail := ih (fun u hMem => hTop u (by simp [hMem])) fun u hMem => h u (by simp [hMem])
      have hChildren := ihChildren
        (by
          intro c hMem hChild hNone
          obtain ⟨d, hOld, rfl⟩ := List.mem_map.mp hMem
          rw [orField, hOpener.field] at hChild
          simpa using hOpener.child t hHead.self hOpens d hOld hChild (by simpa using hNone))
        (by
          intro c hMem
          obtain ⟨d, hChild, rfl⟩ := List.mem_map.mp hMem
          exact (hHead.child hChild).withField Measured.withField _)
      rw [leavesAll_map_orField, width_map_orField] at hChildren
      rw [unwrapped_of_opens hOpens, leavesAll_append, leavesAll_cons, width_append, width_cons,
        hTail.1, hTail.2, hChildren.1, hChildren.2]
      by_cases hNone : t.children = []
      · rw [leaves_of_no_children hNone, hNone, hTop t (by simp) hOpens hNone]
        simp
      · rw [leaves_of_children hNone, hHead.self.total hNone]
        exact ⟨rfl, rfl⟩
  | closed t ts hClosed ih =>
      have hTail := ih (fun u hMem => hTop u (by simp [hMem])) fun u hMem => h u (by simp [hMem])
      rw [unwrapped_of_not_opens hClosed, leavesAll_cons, leavesAll_cons, width_cons, width_cons,
        hTail.1, hTail.2]
      exact ⟨rfl, rfl⟩

/-- What comes out of plain subtrees is plain. -/
theorem plain_of_mem_unwrapped (hError : ∀ t, opens t = true → t.kind ≠ errorSymbol)
    (ts : List Subtree) (hTop : ∀ t ∈ ts, Plain kinds t)
    (h : ∀ t ∈ ts, All (Measured kinds) t) : ∀ t ∈ unwrapped opens ts, Plain kinds t := by
  induction ts using unwrapped_induction opens with
  | nil => simp
  | opened t ts hOpens ihChildren ih =>
      have hHead : All (Measured kinds) t := h t (by simp)
      rw [unwrapped_of_opens hOpens]
      intro u hMem
      rcases List.mem_append.mp hMem with hMem | hMem
      · refine ihChildren ?_ ?_ u hMem
        · intro c hMem
          obtain ⟨d, hChild, rfl⟩ := List.mem_map.mp hMem
          exact (hHead.self.plain (hError t hOpens) d hChild).withField _
        · intro c hMem
          obtain ⟨d, hChild, rfl⟩ := List.mem_map.mp hMem
          exact (hHead.child hChild).withField Measured.withField _
      · exact ih (fun v hMem => hTop v (by simp [hMem])) (fun v hMem => h v (by simp [hMem])) u hMem
  | closed t ts hClosed ih =>
      rw [unwrapped_of_not_opens hClosed]
      intro u hMem
      rcases List.mem_cons.mp hMem with rfl | hMem
      · exact hTop u (by simp)
      · exact ih (fun v hMem => hTop v (by simp [hMem])) (fun v hMem => h v (by simp [hMem])) u hMem

end Measured

/-- Induction over a subtree with its children as a list. -/
theorem children_induction {motive : Subtree → Prop}
    (node : ∀ t, (∀ c ∈ t.children, motive c) → motive t) (t : Subtree) : motive t := by
  refine @Subtree.rec motive (fun ts => ∀ c ∈ ts, motive c) ?_ ?_ ?_ t
  · intro info field children ih
    exact node _ ih
  · simp
  · intro t ts ih ihs c hMem
    rcases List.mem_cons.mp hMem with rfl | hMem
    · exact ih
    · exact ihs c hMem

/-- What follows at each node follows everywhere. -/
theorem All.imp {P Q : Subtree → Prop} (hImp : ∀ t, P t → Q t) {t : Subtree} (h : All P t) :
    All Q t := by
  induction t using children_induction with
  | node t ih =>
      exact all_iff.mpr ⟨hImp t h.self, fun c hChild => ih c hChild (h.child hChild)⟩

theorem All.and {P Q : Subtree → Prop} {t : Subtree} (h : All P t) (hOther : All Q t) :
    All (fun u => P u ∧ Q u) t := by
  induction t using children_induction with
  | node t ih =>
      exact all_iff.mpr ⟨⟨h.self, hOther.self⟩,
        fun c hChild => ih c hChild (h.child hChild) (hOther.child hChild)⟩

section Width
variable {kinds : Kinds}

/-- The tokens of a subtree are as wide as the subtree. -/
theorem width_leaves (t : Subtree) (h : All (Measured kinds) t) :
    (t.leaves.map Token.width).sum = t.total := by
  induction t using children_induction with
  | node t ih =>
      by_cases hNone : t.children = []
      · rw [leaves_of_no_children hNone]
        split
        · simp [token, Token.width, total]
        · simp only [List.map_nil, List.sum_nil]; omega
      · rw [leaves_of_children hNone, h.self.total hNone]
        have hAll : ∀ ts : List Subtree, (∀ c ∈ ts, c ∈ t.children) →
            ((leavesAll ts).map Token.width).sum = width ts := by
          intro ts
          induction ts with
          | nil => simp
          | cons c cs ihs =>
              intro hSub
              have hMem := hSub c (by simp)
              rw [leavesAll_cons, List.map_append, List.sum_append, width_cons,
                ih c hMem (h.child hMem), ihs fun d hMem => hSub d (by simp [hMem])]
        exact hAll t.children fun _ hMem => hMem

/-- Measured subtrees are as wide as their tokens together. -/
theorem width_leavesAll (ts : List Subtree) (h : ∀ t ∈ ts, All (Measured kinds) t) :
    ((leavesAll ts).map Token.width).sum = width ts := by
  induction ts with
  | nil => simp
  | cons t ts ih =>
      rw [leavesAll_cons, List.map_append, List.sum_append, width_cons,
        width_leaves t (h t (by simp)), ih fun u hMem => h u (by simp [hMem])]

/-- The tokens of a subtree stand side by side from its start on. -/
theorem placedLeaves_eq (t : Subtree) (h : All (Measured kinds) t) (start : Nat) :
    placedLeaves start t = inSequence start t.leaves := by
  induction t using children_induction generalizing start with
  | node t ih =>
      obtain ⟨info, field, _ | ⟨c, cs⟩⟩ := t
      · simp only [placedLeaves, leaves]
        split <;> simp [inSequence]
      · rw [placedLeaves, leaves]
        have hAll : ∀ (ts : List Subtree) (start : Nat), (∀ d ∈ ts, d ∈ c :: cs) →
            placedLeavesAll start ts = inSequence start (leavesAll ts) := by
          intro ts
          induction ts with
          | nil => intro start _; simp [placedLeavesAll, inSequence]
          | cons d ds ihs =>
              intro start hSub
              have hMem : d ∈ c :: cs := hSub d (by simp)
              have hDone := h.child (c := d) hMem
              rw [placedLeavesAll, leavesAll_cons, inSequence_append, width_leaves d hDone,
                ih d hMem hDone, ihs _ fun e hMem => hSub e (by simp [hMem])]
        exact hAll (c :: cs) start fun _ hMem => hMem

/-- The tokens of measured subtrees lie one behind the other without a gap. -/
theorem placedLeavesAll_eq (ts : List Subtree) (h : ∀ t ∈ ts, All (Measured kinds) t)
    (start : Nat) : placedLeavesAll start ts = inSequence start (leavesAll ts) := by
  induction ts generalizing start with
  | nil => simp [placedLeavesAll, inSequence]
  | cons t ts ih =>
      have hHead := h t (by simp)
      rw [placedLeavesAll, leavesAll_cons, inSequence_append, width_leaves t hHead,
        placedLeaves_eq t hHead, ih fun u hMem => h u (by simp [hMem])]

end Width

section Branch

/-- The bytes in front of the first subtree with a size are bytes of these subtrees. -/
theorem leading_le_width (ts : List Subtree) : leading ts ≤ width ts := by
  induction ts with
  | nil => simp [leading]
  | cons t ts ih =>
      rw [leading, width_cons]
      split
      · simp only [padding, total]; omega
      · omega

variable (serial : Nat) (kind : SymbolId) (state : Option StateId) (children : List Subtree)
  (lookaheadEnd : Nat) (fragile : Bool)

@[simp] theorem children_branch :
    (branch serial kind state children lookaheadEnd fragile).children = children := rfl

@[simp] theorem kind_branch :
    (branch serial kind state children lookaheadEnd fragile).kind = kind := rfl

/-- A new node is as wide as its children together. -/
@[simp] theorem total_branch :
    (branch serial kind state children lookaheadEnd fragile).total = width children := by
  have hLeading := leading_le_width children
  simp only [branch, total, info]
  omega

/-- What was read for the children was read for the node. -/
theorem reach_le_branch :
    reach children ≤ (branch serial kind state children lookaheadEnd fragile).total
      + (branch serial kind state children lookaheadEnd fragile).lookahead := by
  rw [total_branch]
  simp only [branch, lookahead, info]
  omega

/-- Damage in a child is damage in the node. -/
theorem hasError_branch {c : Subtree} (hMem : c ∈ children) (hError : c.hasError = true) :
    (branch serial kind state children lookaheadEnd fragile).hasError = true := by
  change (kind == errorSymbol || children.any hasError) = true
  rw [List.any_eq_true.mpr ⟨c, hMem, hError⟩, Bool.or_true]

/-- A new node has the tokens of its children. -/
@[simp] theorem leaves_branch :
    (branch serial kind state children lookaheadEnd fragile).leaves = leavesAll children := by
  cases children with
  | nil => rw [leaves_of_no_children rfl]; simp
  | cons c cs => rw [leaves_of_children (by simp)]; simp

variable {kinds : Kinds}

/-- A node that is built over measured children is measured. -/
theorem all_measured_branch (hPlain : kind ≠ errorSymbol → ∀ c ∈ children, Plain kinds c)
    (h : ∀ c ∈ children, All (Measured kinds) c) :
    All (Measured kinds) (branch serial kind state children lookaheadEnd fragile) :=
  all_iff.mpr ⟨{
    laid := fun _ => rfl
    total := fun _ => by simp
    padding := fun _ => rfl
    reach := fun _ => reach_le_branch _ _ _ _ _ _
    plain := hPlain
    damaged := fun _ hMem hError => hasError_branch _ _ _ _ _ _ hMem hError
    marked := by
      intro hNone hWide
      rw [total_branch, show children = [] from hNone] at hWide
      simp at hWide }, h⟩

theorem plain_branch :
    Plain kinds (branch serial kind state children lookaheadEnd fragile) := by
  intro hNone _
  rw [children_branch] at hNone
  simp [hNone]

end Branch

end IncrementalParsing.Subtree
