import IncrementalParsing.Proofs.Labels.Language
import IncrementalParsing.Proofs.Parser.LegalRun
import IncrementalParsing.Proofs.Tree.Preorder

/-! Every tree is grammatical apart from its marked damage, however often it has been edited and
parsed again. -/
namespace IncrementalParsing
open Subtree

/-- The root of a parse is built like a node. -/
theorem ParseJob.laid_parseWithin {job : ParseJob} {limit : Nat} {queue : Option ReuseQueue} {nextSerial : Nat}
    {made : Subtree × Nat} (hMade : job.parseWithin limit queue nextSerial = some made) : made.1.Laid := by
  obtain ⟨⟨accepted, stack⟩, -, rfl⟩ := Option.map_eq_some_iff.mp hMade
  exact stack.laid_toRoot _ _ accepted

namespace Parser

/-- Where a reparse takes subtrees from. -/
def queueOf (p : Parser) (t : Tree) : Option ReuseQueue :=
  if p.limits.reuse then some (.ofRoot t.root t.edit) else none

/-- A reparse takes subtrees only from the tree that it is given. -/
theorem queueOf_eq_some {p : Parser} {t : Tree} {q : ReuseQueue} (hQueue : p.queueOf t = some q) :
    q = .ofRoot t.root t.edit := by
  unfold queueOf at hQueue
  split at hQueue
  · exact (Option.some.inj hQueue).symm
  · contradiction

/-- The steps that are allowed with a queue. -/
def stepsFor (p : Parser) (text : ByteArray) (queue : Option ReuseQueue) : Nat :=
  p.stepLimit text.size (match queue with
    | some queue => queue.weight
    | none => 0)

/-- Whether a parse of the text accepts it. -/
def verdict? (p : Parser) (text : ByteArray) (queue : Option ReuseQueue) (nextSerial : Nat) :
    Option Bool :=
  (p.job text).verdict? (p.stepsFor text queue) queue nextSerial

theorem runWith_eq (p : Parser) (text : ByteArray) (queue : Option ReuseQueue) (nextSerial : Nat) :
    p.runWith text queue nextSerial =
      ((p.job text).parseWithin (p.stepsFor text queue) queue nextSerial).map
        fun made => ⟨made.1, p.language, text.size, none, made.2⟩ := by
  cases queue <;> rfl

theorem runWith_eq_some {p : Parser} {text : ByteArray} {queue : Option ReuseQueue}
    {nextSerial : Nat} {tree : Tree} (hRun : p.runWith text queue nextSerial = some tree) :
    ∃ made, (p.job text).parseWithin (p.stepsFor text queue) queue nextSerial = some made
      ∧ tree = ⟨made.1, p.language, text.size, none, made.2⟩ := by
  rw [runWith_eq] at hRun
  obtain ⟨made, hMade, hTree⟩ := Option.map_eq_some_iff.mp hRun
  exact ⟨made, hMade, hTree.symm⟩

/-- A tree says where its children start if all nodes below its root do: its root is built like a node. -/
theorem laid_of_runWith {p : Parser} {text : ByteArray} {queue : Option ReuseQueue} {nextSerial : Nat}
    {tree : Tree} (hRun : p.runWith text queue nextSerial = some tree)
    (hBelow : ∀ t ∈ tree.root.children, All Subtree.Laid t) : tree.Laid := by
  refine all_iff.mpr ⟨?_, hBelow⟩
  obtain ⟨made, hMade, rfl⟩ := runWith_eq_some hRun
  exact ParseJob.laid_parseWithin hMade

/-- A tree is made without a pending edit. -/
theorem edit_of_runWith {p : Parser} {text : ByteArray} {queue : Option ReuseQueue}
    {nextSerial : Nat} {tree : Tree} (hRun : p.runWith text queue nextSerial = some tree) :
    tree.edit = none := by
  obtain ⟨made, -, rfl⟩ := runWith_eq_some hRun
  rfl

/-- Every parse that makes a tree has accepted its text or not. -/
theorem exists_verdict? {p : Parser} {text : ByteArray} {queue : Option ReuseQueue}
    {nextSerial : Nat} {tree : Tree} (hRun : p.runWith text queue nextSerial = some tree) :
    ∃ accepted, p.verdict? text queue nextSerial = some accepted := by
  obtain ⟨made, hMade, -⟩ := runWith_eq_some hRun
  exact ParseJob.exists_verdict? hMade

theorem reparse_eq_ok {p : Parser} {edited tree : Tree} {text : ByteArray}
    (hReparse : p.reparse edited text = .ok tree) :
    edited.length = text.size
      ∧ p.runWith text (p.queueOf edited) (max p.nextSerial edited.nextSerial) = some tree := by
  unfold reparse at hReparse
  split at hReparse
  · simp at hReparse
  · split at hReparse
    · simp at hReparse
    · rename_i hLength
      dsimp only at hReparse
      split at hReparse
      · rename_i found hFound
        obtain rfl := Except.ok.inj hReparse
        exact ⟨Classical.not_not.mp hLength, hFound⟩
      · simp at hReparse

theorem reparse_eq_of_run {p : Parser} {edited tree : Tree} {text : ByteArray}
    (hLanguage : edited.language = p.language) (hLength : edited.length = text.size)
    (hRun : p.runWith text (p.queueOf edited) (max p.nextSerial edited.nextSerial) = some tree) :
    p.reparse edited text = .ok tree := by
  unfold reparse
  rw [if_neg (by simp [hLanguage]), if_neg (by simp [hLength])]
  unfold queueOf at hRun
  dsimp only
  rw [hRun]

end Parser

namespace Tree
variable {t edited : Tree} {e : Edit}

/-- A tree accepts the edits that fit its text. -/
theorem applyEdit_eq_ok_iff : t.applyEdit e = .ok edited ↔
    e.check t.length = .ok () ∧ edited = { t with
      length := e.lengthAfter t.length
      edit := some (t.edit.elim e (·.andThen e)) } := by
  unfold applyEdit
  cases e.check t.length with
  | error cause => simp [bind, Except.bind]
  | ok done => cases t.edit <;> simp [bind, Except.bind, pure, Except.pure, eq_comm]

theorem root_applyEdit (hEdit : t.applyEdit e = .ok edited) :
    edited.root = t.root ∧ edited.language = t.language := by
  rw [(applyEdit_eq_ok_iff.mp hEdit).2]
  exact ⟨rfl, rfl⟩

end Tree

/-- The trees of a language: what parsers make of any texts, edited in any way and parsed again any
number of times. The last part says whether the last parse accepted its text. -/
inductive Grown (language : Language) : Tree → Bool → Prop
  | parse (p : Parser) (hLanguage : p.language = language) {text : ByteArray} {tree : Tree}
      {accepted : Bool} (hParse : p.parse text = some tree)
      (hVerdict : p.verdict? text none p.nextSerial = some accepted) : Grown language tree accepted
  | edit {tree edited : Tree} {accepted : Bool} (hGrown : Grown language tree accepted) {edit : Edit}
      (hEdit : tree.applyEdit edit = .ok edited) : Grown language edited accepted
  | reparse {edited tree : Tree} {before accepted : Bool} (hGrown : Grown language edited before)
      (p : Parser) (hLanguage : p.language = language) {text : ByteArray}
      (hReparse : p.reparse edited text = .ok tree)
      (hVerdict : p.verdict? text (p.queueOf edited) (max p.nextSerial edited.nextSerial)
        = some accepted) : Grown language tree accepted

/-- Every node of a visible nonterminal follows a rule of it, and so does the root, unless its text
was not accepted and it has nothing but error nodes. -/
structure Tree.Grammatical (t : Tree) (accepted : Bool) : Prop where
  inner : ∀ n ∈ t.inner, t.tables.isTerminal n.kindId = false → t.tables.isHidden n.kindId = false →
    Derives t.tables n.kindId (Subtree.outline n.subtree.children)
  root : if accepted then Derives t.tables t.tables.start (Subtree.outline t.root.children)
    else Subtree.outline t.root.children = []

section
variable {language : Language}

/-- What every single parse gives to its root, if the subtrees it takes over are from such a root,
all trees of a language have. -/
theorem Grown.of_runs {P : Subtree → Prop} {Q : Bool → Subtree → Prop}
    (hBelow : ∀ accepted root, Q accepted root → ∀ u ∈ root.children, All P u)
    (hRun : ∀ (p : Parser) (text : ByteArray) (queue : Option ReuseQueue) (limit nextSerial : Nat)
      (made : Subtree × Nat) (accepted : Bool), p.language = language →
      (∀ q, queue = some q → ∀ u ∈ q.ahead, All P u) →
      (p.job text).parseWithin limit queue nextSerial = some made →
      (p.job text).verdict? limit queue nextSerial = some accepted → Q accepted made.1)
    {tree : Tree} {accepted : Bool} (h : Grown language tree accepted) :
    tree.language = language ∧ Q accepted tree.root := by
  induction h with
  | parse p hLanguage hParse hVerdict =>
      obtain ⟨made, hMade, rfl⟩ := Parser.runWith_eq_some hParse
      exact ⟨hLanguage, hRun p _ none _ _ _ _ hLanguage (by simp) hMade hVerdict⟩
  | edit _ hEdit ih =>
      obtain ⟨hRoot, hSame⟩ := Tree.root_applyEdit hEdit
      rw [hRoot, hSame]
      exact ih
  | @reparse edited tree before accepted _ p hLanguage text hReparse hVerdict ih =>
      obtain ⟨made, hMade, rfl⟩ := Parser.runWith_eq_some (Parser.reparse_eq_ok hReparse).2
      refine ⟨hLanguage, hRun p _ _ _ _ _ _ hLanguage ?_ hMade hVerdict⟩
      intro q hQueue u hMem
      obtain rfl := Parser.queueOf_eq_some hQueue
      exact hBelow _ _ ih.2 u hMem

theorem Grown.lawfulRoot (hBuilt : language.tables.Built)
    (hFits : language.tables.rules.size ≤ ruleBound)
    (hLexer : ∀ text position token, language.lexer.next text position = some token →
      language.tables.isTerminal token.kind = true)
    {tree : Tree} {accepted : Bool} (h : Grown language tree accepted) :
    tree.language = language ∧ ParseJob.LawfulRoot language.tables accepted tree.root := by
  obtain ⟨g, m, hGenerated, hProper⟩ := hBuilt.generated
  refine h.of_runs (P := Grammatical language.tables) (fun _ _ hRoot => hRoot.below) ?_
  rintro p text queue limit nextSerial made accepted rfl hQueue hMade hVerdict
  have hUpheld : (p.job text).Upheld g m (Grammatical p.language.tables) :=
    ParseJob.upheld_grammatical hGenerated hProper hFits (hLexer text)
  obtain ⟨verdict, hSame, hRoot⟩ := ParseJob.lawful_parseWithin hUpheld hQueue hMade
  obtain rfl : verdict = accepted := Option.some.inj (hSame.symm.trans hVerdict)
  exact hRoot

/-- Deleting the error nodes among the children of a node leaves what one step of a derivation
gives, with its hidden parts replaced by what they derive. -/
theorem grown_grammatical (hBuilt : language.tables.Built)
    (hFits : language.tables.rules.size ≤ ruleBound)
    (hLexer : ∀ text position token, language.lexer.next text position = some token →
      language.tables.isTerminal token.kind = true)
    {tree : Tree} {accepted : Bool} (hGrown : Grown language tree accepted) :
    tree.Grammatical accepted := by
  obtain ⟨hLanguage, hRoot⟩ := hGrown.lawfulRoot hBuilt hFits hLexer
  subst hLanguage
  refine ⟨?_, ?_⟩
  · intro n hMem
    exact (of_mem_inner tree hRoot.below n hMem).2.shown
  · split
    · rename_i hAccepted
      exact hRoot.derives hAccepted
    · rename_i hAccepted
      exact hRoot.abandoned (by simpa using hAccepted)

end

/-- A damaged text is parsed, edited behind its damage, and parsed again. -/
theorem Labels.reparse_damaged : ∃ first edited tree : Tree,
    Labels.parser.parse "a5:x5".toUTF8 = some first
      ∧ Labels.parser.verdict? "a5:x5".toUTF8 none 0 = some true
      ∧ first.applyEdit ⟨5, 5, 7⟩ = .ok edited
      ∧ Labels.parser.reparse edited "a5:x5b:".toUTF8 = .ok tree
      ∧ Labels.parser.verdict? "a5:x5b:".toUTF8 (Labels.parser.queueOf edited)
          (max 0 edited.nextSerial) = some true
      ∧ tree.hasError = true := by
  let second (first : Tree) : Tree := { first with length := 7, edit := some ⟨5, 5, 7⟩ }
  have hAccepted : Labels.parser.verdict? "a5:x5".toUTF8 none 0 = some true := by decide +kernel
  have hAll : ((Labels.parser.parse "a5:x5".toUTF8).elim false fun first =>
      (Labels.parser.runWith "a5:x5b:".toUTF8 (Labels.parser.queueOf (second first))
        (max 0 first.nextSerial)).elim false (·.hasError)
        && Labels.parser.verdict? "a5:x5b:".toUTF8 (Labels.parser.queueOf (second first))
          (max 0 first.nextSerial) == some true) = true := by
    decide +kernel
  cases hParse : Labels.parser.parse "a5:x5".toUTF8 with
  | none =>
      rw [hParse] at hAll
      exact absurd hAll Bool.false_ne_true
  | some first =>
      obtain ⟨made, -, hFirst⟩ := Parser.runWith_eq_some hParse
      have hEdit : first.applyEdit ⟨5, 5, 7⟩ = .ok (second first) := by
        have hSize : "a5:x5".toUTF8.size = 5 := by decide +kernel
        have hLength : first.length = 5 := by rw [hFirst, hSize]
        have hNone : first.edit = none := by rw [hFirst]
        rw [Tree.applyEdit, hLength, hNone]
        rfl
      rw [hParse, Option.elim, Bool.and_eq_true] at hAll
      obtain ⟨hTree, hVerdict⟩ := hAll
      cases hRun : Labels.parser.runWith "a5:x5b:".toUTF8 (Labels.parser.queueOf (second first))
          (max 0 first.nextSerial) with
      | none =>
          rw [hRun] at hTree
          exact absurd hTree Bool.false_ne_true
      | some tree =>
          rw [hRun] at hTree
          have hReparse : Labels.parser.reparse (second first) "a5:x5b:".toUTF8 = .ok tree :=
            Parser.reparse_eq_of_run (by rw [hFirst]) rfl hRun
          exact ⟨first, second first, tree, rfl, hAccepted, hEdit, hReparse, eq_of_beq hVerdict, hTree⟩

/-- The tree of the damaged text is grammatical. -/
theorem grown_grammatical_of_damaged :
    ∃ first edited tree : Tree, Labels.parser.parse "a5:x5".toUTF8 = some first
      ∧ first.applyEdit ⟨5, 5, 7⟩ = .ok edited
      ∧ Labels.parser.reparse edited "a5:x5b:".toUTF8 = .ok tree
      ∧ tree.hasError = true ∧ tree.Grammatical true := by
  obtain ⟨first, edited, tree, hParse, hAccepted, hEdit, hReparse, hVerdict, hDamaged⟩ :=
    Labels.reparse_damaged
  refine ⟨first, edited, tree, hParse, hEdit, hReparse, hDamaged, ?_⟩
  exact grown_grammatical Labels.built_tables Labels.fits_tables
    (fun _ _ _ hNext => (Labels.lexer_kind hNext).1)
    (.reparse (.edit (.parse Labels.parser rfl hParse hAccepted) hEdit) Labels.parser rfl hReparse
      hVerdict)

end IncrementalParsing
