import IncrementalParsing.Text.Edit
import IncrementalParsing.Language
import IncrementalParsing.Subtree.Basic
import IncrementalParsing.Text.Printable

/-!
Syntax trees. A tree describes one version of a text. Editing a tree keeps its nodes and remembers
the edit, so that the ranges of its nodes follow the text.
-/
namespace IncrementalParsing

/-- A tree of a language. -/
structure Tree where
  root : Subtree
  language : Language
  /-- Length of the text that the tree describes, after the pending edit. -/
  length : Nat
  /-- What has happened to the text since it was parsed, as one edit of the parsed text. -/
  edit : Option Edit
  /-- Larger than the identity of every node. -/
  nextSerial : Nat

namespace Tree

def tables (t : Tree) : Tables := t.language.tables

def hasError (t : Tree) : Bool := t.root.hasError

/-- Where an offset of the parsed text lies in the text as edited. -/
def image (t : Tree) (offset : Nat) : Nat :=
  match t.edit with
  | some edit => edit.image offset
  | none => offset

/-- Records an edit of the text, together with those recorded before. -/
def applyEdit (t : Tree) (edit : Edit) : Except EditError Tree := do
  edit.check t.length
  return { t with
    length := edit.lengthAfter t.length
    edit := some (match t.edit with
      | some earlier => earlier.andThen edit
      | none => edit) }

/-- An outline of the tree: its language, the length of its text and its pending edit. -/
def outline (t : Tree) : String :=
  let edit := match t.edit with
    | none => "None"
    | some e => "Some(Edit \x7b start_byte: " ++ toString e.start ++ ", old_end_byte: "
        ++ toString e.oldEnd ++ ", new_end_byte: " ++ toString e.newEnd ++ " \x7d)"
  "Tree \x7b language: " ++ Text.quoted t.language.name ++ ", source_len: " ++ toString t.length
    ++ ", edit: " ++ edit ++ ", .. \x7d"

end Tree
end IncrementalParsing
