import IncrementalParsing.Proofs.Text.Scalar

/-! Regular expressions over the characters of a text. The text may hold any bytes: an expression for a
character takes all bytes of a scalar value, and no others. -/
namespace IncrementalParsing.Text

/-- A regular expression over characters. -/
inductive Regex where
  | char (holds : Char → Bool)
  | empty
  | seq (first rest : Regex)
  | either (left right : Regex)
  | many (item : Regex)

namespace Regex

/-- At least one, as many as there are. -/
def atLeastOne (item : Regex) : Regex := .seq item (.many item)

/-- The characters of a word in a row. -/
def word : List Char → Regex
  | [] => .empty
  | c :: cs => .seq (.char (· == c)) (word cs)

/-- The text from one place to another is of an expression. -/
inductive Reads (text : ByteArray) : Regex → Nat → Nat → Prop
  | char {holds : Char → Bool} {i : Nat} {c : Char} (hDecodes : text.utf8DecodeChar? i = some c)
      (hHolds : holds c = true) : Reads text (.char holds) i (i + c.utf8Size)
  | empty {i : Nat} : Reads text .empty i i
  | seq {first rest : Regex} {i j k : Nat} (hFirst : Reads text first i j)
      (hRest : Reads text rest j k) : Reads text (.seq first rest) i k
  | left {left right : Regex} {i j : Nat} (hLeft : Reads text left i j) :
      Reads text (.either left right) i j
  | right {left right : Regex} {i j : Nat} (hRight : Reads text right i j) :
      Reads text (.either left right) i j
  | done {item : Regex} {i : Nat} : Reads text (.many item) i i
  | more {item : Regex} {i j k : Nat} (hFirst : Reads text item i j)
      (hRest : Reads text (.many item) j k) : Reads text (.many item) i k

section
variable {text : ByteArray} {i j k : Nat} {holds : Char → Bool} {item first rest left right : Regex}

theorem reads_char_iff : Reads text (.char holds) i j ↔
    ∃ c, text.utf8DecodeChar? i = some c ∧ holds c = true ∧ i + c.utf8Size = j := by
  constructor
  · rintro ⟨hDecodes, hHolds⟩
    exact ⟨_, hDecodes, hHolds, rfl⟩
  · rintro ⟨c, hDecodes, hHolds, rfl⟩
    exact .char hDecodes hHolds

theorem reads_empty_iff : Reads text .empty i j ↔ i = j := by
  constructor
  · rintro ⟨⟩
    rfl
  · rintro rfl
    exact .empty

theorem reads_seq_iff : Reads text (.seq first rest) i k ↔
    ∃ j, Reads text first i j ∧ Reads text rest j k := by
  constructor
  · rintro (_ | _ | ⟨hFirst, hRest⟩)
    exact ⟨_, hFirst, hRest⟩
  · rintro ⟨j, hFirst, hRest⟩
    exact .seq hFirst hRest

theorem reads_either_iff : Reads text (.either left right) i j ↔
    Reads text left i j ∨ Reads text right i j := by
  constructor
  · rintro (_ | _ | _ | hLeft | hRight)
    · exact .inl hLeft
    · exact .inr hRight
  · rintro (hLeft | hRight)
    · exact .left hLeft
    · exact .right hRight

/-- A repetition is read as nothing, or as one item and a repetition behind it. -/
theorem reads_many_iff : Reads text (.many item) i k ↔
    i = k ∨ ∃ j, Reads text item i j ∧ Reads text (.many item) j k := by
  constructor
  · rintro (_ | _ | _ | _ | _ | _ | ⟨hFirst, hRest⟩)
    · exact .inl rfl
    · exact .inr ⟨_, hFirst, hRest⟩
  · rintro (rfl | ⟨j, hFirst, hRest⟩)
    · exact .done
    · exact .more hFirst hRest

/-- What holds of a repetition, by induction from its end. -/
theorem Reads.many_induction {motive : (i k : Nat) → Reads text (.many item) i k → Prop}
    (done : ∀ i, motive i i .done)
    (more : ∀ i j k (hFirst : Reads text item i j) (hRest : Reads text (.many item) j k),
      motive j k hRest → motive i k (.more hFirst hRest))
    {i k : Nat} (hReads : Reads text (.many item) i k) : motive i k hReads := by
  have hEvery : ∀ whole, Reads text whole i k → whole = .many item →
      ∀ hAgain : Reads text (.many item) i k, motive i k hAgain := by
    intro whole hWhole hAll
    induction hWhole with
    | char | empty | seq | left | right => simp at hAll
    | done => exact fun _ => done _
    | more hFirst hRest _ ih =>
        obtain rfl := Regex.many.inj hAll
        exact fun _ => more _ _ _ hFirst hRest (ih hRest rfl hRest)
  exact hEvery _ hReads rfl hReads

/-- What is read ends no earlier than it starts. -/
theorem Reads.le (hReads : Reads text item i j) : i ≤ j := by
  induction hReads with
  | char => exact Nat.le_add_right _ _
  | empty | done => exact Nat.le_refl _
  | seq _ _ ihFirst ihRest | more _ _ ihFirst ihRest => exact Nat.le_trans ihFirst ihRest
  | left _ ih | right _ ih => exact ih

/-- Behind the end of a text nothing is read. -/
theorem Reads.inside (hReads : Reads text item i j) (hSome : i < j) : i < text.size := by
  have hEnd : text.size ≤ i → j = i := by
    clear hSome
    induction hReads with
    | char hDecodes =>
        intro hOutside
        have hLe := ByteArray.le_size_of_utf8DecodeChar?_eq_some hDecodes
        omega
    | empty | done => exact fun _ => rfl
    | left _ ih | right _ ih => exact ih
    | seq _ _ ihFirst ihRest | more _ _ ihFirst ihRest =>
        intro hOutside
        obtain rfl := ihFirst hOutside
        exact ihRest hOutside
  omega

/-- What is read is inside the text. -/
theorem Reads.le_size (hReads : Reads text item i j) (hStart : i ≤ text.size) : j ≤ text.size := by
  induction hReads with
  | char hDecodes => exact ByteArray.le_size_of_utf8DecodeChar?_eq_some hDecodes
  | empty | done => exact hStart
  | left _ ih | right _ ih => exact ih hStart
  | seq _ _ ihFirst ihRest | more _ _ ihFirst ihRest => exact ihRest (ihFirst hStart)

/-- A repetition can be read on by one item at its end. -/
theorem Reads.snoc (hReads : Reads text (.many item) i j) (hLast : Reads text item j k) :
    Reads text (.many item) i k := by
  induction hReads using Reads.many_induction with
  | done i => exact .more hLast .done
  | more i j k hFirst _ ih => exact .more hFirst (ih hLast)

end
end Regex
end IncrementalParsing.Text
