/-!
Finite sets of small numbers, kept as the bits of one number. They hold terminals in FIRST and
lookahead sets, and nonterminals while a closure is taken.
-/
namespace IncrementalParsing

/-- The set of the places at which `bits` has a one. -/
structure IdSet where
  bits : Nat
deriving DecidableEq, Repr, Inhabited

namespace IdSet

def empty : IdSet := ⟨0⟩

def singleton (i : Nat) : IdSet := ⟨1 <<< i⟩

def union (s t : IdSet) : IdSet := ⟨s.bits ||| t.bits⟩

def inter (s t : IdSet) : IdSet := ⟨s.bits &&& t.bits⟩

def contains (s : IdSet) (i : Nat) : Bool := s.bits.testBit i

def insert (s : IdSet) (i : Nat) : IdSet := s.union (singleton i)

/-- All numbers below `n`. -/
def below (n : Nat) : IdSet := ⟨(1 <<< n) - 1⟩

/-- The members below `n`, in increasing order. -/
def elements (s : IdSet) (n : Nat) : List Nat := (List.range n).filter s.contains

@[simp] theorem contains_empty (i : Nat) : empty.contains i = false := by
  simp [empty, contains]

@[simp] theorem contains_singleton (i j : Nat) : (singleton i).contains j = decide (i = j) := by
  simp only [singleton, contains, Nat.one_shiftLeft, Nat.testBit_two_pow]

/-- A number is in a union if it is in one of the sets. -/
@[simp] theorem contains_union (s t : IdSet) (i : Nat) :
    (s.union t).contains i = (s.contains i || t.contains i) := by
  simp [union, contains]

/-- A number is in an intersection if it is in both sets. -/
@[simp] theorem contains_inter (s t : IdSet) (i : Nat) :
    (s.inter t).contains i = (s.contains i && t.contains i) := by
  simp [inter, contains]

/-- Inserting adds the one number. -/
@[simp] theorem contains_insert (s : IdSet) (i j : Nat) :
    (s.insert i).contains j = (s.contains j || decide (i = j)) := by
  simp [insert]

@[simp] theorem contains_below (n i : Nat) : (below n).contains i = decide (i < n) := by
  simp [below, contains, Nat.one_shiftLeft]

/-- The elements of a set are listed up to the bound that is asked for. -/
theorem mem_elements {s : IdSet} {n i : Nat} : i ∈ s.elements n ↔ i < n ∧ s.contains i = true := by
  simp [elements]

/-- A set is known by its members. -/
theorem ext {s t : IdSet} (h : ∀ i, s.contains i = t.contains i) : s = t := by
  cases s; cases t
  congr 1
  exact Nat.eq_of_testBit_eq h

end IdSet
end IncrementalParsing
