/-!
Offsets, rows and columns are numbers of 64 bits. Sums and differences of them are taken modulo
`2 ^ 64`, so they are exact as long as the exact result is a number of 64 bits again.
-/
namespace IncrementalParsing.Offset

/-- All offsets lie below it. -/
def bound : Nat := 0x10000000000000000

/-- The offset `distance` further on. -/
def add (offset distance : Nat) : Nat := (offset + distance) % bound

/-- Moves an offset by as much as `target` lies behind `source`. -/
def shift (offset source target : Nat) : Nat :=
  (offset + target + (bound - source % bound)) % bound

/-- How many offsets there are for a text of some length: all numbers of 64 bits. A text that is longer
than that would need more. -/
def range (length : Nat) : Nat := max bound (length + 1)

/-- What is left of a sum of offsets in a text of some length. -/
def wrap (length offset : Nat) : Nat := offset % range length

theorem lt_range {length offset : Nat} (hLe : offset ≤ length) : offset < range length :=
  Nat.lt_of_lt_of_le (Nat.lt_succ_of_le hLe) (Nat.le_max_right ..)

/-- An offset in range stays what it is. -/
theorem wrap_eq {length offset : Nat} (hRange : offset < range length) : wrap length offset = offset :=
  Nat.mod_eq_of_lt hRange

theorem wrap_of_le {length offset : Nat} (hLe : offset ≤ length) : wrap length offset = offset :=
  wrap_eq (lt_range hLe)

/-- It does not matter whether a sum wraps around at once or on the way. -/
theorem wrap_add (length offset distance : Nat) :
    wrap length (wrap length offset + distance) = wrap length (offset + distance) :=
  Nat.mod_add_mod ..

/-- A sum that the width of an offset holds is the sum. -/
theorem add_eq {offset distance : Nat} (hBound : offset + distance < bound) :
    add offset distance = offset + distance :=
  Nat.mod_eq_of_lt hBound

/-- Behind `source` the move is exact if its result is an offset. -/
theorem shift_eq {offset source target : Nat} (hLe : source ≤ offset)
    (hBound : offset - source + target < bound) :
    shift offset source target = offset - source + target := by
  simp only [shift, bound] at *
  omega

end IncrementalParsing.Offset
