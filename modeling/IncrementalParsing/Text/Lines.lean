import IncrementalParsing.Text.Edit

/-!
Rows and columns. A line ends at a line feed, or at a carriage return and a line feed, and columns
count bytes. The index of a text turns offsets into points and points into offsets.
-/
namespace IncrementalParsing

/-- A line and a byte column, both counted from zero. -/
structure Point where
  row : Nat
  column : Nat
deriving DecidableEq, Repr, Inhabited

/-- Points are shown to users counted from one. -/
def Point.render (p : Point) : String :=
  s!"{Offset.add p.row 1}:{Offset.add p.column 1}"

/-- The byte that ends every line but the last. -/
def lineFeed : UInt8 := 10

/-- The byte that may stand before a line feed and then belongs to the line's end. -/
def carriageReturn : UInt8 := 13

/-- The offsets of the line feeds of a text, in order. -/
def lineFeeds (text : ByteArray) : List Nat :=
  (List.range text.size).filter fun i => text[i]? == some lineFeed

/-- The offsets at which the lines of a text start, and the length of the text. -/
structure LineMap where
  starts : Array Nat
  length : Nat
deriving DecidableEq, Repr

namespace LineMap

/-- The first line starts at zero and each other one after a line feed. -/
def ofText (text : ByteArray) : LineMap where
  starts := (0 :: (lineFeeds text).map (· + 1)).toArray
  length := text.size

def lineCount (index : LineMap) : Nat :=
  index.starts.size

def isEmpty (index : LineMap) : Bool :=
  index.length == 0

/-- The point of an offset. Offsets past the end of the text are taken as its end. -/
def point (index : LineMap) (offset : Nat) : Point :=
  let offset := min offset index.length
  let row := index.starts.countP (· ≤ offset) - 1
  ⟨row, offset - index.starts.getD row 0⟩

/-- Where the content of a line ends: at its line feed, or at the end of the text. -/
def lineStop (index : LineMap) (row : Nat) : Nat :=
  match index.starts[row + 1]? with
  | some next => next - 1
  | none => index.length

/-- The offset of a point. A column past the end of its line is taken as the end of the line, as
far as the sum with the start of the line is exact. A row past the last line has no offset. -/
def offset (index : LineMap) (p : Point) : Option Nat :=
  index.starts[p.row]?.map fun start => min (Offset.add start p.column) (index.lineStop p.row)

/-- The bytes of a line without its line feed and without a carriage return at its end. -/
def line? (index : LineMap) (row : Nat) (text : ByteArray) : Option (Nat × Nat) :=
  index.starts[row]?.map fun start =>
    let stop := index.lineStop row
    if start < stop && text[stop - 1]? == some carriageReturn then (start, stop - 1)
    else (start, stop)

/-- The edit that replaces the text between two points by `inserted` bytes. -/
def edit? (index : LineMap) (start stop : Point) (inserted : Nat) : Option Edit := do
  let start ← index.offset start
  let stop ← index.offset stop
  if stop < start then none else some (Edit.replace start stop inserted)

end LineMap
end IncrementalParsing
