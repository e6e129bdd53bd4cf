import IncrementalParsing.Blob.Error

/-!
Numbers and names as bytes. Numbers are little endian, and a name is its length in two bytes and
its UTF-8 text. Each writer has a reader that takes the same bytes from the front of a list. A check
value shows whether bytes have been damaged.
-/
namespace IncrementalParsing

/-! The IEEE cyclic redundancy check over 32 bits, taken a byte at a time with the lowest bit first. -/

namespace Crc32

/-- The generator polynomial with its bits reversed. -/
def polynomial : UInt32 := 0xEDB88320

/-- Divides one bit out of the register. -/
def shift (register : UInt32) : UInt32 :=
  if register &&& 1 = 1 then (register >>> 1) ^^^ polynomial else register >>> 1

/-- Takes one byte into the register. -/
def update (register : UInt32) (byte : UInt8) : UInt32 :=
  shift (shift (shift (shift (shift (shift (shift (shift (register ^^^ byte.toUInt32))))))))

/-- The check value of a message. -/
def ofBytes (bytes : List UInt8) : UInt32 :=
  bytes.foldl update 0xFFFFFFFF ^^^ 0xFFFFFFFF

end Crc32

namespace Blob

/-- The two low bytes of a number. -/
def word16 (n : Nat) : List UInt8 :=
  [.ofNat n, .ofNat (n / 0x100)]

/-- The four low bytes of a number. -/
def word32 (n : Nat) : List UInt8 :=
  [.ofNat n, .ofNat (n / 0x100), .ofNat (n / 0x10000), .ofNat (n / 0x1000000)]

/-- The length a name is cut to. -/
def maxName : Nat := 65535

/-- A name with its length. What does not fit is cut off. -/
def name (s : String) : List UInt8 :=
  let bytes := s.toUTF8.toList.take maxName
  word16 bytes.length ++ bytes

/-- The number that two bytes stand for. -/
def ofBytes2 (a b : UInt8) : Nat :=
  a.toNat + 0x100 * b.toNat

/-- The number that four bytes stand for. -/
def ofBytes4 (a b c d : UInt8) : Nat :=
  a.toNat + 0x100 * b.toNat + 0x10000 * c.toNat + 0x1000000 * d.toNat

/-- Takes a value from the front of the bytes. -/
abbrev Reader (α : Type) := StateT (List UInt8) (Except LoadError) α

def readByte (part : BlobPart) : Reader Nat
  | a :: rest => .ok (a.toNat, rest)
  | _ => .error (.truncated part)

def readWord16 (part : BlobPart) : Reader Nat
  | a :: b :: rest => .ok (ofBytes2 a b, rest)
  | _ => .error (.truncated part)

def readWord32 (part : BlobPart) : Reader Nat
  | a :: b :: c :: d :: rest => .ok (ofBytes4 a b c d, rest)
  | _ => .error (.truncated part)

/-- Exactly `count` bytes. -/
def readBytes (part : BlobPart) (count : Nat) : Reader (List UInt8) := fun bytes =>
  let front := bytes.take count
  if front.length = count then .ok (front, bytes.drop count) else .error (.truncated part)

/-- A name, which must be UTF-8. -/
def readName (part : BlobPart) : Reader String := do
  let length ← readWord16 part
  let bytes ← readBytes part length
  match String.fromUTF8? bytes.toByteArray with
  | some s => return s
  | none => throw (.malformed .nameNotUtf8)

/-- Reads `count` values and appends them to `found`. -/
def readMany {α : Type} (read : Reader α) :
    (count : Nat) → (found : Array α) → List UInt8 → Except LoadError (Array α × List UInt8)
  | 0, found, bytes => .ok (found, bytes)
  | count + 1, found, bytes =>
      match read bytes with
      | .ok (a, bytes) => readMany read count (found.push a) bytes
      | .error error => .error error

/-- Reads `count` values. -/
def readTimes {α : Type} (count : Nat) (read : Reader α) : Reader (Array α) :=
  readMany read count #[]

/-- Lets only values below `bound` pass. -/
def checkBelow (part : BlobPart) (value bound : Nat) : Reader Unit :=
  if value < bound then pure () else throw (.outOfRange part value)

/-- A number of two bytes that must be below `bound`. -/
def readBelow (part : BlobPart) (bound : Nat) : Reader Nat := do
  let value ← readWord16 part
  checkBelow part value bound
  return value

end Blob
end IncrementalParsing
