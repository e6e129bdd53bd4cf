import IncrementalParsing.Blob.Bytes
import IncrementalParsing.Tables.Basic

/-!
Tables as bytes. A header of sixteen bytes holds the magic, the version, two unused bytes, the
check value and the length of what follows. Then come the name, the symbols, the fields, the
counts, the rules, the precedences and the two tables.
-/
namespace IncrementalParsing

/-- A cell of the action table: two bits for the kind of action, and the state or rule. -/
def Action.toCell : Action → Nat
  | error => 0
  | shift state => 0x40000000 + state % 0x10000
  | reduce rule => 2 * 0x40000000 + rule % 0x10000
  | accept => 3 * 0x40000000

/-- Reads a cell. Numbers that no action is written as are refused. -/
def Action.ofCell? (cell : Nat) : Option Action :=
  let payload := cell % 0x40000000
  match cell / 0x40000000 with
  | 0 => if payload = 0 then some .error else none
  | 1 => if payload < 0x10000 then some (.shift payload) else none
  | 2 => if payload < 0x10000 then some (.reduce payload) else none
  | 3 => if payload = 0 then some .accept else none
  | _ => none

/-- The cell of a state without a transition. -/
def noGoto : Nat := 65535

namespace Blob

def symbol (info : SymbolEntry) : List UInt8 :=
  .ofNat info.traits.toBits :: name info.name

def slot (s : Slot) : List UInt8 :=
  word16 s.symbol ++ word16 (s.field.getD 0)

def production (p : Production) : List UInt8 :=
  word16 p.lhs ++ word16 p.rhs.length ++ p.rhs.flatMap slot

/-- The number of a way of grouping. Zero stands for no precedence. -/
def assocByte : Assoc → UInt8
  | .left => 1
  | .right => 2
  | .nonAssoc => 3

def precedence : Option Precedence → List UInt8
  | none => 0 :: word16 0
  | some p => assocByte p.assoc :: word16 p.level

def gotoCell (target : Option StateId) : List UInt8 :=
  word16 (target.getD noGoto)

/-- Everything behind the header. -/
def payload (t : Tables) : List UInt8 :=
  name t.name
    ++ word16 t.symbols.size ++ t.symbols.toList.flatMap symbol
    ++ word16 t.fields.size ++ t.fields.toList.flatMap name
    ++ word16 t.terminalCount ++ word16 t.start
    ++ word16 t.rules.size ++ t.rules.toList.flatMap production
    ++ t.tokenPrecedence.toList.flatMap precedence
    ++ word16 t.stateCount
    ++ t.actions.toList.flatMap (fun action => word32 action.toCell)
    ++ t.gotos.toList.flatMap gotoCell

/-- The header of a payload. -/
def header (payload : List UInt8) : List UInt8 :=
  blobMagic ++ word16 blobVersion ++ word16 0
    ++ word32 (Crc32.ofBytes payload).toNat ++ word32 payload.length

end Blob

namespace Tables

/-- The blob of the tables. -/
def toBytes (t : Tables) : List UInt8 :=
  let payload := Blob.payload t
  Blob.header payload ++ payload

/-- The check value of the blob. Equal tables have equal fingerprints. -/
def fingerprint (t : Tables) : Nat :=
  (Crc32.ofBytes t.toBytes).toNat

end Tables
end IncrementalParsing
