import ReachableCode.Expr.Basic
import ReachableCode.Fault
import Std.Data.ExtTreeMap

/-!
Sections: the ranges of addresses that a program maps. A section has bytes from the image, may be
larger than they are, exports labels, and holds the relocations that stand for some of its words.
-/

namespace ReachableCode

/-- Reading a word of this size and byte order where the relocation lies yields `target`. -/
structure Relocation where
  width : Width
  order : ByteOrder
  target : Expr
  deriving DecidableEq

/-- Whether a read of that width and order takes the relocation; signedness does not matter. -/
def Relocation.fits (r : Relocation) (w : Width) (o : ByteOrder) : Bool :=
  r.width.bytes = w.bytes ∧ r.order = o

/-- A contiguous range of addresses. -/
structure Section where
  name : String
  /-- The address of the first byte. -/
  base : Address
  /-- The bytes that the image has. -/
  data : Array UInt8
  /-- The mapped size; the bytes from the end of `data` up to it read as zero. -/
  mappedSize : UInt64
  executable : Bool
  /-- The offset of each label. -/
  exports : Std.ExtTreeMap String Offset
  /-- The relocation at each offset that has one. -/
  relocations : Std.ExtTreeMap Offset Relocation
  deriving DecidableEq

namespace Section

/-- An executable section that maps the given bytes and no more. -/
def ofData (name : String) (base : Address) (data : Array UInt8) : Section where
  name := name
  base := base
  data := data
  mappedSize := UInt64.ofNat data.size
  executable := true
  exports := ∅
  relocations := ∅

/-- Changes the mapped size, which is never less than that of the data. -/
def withMappedSize (s : Section) (size : UInt64) : Section :=
  { s with mappedSize := max size (UInt64.ofNat s.data.size) }

/-- Puts a label at an offset, in place of one of the same name. -/
def withLabel (s : Section) (name : String) (offset : Offset) : Section :=
  { s with exports := s.exports.insert name offset }

/-- Puts a relocation at an offset, in place of the one there. -/
def withRelocation (s : Section) (offset : Offset) (r : Relocation) : Section :=
  { s with relocations := s.relocations.insert offset r }

/-- The address after the last mapped one. -/
def endAddress (s : Section) : Except Fault Address :=
  Address.plus s.base s.mappedSize

/-- Whether an address is mapped by the section. The end is looked at only for an address that is
not below the base. -/
def contains (s : Section) (a : Address) : Except Fault Bool :=
  if a < s.base then .ok false
  else do
    let stop ← s.endAddress
    return a < stop

/-- The labels at an offset, in the order of their names. -/
def labelsAt (s : Section) (offset : Offset) : List String :=
  (s.exports.toList.filter (·.2 = offset)).map (·.1)

/-- The addresses of all labels, in the order of their names. -/
def labelAddresses (s : Section) : Except Fault (List Address) :=
  s.exports.values.mapM (Address.plus s.base)

/-- The byte at an offset: from the data, else zero, and none past the mapped size. -/
def byteAt (s : Section) (offset : Nat) : Option UInt8 :=
  if h : offset < s.data.size then some s.data[offset]
  else if offset < s.mappedSize.toNat then some 0
  else none

/-- At most `count` bytes from an offset on, as far as the section is mapped. -/
def bytesFrom (s : Section) (offset : Nat) : Nat → List UInt8
  | 0 => []
  | count + 1 =>
    match s.byteAt offset with
    | none => []
    | some b => b :: s.bytesFrom (offset + 1) count

end Section

end ReachableCode
