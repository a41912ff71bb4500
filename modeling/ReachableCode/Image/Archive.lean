import ReachableCode.Image.Bytes
import ReachableCode.Image.Pe
import ReachableCode.Text.Blank

/-!
Files that hold no program: archives and object files. They are only read to tell a sound one from a
damaged one.
-/

namespace ReachableCode

namespace Archive

/-- The size of the header of a member. -/
def headerSize : Nat := 60

/-- The number in a text field that blanks follow. -/
def number? (b : Image) : Option Nat := do
  Pe.decimal? (Blank.trimRight (← b.text?))

/-- Whether members can be read from an offset on, each behind the other at an even place. -/
def hasMembers (b : Image) (offset : Nat) : Nat → Bool
  | 0 => true
  | fuel + 1 =>
    if b.size ≤ offset + 1 then true
    else
      let start := offset + offset % 2
      match b.slice? start headerSize with
      | none => false
      | some header =>
        let name : Image := header.extract 0 16
        let size : Image := header.extract 48 58
        match name.text?, number? size with
        | some _, some size => hasMembers b (start + headerSize + size) fuel
        | _, _ => false

def isSound (b : Image) : Bool :=
  hasMembers b 8 b.size

end Archive

namespace ObjectFile

/-- Whether an object file can be read: its sections, its symbols and its string table. -/
def isSound (b : Image) : Bool :=
  match Pe.objectHeader? b 0 with
  | none => false
  | some h =>
    (Pe.sectionHeaders? b h (20 + h.optionalSize)).isSome
      && (h.symbolsAt = 0
        || ((b.read? h.symbolsAt (h.symbolCount * Pe.ObjectHeader.symbolSize)).isSome
          && match b.uint? .little 4 h.stringsAt with
            | none => false
            | some size => 4 ≤ size && (b.stringTable? (h.stringsAt + 4) (size - 4)).isSome))

end ObjectFile

end ReachableCode
