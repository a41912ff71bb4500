import ReachableCode.Expr.Width

/-!
Reading the bytes of an image. All positions are natural numbers. What does not lie wholly in the image
cannot be read, and reading begins inside the image even where nothing is read; only a range that a
table tells may be an empty one at the end.
-/

namespace ReachableCode

abbrev Image := Array UInt8

namespace Image

/-- The bytes of a range that lies in the image. An empty range may lie at its end. -/
def slice? (b : Image) (offset size : Nat) : Option Image :=
  if offset + size ≤ b.size then some (b.extract offset (offset + size)) else none

/-- The bytes of a range that begins inside the image. -/
def read? (b : Image) (offset size : Nat) : Option Image :=
  if offset < b.size then b.slice? offset size else none

/-- The number in the `size` bytes from an offset on, which lie in the image. -/
def uint (b : Image) (o : ByteOrder) (size offset : Nat) : Nat :=
  Width.magnitude (o.leastFirst (b.extract offset (offset + size)).toList)

/-- The number in the `size` bytes from an offset on, if they lie in the image. -/
def uint? (b : Image) (o : ByteOrder) (size offset : Nat) : Option Nat :=
  (b.slice? offset size).map (·.uint o size 0)

/-- Records of one size that follow one another. -/
def records? (b : Image) (size : Nat) (offset : Nat) : Nat → Option (List Image)
  | 0 => some []
  | count + 1 => do
    let r ← b.slice? offset size
    return r :: (← records? b size (offset + size) count)

def text? (b : Image) : Option String :=
  String.fromUTF8? ⟨b⟩

/-- The bytes from an offset to the next zero, or to the end. -/
def untilZero (b : Image) (offset : Nat) : Image :=
  ((b.extract offset b.size).toList.takeWhile (· ≠ 0)).toArray

/-- The text from an offset inside the image to the next zero, or to the end. -/
def cString? (b : Image) (offset : Nat) : Option String :=
  if offset < b.size then (b.untilZero offset).text? else none

/-- A table of texts that end at zeros. Every text in it is UTF-8. -/
def stringTable? (b : Image) (offset size : Nat) : Option Image := do
  let table ← b.slice? offset size
  let _ ← table.text?
  return table

end Image

/-- The size of words and the byte order of an image. -/
structure Layout where
  wide : Bool
  order : ByteOrder
  deriving DecidableEq

namespace Layout

/-- The first number where words have 64 bits, else the second. -/
def pick (l : Layout) (inWide inNarrow : Nat) : Nat :=
  if l.wide then inWide else inNarrow

def wordSize (l : Layout) : Nat :=
  l.pick 8 4

/-- A field of two bytes. -/
def half (l : Layout) (r : Image) (offset : Nat) : Nat :=
  r.uint l.order 2 offset

/-- A field of four bytes. -/
def quad (l : Layout) (r : Image) (offset : Nat) : Nat :=
  r.uint l.order 4 offset

/-- A field of eight bytes. -/
def octet (l : Layout) (r : Image) (offset : Nat) : Nat :=
  r.uint l.order 8 offset

/-- A field of the size of a word. -/
def word (l : Layout) (r : Image) (offset : Nat) : Nat :=
  r.uint l.order l.wordSize offset

def width (l : Layout) : Width :=
  if l.wide then .u64 else .u32

end Layout

end ReachableCode
