import ReachableCode.Memory.Program

/-!
Cursors: a position in one section, from which bytes, integers and expressions are read. A read
that does not fit in the mapped range yields nothing and leaves the cursor where it is.
-/

namespace ReachableCode

/-- A position in a section. -/
structure Cursor where
  place : Section
  /-- The offset of the next byte. -/
  offset : Offset
  deriving DecidableEq

namespace Cursor

def address (c : Cursor) : Except Fault Address :=
  Address.plus c.place.base c.offset

def advance (c : Cursor) (count : UInt64) : Except Fault Cursor := do
  return { c with offset := ← Address.plus c.offset count }

/-- At most `count` of the next bytes, as far as the section is mapped. -/
def peek (c : Cursor) (count : UInt64) : Except Fault (List UInt8) := do
  let _ ← Address.plus c.offset count
  return c.place.bytesFrom c.offset.toNat count.toNat

def readByte (c : Cursor) : Option (UInt8 × Cursor) := do
  let b ← c.place.byteAt c.offset.toNat
  return (b, { c with offset := c.offset + 1 })

def readInt (c : Cursor) (w : Width) (o : ByteOrder) : Except Fault (Option (Int64 × Cursor)) := do
  let raw ← c.peek (UInt64.ofNat w.bytes)
  if raw.length < w.bytes then return none
  else return some (w.valueOf (o.leastFirst raw), ← c.advance (UInt64.ofNat w.bytes))

/-- Reads an expression: the target of the relocation at the cursor when that fits the read, else the
integer there. -/
def readExpr (c : Cursor) (w : Width) (o : ByteOrder) : Except Fault (Option (Expr × Cursor)) := do
  match c.place.relocations[c.offset]?.filter (·.fits w o) with
  | some r => return some (r.target, ← c.advance (UInt64.ofNat w.bytes))
  | none => return (← c.readInt w o).map fun (v, after) => (.const v, after)

end Cursor

namespace Program

def cursorAt (p : Program) (a : Address) : Except Fault (Option Cursor) := do
  return (← p.sectionAt a).map fun s => { place := s, offset := a - s.base }

/-- A cursor at a label, which is not checked to lie in the mapped range. -/
def labelCursor? (p : Program) (label : String) : Option Cursor :=
  (p.labelPlace label).map fun (s, offset) => { place := s, offset := offset }

end Program

end ReachableCode
