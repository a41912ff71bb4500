import ReachableCode.Graph.Basic
import ReachableCode.Memory.Program
import ReachableCode.Text.Blank

/-!
The source-like listing of a graph. Each section in which a block starts is listed from its base to
its end: the blocks in order, and as data what lies between them. Bytes beyond the data of a section
are only counted.
-/

namespace ReachableCode

/-- A line of a source-like listing. -/
inductive Line where
  | heading (sectionName : String) (base : Address)
  | label (name : String)
  | code (address : Address) (instruction : Instruction)
  | successors (addresses : List Address)
  | data (address : Address) (bytes : List UInt8)
  /-- A number of bytes that have no value in the image. -/
  | uninitialised (address : Address) (count : UInt64)
  | blank
  deriving DecidableEq

namespace Line

def dataWidth : Nat := 16

/-- The address at the start of a line, with eight digits or more. -/
def lead (a : Address) : String :=
  "0x" ++ Hex.padded 8 a.toNat ++ ": "

def text : Line → String
  | heading name base => "; section " ++ name ++ " at " ++ base.text
  | label name => name ++ ":"
  | code a i =>
    Blank.trimRight (lead a ++ Blank.padRight 24 i.bytesText ++ " " ++ Blank.padRight 8 i.mnemonic
      ++ " " ++ i.operands)
  | successors [] => "; no successors"
  | successors as => "; to " ++ ", ".intercalate (as.map Address.text)
  | data a bytes => lead a ++ "db " ++ ", ".intercalate (bytes.map fun b => "0x" ++ Hex.byte b)
  | uninitialised a count => lead a ++ "db " ++ toString count.toNat ++ " dup(?)"
  | blank => ""

/-- Bytes from an address on, as many to a line as fit. -/
def ofBytes (a : Address) (bytes : List UInt8) : List Line :=
  if bytes.isEmpty then []
  else
    data a (bytes.take dataWidth)
      :: ofBytes (a + UInt64.ofNat dataWidth) (bytes.drop dataWidth)
termination_by bytes.length
decreasing_by
  rename_i h
  have : bytes.length ≠ 0 := by simpa using h
  simp only [List.length_drop, dataWidth]
  omega

/-- What lies in a section from `start` up to `stop`. -/
def ofGap (s : Section) (start stop : Address) : Except Fault (List Line) := do
  let dataEnd ← Address.plus s.base (UInt64.ofNat s.data.size)
  let middle := max start (min stop dataEnd)
  let bytes := s.data.extract (start - s.base).toNat (middle - s.base).toNat
  let rest := if middle < stop then [uninitialised middle (stop - middle)] else []
  return ofBytes start bytes.toList ++ rest

/-- A block: its labels, its instructions, and where control goes from it. -/
def ofBlock (s : Section) (b : Block) : Except Fault (List Line) := do
  let code := (← b.placed).map fun (a, d) => code a d.instruction
  return (s.labelsAt (b.start - s.base)).map label ++ code
    ++ [successors b.successors.toList, blank]

/-- Blocks of a section in order, each after the gap before it, and the address up to which all of
them and what went before is listed. -/
def ofBlocks (s : Section) (a : Address) : List Block → Except Fault (List Line × Address)
  | [] => .ok ([], a)
  | b :: rest => do
    let gap ← if a < b.start then (· ++ [blank]) <$> ofGap s a b.start else .ok []
    let lines ← ofBlock s b
    let (more, stop) ← ofBlocks s (max a (← b.endAddress)) rest
    return (gap ++ lines ++ more, stop)

/-- A section in which at least one block starts. -/
def ofSection (g : BlockGraph) (s : Section) : Except Fault (List Line) := do
  let blocks ← g.blocks.values.filterM fun b => s.contains b.start
  if blocks.isEmpty then return []
  else
    let (lines, a) ← ofBlocks s s.base blocks
    let stop ← s.endAddress
    let rest ← if a < stop then (· ++ [blank]) <$> ofGap s a stop else .ok []
    return heading s.name s.base :: blank :: (lines ++ rest)

def ofProgram (p : Program) (g : BlockGraph) : Except Fault (List Line) :=
  List.flatten <$> p.sections.mapM (ofSection g)

end Line

def BlockGraph.textListing (g : BlockGraph) (p : Program) : Except Fault String := do
  return String.join ((← Line.ofProgram p g).map fun line => line.text ++ "\n")

end ReachableCode
