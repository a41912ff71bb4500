import ReachableCode.Image.Bytes
import ReachableCode.Memory.Program

/-!
Mach-O images: the load commands that map segments, tell the symbols, and tell where control begins.
A fat image holds several images for different machines.
-/

namespace ReachableCode.MachO

/-- The layout that the first bytes of an image tell. -/
def layout? (b : Image) : Option Layout := do
  match ← b.uint? .big 4 0 with
  | 0xcefaedfe => some { wide := false, order := .little }
  | 0xcffaedfe => some { wide := true, order := .little }
  | 0xfeedface => some { wide := false, order := .big }
  | 0xfeedfacf => some { wide := true, order := .big }
  | _ => none

/-- Whether the first bytes are those of a Mach-O image. Those of a fat image in little-endian order are
too, but no such image can be read. -/
def isClaimed (b : Image) : Bool :=
  (layout? b).isSome || b.uint .big 4 0 = 0xbebafeca

/-- A range of addresses and what it is filled with. -/
structure Segment where
  name : Option String
  isText : Bool
  address : Nat
  memorySize : Nat
  fileOffset : Nat
  /-- The initial protection. -/
  protection : Nat
  data : Image

/-- Reads the command of a segment, in words of eight bytes or of four. The file range must lie in
the image unless it is empty. -/
def segment? (b : Image) (l : Layout) (wide : Bool) (offset : Nat) : Option Segment := do
  let r ← b.slice? offset (if wide then 72 else 56)
  let name : Image := r.extract 8 24
  let word (index : Nat) := if wide then l.octet r (24 + 8 * index) else l.quad r (24 + 4 * index)
  let data ← if word 3 = 0 then some #[] else b.slice? (word 2) (word 3)
  return {
    name := name.cString? 0
    isText := name.extract 0 7 = #[95, 95, 84, 69, 88, 84, 0]
    address := word 0
    memorySize := word 1
    fileOffset := word 2
    protection := l.quad r (if wide then 60 else 44)
    data }

structure Sym where
  name : String
  sectionIndex : Nat
  value : Nat

/-- Reads symbols from an offset on, as far as they lie in the image. Their names lie from `strings`
on; a symbol whose name is no text is left out. -/
def symbolsFrom (b : Image) (l : Layout) (strings offset : Nat) : Nat → List Sym
  | 0 => []
  | count + 1 =>
    let size := l.pick 16 12
    match b.slice? offset size with
    | none => []
    | some r =>
      let rest := symbolsFrom b l strings (offset + size) count
      match b.cString? (strings + l.quad r 0) with
      | none => rest
      | some name =>
        { name, sectionIndex := r.uint l.order 1 5, value := l.word r 8 } :: rest

/-- Reads the command of the symbol table. The names must not lie before the symbols. -/
def symbols? (b : Image) (l : Layout) (offset : Nat) : Option (List Sym) := do
  let r ← b.slice? offset 24
  let symbolsAt := l.quad r 8
  let strings := l.quad r 16
  if strings < symbolsAt ∨ b.size < symbolsAt then none
  else return symbolsFrom b l strings symbolsAt (l.quad r 12)

/-- The instruction pointer in the state of a thread, by the machine. -/
def instructionPointer? (l : Layout) (machine : Nat) (state : Image) : Option Nat :=
  let word (index : Nat) := l.quad state (4 * index)
  match machine with
  | 7 => some (word 10)
  | 0x1000007 => some (word 32 + UInt32.size * word 33)
  | 12 => some (word 15)
  | 0x100000c => some (word 64 + UInt32.size * word 65)
  | 18 => some (word 0)
  | _ => none

/-- Reads the command of a thread: its state has at most seventy words, and the ones that are missing
are zero. -/
def thread? (b : Image) (l : Layout) (offset : Nat) : Option Image := do
  let r ← b.slice? offset 16
  let count := l.quad r 12
  if 70 < count then none else b.slice? (offset + 16) (4 * count)

structure Contents where
  machine : Nat
  segments : List Segment
  symbols : List Sym
  /-- The place that the first command for it tells. -/
  main : Option Nat
  /-- The instruction pointer that the first thread command tells. -/
  thread : Option Nat

def Contents.addCommand? (c : Contents) (b : Image) (l : Layout) (kind offset : Nat) :
    Option Contents := do
  match kind with
  | 0x1 => return { c with segments := c.segments ++ [← segment? b l false offset] }
  | 0x19 => return { c with segments := c.segments ++ [← segment? b l true offset] }
  | 0x2 => return { c with symbols := ← symbols? b l offset }
  | 0x5 =>
    let state ← thread? b l offset
    if c.thread.isSome then return c
    else return { c with thread := ← instructionPointer? l c.machine state }
  | 0x80000028 =>
    let r ← b.slice? offset 24
    return { c with main := c.main.or (some (l.octet r 8)) }
  | 0xc | 0xd | 0x80000018 | 0x8000001f | 0x20 | 0x80000023 | 0x8000001c =>
    -- a library or a search path, whose name must be text
    let r ← b.slice? offset (if kind = 0x8000001c then 12 else 24)
    let _ ← b.cString? (offset + l.quad r 8)
    return c
  | _ => return c

/-- Takes in load commands that follow one another. Each tells its size. -/
def Contents.addCommands? (c : Contents) (b : Image) (l : Layout) (offset : Nat) :
    Nat → Option Contents
  | 0 => some c
  | count + 1 => do
    let r ← b.slice? offset 8
    let size := l.quad r 4
    if b.size < offset + size then none
    else
      let c ← c.addCommand? b l (l.quad r 0) offset
      c.addCommands? b l (offset + size) count

def Contents.text? (c : Contents) : Option Segment :=
  c.segments.find? (·.isText)

/-- Reads the image of one machine. A main place needs a text segment to lie in. -/
def contents? (b : Image) : Option Contents := do
  let l ← layout? b
  let headerSize := l.pick 32 28
  let r ← b.slice? 0 headerSize
  let count := l.quad r 16
  let size := l.quad r 20
  if size / 8 < count ∨ b.size < size then none
  else
    let c : Contents :=
      { machine := l.quad r 4, segments := [], symbols := [], main := none, thread := none }
    let c ← c.addCommands? b l headerSize count
    if c.main.isSome ∧ c.text?.isNone then none else return c

def architecture (machine : Nat) : Architecture :=
  match machine with
  | 7 => .x86_32
  | 0x1000007 => .x86_64
  | 12 => .arm
  | 0x100000c => .aarch64
  | _ => .unknown

namespace Contents

/-- The address where control begins, or zero. -/
def entry (c : Contents) : Except Fault Address :=
  match c.main, c.text? with
  | some distance, some text => do
    let start ← Address.minus (UInt64.ofNat text.address) (UInt64.ofNat text.fileOffset)
    Address.plus start (UInt64.ofNat distance)
  | _, _ => .ok (UInt64.ofNat (c.thread.getD 0))

/-- The sections of the program: the segments that are not empty. -/
def programSections (c : Contents) : List Section :=
  (c.segments.filter (·.memorySize ≠ 0)).map fun s =>
    let made := Section.ofData (s.name.getD "") (UInt64.ofNat s.address) s.data
    { made.withMappedSize (UInt64.ofNat s.memorySize) with executable := s.protection.testBit 2 }

def program (c : Contents) : Except Fault Program := do
  let entry ← c.entry
  let p : Program :=
    { architecture := architecture c.machine, entryPoint := none, sections := c.programSections }
  let labels := c.symbols.filter fun s => s.sectionIndex ≠ 0 && !s.name.isEmpty
  let p ← labels.foldlM (fun p s => p.exportLabel s.name (UInt64.ofNat s.value)) p
  return { p with entryPoint := if entry = 0 then none else some entry }

end Contents

/-- The images in a fat image, by the table at its start, as far as the table lies in the image. An
image that does not lie in the file is empty. -/
def slicesFrom (b : Image) (offset : Nat) : Nat → List Image
  | 0 => []
  | count + 1 =>
    match b.slice? offset 20 with
    | none => []
    | some r =>
      (b.slice? (r.uint .big 4 8) (r.uint .big 4 12)).getD #[]
        :: slicesFrom b (offset + 20) count

/-- The first image in a fat image that can be read; none has less than sixteen bytes. -/
def firstSlice? (b : Image) : Option Contents :=
  (slicesFrom b 8 (b.uint .big 4 4)).findSome? fun slice =>
    if slice.size < 16 then none else contents? slice

end ReachableCode.MachO
