import ReachableCode.Image.Bytes
import ReachableCode.Memory.Program

/-!
ELF images: the headers, the symbol tables, and the relocations of the dynamic section. Only what a
program is made of is kept; the rest is read as far as an image that lacks it is refused.
-/

namespace ReachableCode.Elf

structure Header where
  layout : Layout
  machine : Nat
  entry : Nat
  programHeadersAt : Nat
  sectionHeadersAt : Nat
  programHeaderCount : Nat
  sectionHeaderCount : Nat
  sectionNames : Nat

/-- Reads the header. Class and byte order must be known ones. -/
def header? (b : Image) : Option Header := do
  let wide ← match ← b.uint? .little 1 4 with
    | 1 => some false
    | 2 => some true
    | _ => none
  let order ← match ← b.uint? .little 1 5 with
    | 1 => some ByteOrder.little
    | 2 => some ByteOrder.big
    | _ => none
  let l : Layout := { wide, order }
  let r ← b.slice? 0 (l.pick 64 52)
  return {
    layout := l
    machine := l.half r 18
    entry := l.word r 24
    programHeadersAt := l.word r (l.pick 32 28)
    sectionHeadersAt := l.word r (l.pick 40 32)
    programHeaderCount := l.half r (l.pick 56 44)
    sectionHeaderCount := l.half r (l.pick 60 48)
    sectionNames := l.half r (l.pick 62 50) }

/-- How a part of the file is mapped. -/
structure ProgramHeader where
  kind : Nat
  offset : Nat
  address : Nat
  fileSize : Nat
  memorySize : Nat

def programHeaders? (b : Image) (h : Header) : Option (List ProgramHeader) := do
  let l := h.layout
  let rs ← b.records? (l.pick 56 32) h.programHeadersAt h.programHeaderCount
  return rs.map fun r => {
    kind := l.quad r 0
    offset := l.word r (l.pick 8 4)
    address := l.word r (l.pick 16 8)
    fileSize := l.word r (l.pick 32 16)
    memorySize := l.word r (l.pick 40 20) }

/-- The file offset of an address, by the first loaded range that holds it. -/
def fileOffset? (ps : List ProgramHeader) (a : Nat) : Option Nat := do
  let p ← ps.find? fun p => p.kind = 1 ∧ p.address ≤ a ∧ a - p.address < p.memorySize
  let offset := p.offset + (a - p.address)
  if offset < Address.count then some offset else none

structure SectionHeader where
  name : Nat
  kind : Nat
  flags : Nat
  address : Nat
  offset : Nat
  size : Nat
  link : Nat
  entrySize : Nat

namespace SectionHeader

/-- Whether the section has no bytes in the file. -/
def isEmptyInFile (s : SectionHeader) : Bool :=
  s.kind = 8

/-- Whether the bytes of the section lie in the file and its addresses below the last one. -/
def fits (s : SectionHeader) (b : Image) : Bool :=
  s.isEmptyInFile || s.size = 0 || (s.offset + s.size ≤ b.size && s.address + s.size < Address.count)

/-- Whether the section is mapped when the image runs. -/
def isAllocated (s : SectionHeader) : Bool :=
  s.flags.testBit 1

/-- Whether the section is mapped and holds instructions. -/
def isExecutable (s : SectionHeader) : Bool :=
  s.isAllocated && s.flags.testBit 2

/-- The bytes of the section that the file has. -/
def data (s : SectionHeader) (b : Image) : Image :=
  if s.isEmptyInFile then #[] else (b.slice? s.offset s.size).getD #[]

end SectionHeader

def SectionHeader.ofRecord (l : Layout) (r : Image) : SectionHeader where
  name := l.quad r 0
  kind := l.quad r 4
  flags := l.word r 8
  address := l.word r (l.pick 16 12)
  offset := l.word r (l.pick 24 16)
  size := l.word r (l.pick 32 20)
  link := l.quad r (l.pick 40 24)
  entrySize := l.word r (l.pick 56 36)

/-- Reads the section headers. A count of zero stands for the size that the first of them tells, and
the first is there in any case. -/
def sectionHeaders? (b : Image) (h : Header) : Option (List SectionHeader) := do
  let l := h.layout
  let size := l.pick 64 40
  if h.sectionHeadersAt = 0 then return []
  else
    let first := SectionHeader.ofRecord l (← b.slice? h.sectionHeadersAt size)
    let count := if h.sectionHeaderCount = 0 then first.size else h.sectionHeaderCount
    let rs ← b.records? size (h.sectionHeadersAt + size) (count - 1)
    return first :: rs.map (SectionHeader.ofRecord l)

/-- The string table in a section; an index that names no section has an empty one. -/
def sectionStrings? (b : Image) (ss : List SectionHeader) (index : Nat) : Option Image :=
  let index := if index = 0xffff then (ss.head?.map (·.link)).getD 0 else index
  match ss[index]? with
  | none => some #[]
  | some s => if s.fits b then b.stringTable? s.offset s.size else none

structure Sym where
  name : Nat
  kind : Nat
  sectionIndex : Nat
  value : Nat

def symbols? (b : Image) (l : Layout) (offset count : Nat) : Option (List Sym) := do
  let size := l.pick 24 16
  let table ← b.read? offset (count * size)
  let rs ← table.records? size 0 count
  return rs.map fun r => {
    name := l.quad r 0
    kind := r.uint l.order 1 (l.pick 4 12) % 16
    sectionIndex := l.half r (l.pick 6 14)
    value := l.word r (l.pick 8 4) }

/-- A relocation of the dynamic section; not every kind has an addend. -/
structure Reloc where
  offset : Nat
  symbolIndex : Nat
  addend : Option Int64

/-- Reads relocations; a rest that makes up no whole one is left over. -/
def relocs? (b : Image) (l : Layout) (withAddend : Bool) (offset size : Nat) :
    Option (List Reloc) := do
  if size = 0 then return []
  else
    let table ← b.slice? offset size
    let width := l.wordSize * (if withAddend then 3 else 2)
    let rs ← table.records? width 0 (size / width)
    return rs.map fun r => {
      offset := l.word r 0
      symbolIndex := l.word r (l.pick 8 4) >>> l.pick 32 8
      addend := if withAddend then
          let bytes := l.order.leastFirst (r.extract (2 * l.wordSize) (3 * l.wordSize)).toList
          some (l.width.signed.valueOf bytes)
        else none }

/-- The entries of the dynamic section as pairs of tag and value, up to the one with tag zero. -/
def dynamicEntries? (b : Image) (l : Layout) (ps : List ProgramHeader) :
    Option (List (Nat × Nat)) := do
  match ps.find? (·.kind = 2) with
  | none => return []
  | some p =>
    if p.fileSize = 0 then return []
    else
      let table ← b.slice? p.offset p.fileSize
      let size := 2 * l.wordSize
      let rs ← table.records? size 0 (p.fileSize / size)
      let entries := rs.map fun r => (l.word r 0, l.word r (l.pick 8 4))
      return entries.takeWhile (·.1 ≠ 0)

def lastValue? (entries : List (Nat × Nat)) (tag : Nat) : Option Nat :=
  entries.reverse.lookup tag

/-- The number of entries of the hash chain up to the next one whose lowest bit is set, itself
included. -/
def chainLength? (b : Image) (o : ByteOrder) (offset : Nat) : Nat → Option Nat
  | 0 => none
  | fuel + 1 => do
    let hash ← b.uint? o 4 offset
    if hash % 2 = 1 then return 1 else return (← chainLength? b o (offset + 4) fuel) + 1

/-- The number of symbols by the hash table of the second kind: that of the highest chain's end. -/
def gnuHashCount? (b : Image) (l : Layout) (offset : Nat) : Option Nat := do
  let bucketCount ← b.uint? l.order 4 offset
  let lowest ← b.uint? l.order 4 (offset + 4)
  let bloomSize ← b.uint? l.order 4 (offset + 8)
  if bucketCount = 0 ∨ lowest = 0 ∨ bloomSize = 0 then none
  else
    let bucketsAt := offset + 16 + bloomSize * l.wordSize
    let buckets ← b.slice? bucketsAt (bucketCount * 4)
    let highest := ((← buckets.records? 4 0 bucketCount).map (·.uint l.order 4 0)).foldl max 0
    if highest < lowest then return 0
    else
      let chainAt := bucketsAt + bucketCount * 4 + (highest - lowest) * 4
      return highest + (← chainLength? b l.order chainAt b.size)

/-- The number of symbols by the hash table of the first kind. On two machines its words have eight
bytes. -/
def hashCount? (b : Image) (h : Header) (offset : Nat) : Option Nat :=
  let size := if h.layout.wide ∧ (h.machine = 0x9026 ∨ h.machine = 22) then 8 else 4
  b.uint? h.layout.order size (offset + 4)

/-- What the dynamic section tells. -/
structure Dynamic where
  strings : Image
  symbols : List Sym
  /-- Those of the procedure linkage first, then those with addends, then the others. -/
  relocs : List Reloc

def dynamic? (b : Image) (h : Header) (ps : List ProgramHeader) : Option Dynamic := do
  let l := h.layout
  let entries ← dynamicEntries? b l ps
  let value (tag : Nat) := (lastValue? entries tag).getD 0
  let place? (tag : Nat) := (lastValue? entries tag).bind (fileOffset? ps)
  let place (tag : Nat) := (place? tag).getD 0
  let strings ← b.stringTable? (place 5) (value 10)
  let withAddend ← relocs? b l true (place 7) (value 8)
  let without ← relocs? b l false (place 17) (value 18)
  let linkage ← relocs? b l (value 20 = 7) (place 23) (value 2)
  let hashed ← match place? 0x6ffffef5, place? 4 with
    | some offset, _ => gnuHashCount? b l offset
    | none, some offset => hashCount? b h offset
    | none, none => some 0
  let relocs := linkage ++ withAddend ++ without
  let highest := (relocs.map (·.symbolIndex)).foldl max 0
  let count := if highest = 0 then hashed else max hashed (highest + 1)
  let symbols ← symbols? b l (place 6) count
  return { strings, symbols, relocs }

structure Contents where
  header : Header
  sections : List SectionHeader
  sectionNames : Image
  symbols : List Sym
  strings : Image
  dynamic : Dynamic

/-- Whether the bytes of every relocation section lie in the file. -/
def relocationSectionsLieIn (b : Image) (l : Layout) (ss : List SectionHeader) : Bool :=
  ss.all fun s =>
    (s.kind ≠ 4 && s.kind ≠ 9) || (s.fits b && (relocs? b l (s.kind = 4) s.offset s.size).isSome)

/-- Whether the bytes of the sections that tell the versions of symbols lie in the file. -/
def versionSectionsLieIn (b : Image) (ss : List SectionHeader) : Bool :=
  [0x6fffffff, 0x6ffffffd, 0x6ffffffe].all fun kind =>
    (ss.find? (·.kind = kind)).all fun s => (b.read? s.offset s.size).isSome

/-- Reads the symbol tables that sections hold, each with its string table. -/
def symbolTables? (b : Image) (l : Layout) (ss : List SectionHeader) :
    Option (List (List Sym × Image)) :=
  (ss.filter (·.kind = 2)).mapM fun s => do
    let count := if s.entrySize = 0 then 0 else s.size / s.entrySize
    return (← symbols? b l s.offset count, ← sectionStrings? b ss s.link)

/-- Reads an ELF image. Of several symbol tables the last one counts. -/
def contents? (b : Image) : Option Contents := do
  let h ← header? b
  let ps ← programHeaders? b h
  let ss ← sectionHeaders? b h
  let sectionNames ← sectionStrings? b ss h.sectionNames
  let (symbols, strings) := (← symbolTables? b h.layout ss).getLast?.getD ([], #[])
  let dynamic ← dynamic? b h ps
  if relocationSectionsLieIn b h.layout ss && versionSectionsLieIn b ss then
    return { header := h, sections := ss, sectionNames, symbols, strings, dynamic }
  else none

def architecture (h : Header) : Architecture :=
  match h.machine with
  | 3 => .x86_32
  | 62 => .x86_64
  | 40 => .arm
  | 183 => .aarch64
  | 8 => .mips32
  | 243 => if h.layout.wide then .riscv64 else .riscv32
  | _ => .unknown

namespace Contents

/-- The sections of the program: those that are mapped, at an address other than zero. -/
def programSections (c : Contents) (b : Image) : List Section :=
  (c.sections.filter fun s => s.isAllocated && s.address ≠ 0).map fun s =>
    let made := Section.ofData ((c.sectionNames.cString? s.name).getD "")
      (UInt64.ofNat s.address) (s.data b)
    { made.withMappedSize (UInt64.ofNat s.size) with executable := s.isExecutable }

/-- The name of a symbol that has one. -/
def name? (strings : Image) (s : Sym) : Option String :=
  (strings.cString? s.name).filter (!·.isEmpty)

/-- The labels: the functions and objects that the image defines. -/
def labels (strings : Image) (symbols : List Sym) : List (String × Address) :=
  symbols.filterMap fun s =>
    if s.sectionIndex ≠ 0 ∧ (s.kind = 1 ∨ s.kind = 2) then
      (name? strings s).map fun name => (name, UInt64.ofNat s.value)
    else none

/-- The relocations that stand for symbols of other images. -/
def imports (c : Contents) : List (Address × Relocation) :=
  let l := c.header.layout
  let symbols := c.dynamic.symbols.toArray
  c.dynamic.relocs.filterMap fun r => do
    let s ← symbols[r.symbolIndex]?
    if s.sectionIndex ≠ 0 then none
    else
      let name ← name? c.dynamic.strings s
      let addend := r.addend.getD 0
      let label := Expr.label name
      return (UInt64.ofNat r.offset, {
        width := l.width
        order := l.order
        target := if addend = 0 then label else label + .const addend })

def program (c : Contents) (b : Image) : Except Fault Program := do
  let p : Program :=
    { architecture := architecture c.header, entryPoint := none, sections := c.programSections b }
  let p ← (labels c.strings c.symbols ++ labels c.dynamic.strings c.dynamic.symbols).foldlM
    (fun p (name, a) => p.exportLabel name a) p
  let p ← c.imports.foldlM (fun p (a, r) => p.relocate a r) p
  if c.header.entry = 0 then return p
  else
    let entry := UInt64.ofNat c.header.entry
    { p with entryPoint := some entry }.exportLabel "entrypoint" entry

end Contents

end ReachableCode.Elf
