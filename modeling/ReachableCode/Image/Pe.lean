import ReachableCode.Image.Bytes
import ReachableCode.Memory.Program

/-!
PE images: the headers, the section table, the exports and the imports. All numbers are little-endian,
and addresses in the image are relative to its base.
-/

namespace ReachableCode.Pe

/-- A number of four bytes in a record. -/
def quad (r : Image) (offset : Nat) : Nat :=
  r.uint .little 4 offset

/-- A number of two bytes in a record. -/
def half (r : Image) (offset : Nat) : Nat :=
  r.uint .little 2 offset

/-- The header of an object file, which the image header contains. -/
structure ObjectHeader where
  machine : Nat
  sectionCount : Nat
  symbolsAt : Nat
  symbolCount : Nat
  optionalSize : Nat

def objectHeader? (b : Image) (offset : Nat) : Option ObjectHeader := do
  let r ← b.slice? offset 20
  return {
    machine := half r 0
    sectionCount := half r 2
    symbolsAt := quad r 8
    symbolCount := quad r 12
    optionalSize := half r 16 }

namespace ObjectHeader

def symbolSize : Nat := 18

/-- Where the string table lies, behind the symbols. -/
def stringsAt (h : ObjectHeader) : Nat :=
  h.symbolsAt + h.symbolCount * symbolSize

end ObjectHeader

structure SectionHeader where
  name : Option String
  virtualSize : Nat
  address : Nat
  dataSize : Nat
  dataAt : Nat
  flags : Nat

/-- The number that decimal digits denote, after an optional plus sign. -/
def decimal? (s : String) : Option Nat :=
  let digits := match s.toList with
    | '+' :: rest => rest
    | cs => cs
  if digits.isEmpty ∨ !digits.all Char.isDigit then none
  else some (digits.foldl (fun n c => 10 * n + (c.toNat - 48)) 0)

/-- The value of a digit of a name in base 64. -/
def base64Value? (c : Char) : Option Nat :=
  if 'A' ≤ c ∧ c ≤ 'Z' then some (c.toNat - 65)
  else if 'a' ≤ c ∧ c ≤ 'z' then some (c.toNat - 71)
  else if '0' ≤ c ∧ c ≤ '9' then some (c.toNat + 4)
  else if c = '+' then some 62
  else if c = '/' then some 63
  else none

/-- The name of a section. A slash stands before the place of a longer name in the string table, in
decimal, or two slashes before it in base 64. The outer result is none when that place cannot be
read; the inner one when the eight bytes are no text. -/
def sectionName? (b : Image) (stringsAt : Nat) (r : Image) : Option (Option String) :=
  let name : Image := r.extract 0 8
  if name[0]? ≠ some 47 then some (name.cString? 0)
  else if name[1]? ≠ some 47 then do
    let place ← decimal? (← name.cString? 1)
    return some (← b.cString? (stringsAt + place))
  else do
    let digits ← (← name.cString? 2).toList.mapM base64Value?
    return some (← b.cString? (stringsAt + digits.foldl (fun n d => 64 * n + d) 0))

def sectionHeader? (b : Image) (stringsAt : Nat) (r : Image) : Option SectionHeader := do
  return {
    name := ← sectionName? b stringsAt r
    virtualSize := quad r 8
    address := quad r 12
    dataSize := quad r 16
    dataAt := quad r 20
    flags := quad r 36 }

/-- Reads the section headers that follow an object header. -/
def sectionHeaders? (b : Image) (h : ObjectHeader) (offset : Nat) : Option (List SectionHeader) := do
  (← b.records? 40 offset h.sectionCount).mapM (sectionHeader? b h.stringsAt)

structure Directory where
  address : Nat
  size : Nat

structure OptionalHeader where
  wide : Bool
  entry : Nat
  base : Nat
  fileAlignment : Nat
  /-- The directories; one that is all zero is absent. -/
  directories : List (Option Directory)

namespace OptionalHeader

def exports? (h : OptionalHeader) : Option Directory :=
  h.directories[0]?.join

def imports? (h : OptionalHeader) : Option Directory :=
  h.directories[1]?.join

end OptionalHeader

/-- Reads the optional header, which has at most sixteen directories. -/
def optionalHeader? (b : Image) (offset : Nat) : Option OptionalHeader := do
  let wide ← match ← b.uint? .little 2 offset with
    | 0x10b => some false
    | 0x20b => some true
    | _ => none
  let size := if wide then 112 else 96
  let r ← b.slice? offset size
  let count := quad r (size - 4)
  if 16 < count then none
  else
    let ds ← b.records? 8 (offset + size) count
    return {
      wide
      entry := quad r 16
      base := if wide then r.uint .little 8 24 else quad r 28
      fileAlignment := quad r 36
      directories := ds.map fun d =>
        if quad d 0 = 0 ∧ quad d 4 = 0 then none else some { address := quad d 0, size := quad d 4 } }

/-- A multiple of `unit` that is not below `n`. -/
def roundUp (n unit : Nat) : Nat :=
  (n + unit - 1) / unit * unit

namespace SectionHeader

/-- Where the data of a section begins when it is loaded: at a multiple of 512. -/
def loadedAt (s : SectionHeader) : Nat :=
  s.dataAt / 512 * 512

/-- How many bytes of the file are loaded, in pages, and no more pages than the section has. -/
def loadedSize (s : SectionHeader) (alignment : Nat) : Nat :=
  let size := min (roundUp (s.dataAt + s.dataSize) alignment - s.loadedAt) (roundUp s.dataSize 4096)
  if s.virtualSize = 0 then size
  else if size = 0 then s.virtualSize
  else min size (roundUp s.virtualSize 4096)

end SectionHeader

/-- What it takes to find a relative address in the file. -/
structure Mapping where
  alignment : Nat
  sections : List SectionHeader

/-- The file offset of a relative address, by the first section that holds it. The alignment must be
a power of two. -/
def Mapping.offset? (m : Mapping) (a : Nat) : Option Nat := do
  if m.alignment ≠ 1 <<< m.alignment.log2 then none
  else
    let s ← m.sections.find? fun s => s.address ≤ a ∧ a < s.address + s.loadedSize m.alignment
    return a - s.address + s.loadedAt

def Mapping.text? (m : Mapping) (b : Image) (a : Nat) : Option String := do
  b.cString? (← m.offset? a)

/-- A label at a relative address; not every export has a name. -/
structure Export where
  name : Option String
  address : Nat

/-- Numbers of one size that follow one another, at most `count`, as far as they lie in the file. -/
def numbersFrom (b : Image) (size offset : Nat) : Nat → List Nat
  | 0 => []
  | count + 1 =>
    match b.uint? .little size offset with
    | none => []
    | some n => n :: numbersFrom b size (offset + size) count

/-- Whether a text names an export of another image: its name, a point, and the name of the export or
a number sign and its number. -/
def isForwarder (text : String) : Bool :=
  match text.toList.dropWhile (· ≠ '.') with
  | '.' :: '#' :: number => (decimal? (String.ofList number)).any (· < UInt32.size)
  | '.' :: _ :: _ => true
  | _ => false

/-- Reads the exports. A directory that cannot be read has none, and a name whose address is missing
is left out. Addresses inside the directory are those of texts that name another image's export. -/
def exports (b : Image) (m : Mapping) (d : Directory) : List Export :=
  let table? := do
    let r ← b.slice? (← m.offset? d.address) 40
    if b.size < quad r 24 ∨ b.size < quad r 20 then none else some r
  match table? with
  | none => []
  | some r =>
    let numbers (size place count : Nat) : List Nat :=
      (m.offset? place).elim [] fun offset => numbersFrom b size offset count
    let addresses := (numbers 4 (quad r 28) (quad r 20)).toArray
    let names := numbers 4 (quad r 32) (quad r 24)
    let ordinals := numbers 2 (quad r 36) (quad r 24)
    (names.zip ordinals).filterMap fun (name, ordinal) => do
      let a ← addresses[ordinal]?
      let e : Export := { name := m.text? b name, address := a }
      if d.address ≤ a ∧ a < d.address + d.size then
        if isForwarder (← m.text? b a) then some e else none
      else some e

/-- A symbol of another image, at the relative address of its name; one that is only known by number
is at zero. -/
structure Import where
  name : String
  address : Nat

/-- Reads the words of a table up to a zero, which must come before the end of the file. -/
def wordsToZero? (b : Image) (size offset : Nat) : Nat → Option (List Nat)
  | 0 => none
  | fuel + 1 => do
    let n ← b.uint? .little size offset
    if n = 0 then return [] else return n :: (← wordsToZero? b size (offset + size) fuel)

/-- The import that a word of a lookup table stands for. The top bit tells a number; else the word
leads to a hint of two bytes and the name, and one that leads nowhere is left out. -/
def import? (b : Image) (m : Mapping) (wordSize n : Nat) : Option (Option Import) :=
  if n.testBit (8 * wordSize - 1) then
    some (some { name := "ORDINAL " ++ toString (n % UInt16.size), address := 0 })
  else
    let a := n % 0x80000000
    match m.offset? a with
    | none => some none
    | some offset => do
      let _ ← b.slice? offset 2
      return some { name := ← b.cString? (offset + 2), address := a }

def importsOf? (b : Image) (m : Mapping) (wordSize : Nat) (r : Image) : Option (List Import) := do
  let _ ← m.text? b (quad r 12)
  let imports ← match (m.offset? (quad r 0)).or (m.offset? (quad r 16)) with
    | none => some []
    | some offset => do
      let words ← wordsToZero? b wordSize offset b.size
      pure (← words.mapM (import? b m wordSize)).reduceOption
  let _ ← wordsToZero? b wordSize (← m.offset? (quad r 16)) b.size
  return imports

/-- Reads the entries of the import directory, up to one without name or without address table. -/
def importsFrom? (b : Image) (m : Mapping) (wordSize offset : Nat) : Nat → Option (List Import)
  | 0 => none
  | fuel + 1 => do
    let r ← b.slice? offset 20
    if quad r 12 = 0 ∨ quad r 16 = 0 then return []
    else
      let imports ← importsOf? b m wordSize r
      return imports ++ (← importsFrom? b m wordSize (offset + 20) fuel)

structure Contents where
  machine : Nat
  wide : Bool
  base : Nat
  entry : Nat
  sections : List SectionHeader
  exports : List Export
  imports : List Import

/-- Reads a PE image. One without optional header has no exports, no imports, and base and entry
zero. -/
def contents? (b : Image) : Option Contents := do
  let start ← b.uint? .little 4 0x3c
  if start ≤ 0x40 ∨ (← b.uint? .little 4 start) ≠ 0x4550 then none
  else
    let h ← objectHeader? b (start + 4)
    let optionalAt := start + 24
    let optional ← if h.optionalSize = 0 then some none else some <$> optionalHeader? b optionalAt
    let sections ← sectionHeaders? b h (optionalAt + h.optionalSize)
    match optional with
    | none =>
      return { machine := h.machine, wide := false, base := 0, entry := 0, sections, exports := []
               imports := [] }
    | some o =>
      let m : Mapping := { alignment := o.fileAlignment, sections }
      let imports ← match o.imports? with
        | none => some []
        | some d => do
          importsFrom? b m (if o.wide then 8 else 4) (← m.offset? d.address) b.size
      return {
        machine := h.machine
        wide := o.wide
        base := o.base
        entry := o.entry
        sections
        exports := o.exports?.elim [] (exports b m)
        imports }

def architecture (machine : Nat) : Architecture :=
  match machine with
  | 0x14c => .x86_32
  | 0x8664 => .x86_64
  | 0x1c0 => .arm
  | 0xaa64 => .aarch64
  | _ => .unknown

namespace Contents

/-- The address of a relative address. -/
def address (c : Contents) (a : Nat) : Except Fault Address :=
  Address.plus (UInt64.ofNat c.base) (UInt64.ofNat a)

def programSection (c : Contents) (b : Image) (s : SectionHeader) : Except Fault Section := do
  let base ← c.address s.address
  let made := Section.ofData (s.name.getD "") base ((b.slice? s.dataAt s.dataSize).getD #[])
  return { made.withMappedSize (UInt64.ofNat s.virtualSize) with executable := s.flags.testBit 29 }

def program (c : Contents) (b : Image) : Except Fault Program := do
  let sections ← c.sections.mapM (c.programSection b)
  let p : Program := { architecture := architecture c.machine, entryPoint := none, sections }
  let p ← c.exports.foldlM (fun p e => do
    match e.name with
    | none => return p
    | some name => p.exportLabel name (← c.address e.address)) p
  let p ← c.imports.foldlM (fun p i => do
    let r : Relocation :=
      { width := if c.wide then .u64 else .u32, order := .little, target := .label i.name }
    p.relocate (← c.address i.address) r) p
  let entry ← c.address c.entry
  { p with entryPoint := some entry }.exportLabel "entrypoint" entry

end Contents

end ReachableCode.Pe
