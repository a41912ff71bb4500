import ReachableCode.Memory.Section
import ReachableCode.Memory.Architecture

/-!
Programs: the sections of one image with its architecture and its entry point. Sections may
overlap and may export the same label; the first one in the list that has what is asked for counts,
and no section after it is looked at.
-/

namespace ReachableCode

/-- A loaded image. -/
structure Program where
  architecture : Architecture
  entryPoint : Option Address
  sections : List Section
  deriving DecidableEq

namespace Program

def empty (architecture : Architecture) : Program where
  architecture := architecture
  entryPoint := none
  sections := []

/-- The first of the sections that maps an address. -/
def firstMapping (a : Address) : List Section → Except Fault (Option Section)
  | [] => .ok none
  | s :: rest => do
    if ← s.contains a then return some s else firstMapping a rest

def sectionAt (p : Program) (a : Address) : Except Fault (Option Section) :=
  firstMapping a p.sections

def exporter? (p : Program) (label : String) : Option Section :=
  p.sections.find? (·.exports.contains label)

/-- The section that exports a label, with the label's offset in it. -/
def labelPlace (p : Program) (label : String) : Option (Section × Offset) := do
  let s ← p.exporter? label
  let offset ← s.exports[label]?
  return (s, offset)

def labelAddress (p : Program) (label : String) : Except Fault (Option Address) :=
  match p.labelPlace label with
  | none => .ok none
  | some (s, offset) => some <$> Address.plus s.base offset

/-- The labels at an address that the section mapping it exports. -/
def labelsAt (p : Program) (a : Address) : Except Fault (List String) := do
  match ← p.sectionAt a with
  | none => return []
  | some s => return s.labelsAt (a - s.base)

/-- The addresses of all labels: section by section, and by name within one. -/
def labelAddresses (p : Program) : Except Fault (List Address) :=
  List.flatten <$> p.sections.mapM Section.labelAddresses

/-- Changes the first of the sections that maps an address, given the address's offset in it. -/
def updateMapping (a : Address) (f : Offset → Section → Section) :
    List Section → Except Fault (List Section)
  | [] => .ok []
  | s :: rest => do
    if ← s.contains a then return f (a - s.base) s :: rest
    else return s :: (← updateMapping a f rest)

/-- Changes the section that maps an address; an address that is not mapped changes nothing. -/
def updateAt (p : Program) (a : Address) (f : Offset → Section → Section) :
    Except Fault Program := do
  return { p with sections := ← updateMapping a f p.sections }

/-- Exports a label from the section that maps an address, unless that section has one of the same
name. -/
def exportLabel (p : Program) (name : String) (a : Address) : Except Fault Program :=
  p.updateAt a fun offset s => { s with exports := s.exports.insertIfNew name offset }

def relocate (p : Program) (a : Address) (r : Relocation) : Except Fault Program :=
  p.updateAt a fun offset s => s.withRelocation offset r

/-- A label for an address: the first one there, else a new one, named by `stem` and the address and
exported from the section that maps it. -/
def labelFor (p : Program) (a : Address) (stem : String) :
    Except Fault (Option (String × Program)) := do
  match ← p.sectionAt a with
  | none => return none
  | some s =>
    match s.labelsAt (a - s.base) with
    | label :: _ => return some (label, p)
    | [] =>
      let label := stem ++ "_" ++ Hex.digits a.toNat
      return some (label, ← p.updateAt a fun offset s => s.withLabel label offset)

end Program

end ReachableCode
