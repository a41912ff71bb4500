import ReachableCode.Error
import ReachableCode.Image.Archive
import ReachableCode.Image.Elf
import ReachableCode.Image.MachO
import ReachableCode.Image.Pe

/-!
Loading an image. Its first bytes tell its kind; ELF, PE and Mach-O images hold programs.
-/

namespace ReachableCode

/-- Why an image is refused. -/
inductive LoadError where
  /-- The image is damaged. -/
  | malformed
  /-- The image is of a kind that holds no program. -/
  | unsupported
  /-- No image in a fat image can be read. -/
  | noSlice
  deriving DecidableEq, Repr

namespace LoadError

def reason : LoadError → String
  | malformed => "malformed image"
  | unsupported => "Unsupported file format"
  | noSlice => "Fat Mach-O without a Mach-O slice"

/-- The error that a caller is told of. -/
def toError (e : LoadError) : Error :=
  .parsing e.reason

end LoadError

namespace Image

inductive Kind where
  | elf | archive | pe | object | machO | fat | other
  deriving DecidableEq, Repr

def kind (b : Image) : Kind :=
  if b.uint .big 4 0 = 0x7f454c46 then .elf
  else if b.uint .big 8 0 = 0x213c617263683e0a then .archive
  else if b.uint .little 2 0 = 0x5a4d then .pe
  else if b.uint .little 2 0 ∈ [0x14c, 0x8664, 0xaa64] then .object
  else if b.uint .big 4 0 = 0xcafebabe then .fat
  else if MachO.isClaimed b then .machO
  else .other

def build {α : Type} (contents : Option α) (program : α → Except Fault Program)
    (otherwise : LoadError) : Except (Halt LoadError) Program :=
  match contents with
  | none => Halt.throw otherwise
  | some c => Halt.ofFault (program c)

/-- Loads an image. None has less than sixteen bytes. -/
def load (b : Image) : Except (Halt LoadError) Program :=
  if b.size < 16 then Halt.throw .malformed
  else
    match b.kind with
    | .elf => build (Elf.contents? b) (·.program b) .malformed
    | .pe => build (Pe.contents? b) (·.program b) .malformed
    | .machO => build (MachO.contents? b) (·.program) .malformed
    | .fat => build (MachO.firstSlice? b) (·.program) .noSlice
    | .archive => Halt.throw (if Archive.isSound b then .unsupported else .malformed)
    | .object => Halt.throw (if ObjectFile.isSound b then .unsupported else .malformed)
    | .other => Halt.throw .unsupported

end Image

end ReachableCode
