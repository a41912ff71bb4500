import ReachableCode.X86.Catalogue.Arithmetic
import ReachableCode.X86.Catalogue.Moves
import ReachableCode.X86.Catalogue.Others
import ReachableCode.X86.Catalogue.Transfers
import ReachableCode.X86.Decoder

/-!
The catalogue of x86 encodings and the machines that read by it. No encoding of a mode begins with
another one, so at most one entry reads given bytes.
-/

namespace ReachableCode.X86

namespace Catalogue

def entries : Mode → List Entry
  | .narrow => narrowTransfers ++ narrowMoves ++ narrowArithmetic ++ narrowOthers
  | .wide => wideTransfers ++ wideMoves ++ wideArithmetic ++ wideOthers

/-- The entry whose encoding the bytes begin with. -/
def entry? (mode : Mode) (bytes : List UInt8) : Option Entry :=
  (entries mode).find? (·.encoding.isPrefixOf bytes)

end Catalogue

/-- The machine of a mode that reads by the catalogue. -/
def Machine.ofMode (mode : Mode) : Machine where
  mode := mode
  read := fun a bytes => (Catalogue.entry? mode bytes).map (·.reading mode a)

/-- The mode of an architecture that is an x86 one. -/
def Mode.ofArchitecture? : Architecture → Option Mode
  | .x86_32 => some .narrow
  | .x86_64 => some .wide
  | _ => none

def Mode.architecture : Mode → Architecture
  | .narrow => .x86_32
  | .wide => .x86_64

end ReachableCode.X86
