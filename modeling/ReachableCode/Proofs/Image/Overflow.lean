import ReachableCode.Proofs.Image.Sections
import ReachableCode.Proofs.Memory.Labels

/-!
When loading an image is given up. Loading adds numbers of the image up to addresses, and looks for the
sections that map the addresses of labels and relocations. It is given up exactly if, counted without
end, one of the sums is no address or a section that is found goes on past the last address. Of a program
that has been loaded every label can be looked up, and so can every address but those that a section maps
first which goes on past the last one.
-/

namespace ReachableCode

variable {b : Image} {p : Program} {es : List Extent} {a : Address} {r : Relocation}

namespace Address

variable {m n : Nat}

end Address

namespace Program

end Program

/-! ### ELF -/

namespace Elf.Contents

variable {c : Contents}

/-- The ranges that the sections of the program map. -/
def extents (c : Contents) : List Extent :=
  (c.sections.filter fun s => s.isAllocated && s.address ≠ 0).map fun s => { start := s.address, size := s.size }

end Elf.Contents

/-! ### PE -/

namespace Pe.Contents

variable {c : Contents} {n : Nat}

/-- The range that a section of the program maps. -/
def extent (c : Contents) (b : Image) (s : SectionHeader) : Extent where
  start := c.base + s.address
  size := max s.virtualSize ((b.slice? s.dataAt s.dataSize).getD #[]).size

def extents (c : Contents) (b : Image) : List Extent :=
  c.sections.map (c.extent b)

end Pe.Contents

/-! ### Mach-O -/

namespace MachO.Contents

variable {c : Contents}

/-- The ranges that the sections of the program map. -/
def extents (c : Contents) : List Extent :=
  (c.segments.filter (·.memorySize ≠ 0)).map fun s => { start := s.address, size := max s.memorySize s.data.size }

end MachO.Contents

/-! ### Loading -/

namespace Image

variable {α : Type} {o : Option α} {program : α → Except Fault Program} {stops : α → Prop} {e : LoadError}

end Image

theorem Program.Made.placesLabels (hp : p.Made b) : ∀ s ∈ p.sections, s.PlacesLabels := by
  intro s mem label offset found
  obtain ⟨below, fits⟩ := (hp s mem).maps_of_export found
  have below := UInt64.lt_iff_toNat_lt.1 below
  have fits : s.base.toNat + s.mappedSize.toNat < Address.count := Nat.not_le.1 fits
  omega

end ReachableCode
