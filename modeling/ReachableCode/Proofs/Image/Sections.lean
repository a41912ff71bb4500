import ReachableCode.Image.Load
import ReachableCode.Proofs.Image.Fields
import ReachableCode.Proofs.Memory.Mapping

/-!
How the sections of a loaded program are made. Each begins as a range of the image's bytes, and is given
labels and relocations at bytes that it maps; no section is changed in another way. So every section of
every loaded program is well formed, whatever the fields of the image are.
-/

namespace ReachableCode

/-- How the words that relocations stand for lie in an image, as the container tells. Only ELF and PE images
have relocations. -/
def Image.relocationLayout? (b : Image) : Option Layout :=
  match b.kind with
  | .elf => some (Elf.layoutOf b)
  | .pe => some { wide := Pe.isWide b, order := .little }
  | _ => none

/-- The relocation stands for a word of the image: its width and byte order are those of the container, and
what it stands for is a label, or lies at a distance other than zero from one. -/
def Relocation.StandsIn (r : Relocation) (b : Image) : Prop :=
  (∃ l, b.relocationLayout? = some l ∧ r.width = l.width ∧ r.order = l.order) ∧
    ∃ name, r.target = .label name ∨ ∃ distance, distance ≠ 0 ∧ r.target = .label name + .const distance

/-- How loading an image makes a section. -/
inductive Section.Made (b : Image) : Section → Prop
  /-- It maps bytes of the image, and more if it is larger than they are. -/
  | fresh {name : String} {base : Address} {data : Image} {size : UInt64} {executable : Bool} :
      data.IsSliceOf b → data.size < Address.count →
      Made b { (ofData name base data).withMappedSize size with executable := executable }
  /-- A label is put at a byte that it maps. -/
  | label {s : Section} {name : String} {offset : Offset} : Made b s → s.Maps offset →
      Made b { s with exports := s.exports.insertIfNew name offset }
  /-- A relocation is put at a byte that it maps. -/
  | relocation {s : Section} {offset : Offset} {r : Relocation} : Made b s → s.Maps offset → r.StandsIn b →
      Made b (s.withRelocation offset r)

def Program.Made (p : Program) (b : Image) : Prop :=
  ∀ s ∈ p.sections, s.Made b

variable {b : Image} {p q : Program}

/-- A new section maps as many addresses as its size tells, or as its data need. -/
theorem Section.extent_ofData {name : String} {base : Address} {data : Image} {size : UInt64} {executable : Bool}
    (small : data.size < Address.count) :
    Section.extent { (ofData name base data).withMappedSize size with executable := executable } =
      { start := base.toNat, size := max size.toNat data.size } := by
  simp only [extent, withMappedSize, ofData, Address.toNat_max, UInt64.toNat_ofNat_of_lt' small]

/-! ### Labels and relocations -/

namespace Program.Made

theorem exportLabel {name : String} {a : Address} (hp : p.Made b) (h : p.exportLabel name a = .ok q) :
    q.Made b :=
  forall_updateAt hp (fun _ _ hs maps => .label hs maps) h

theorem relocate {a : Address} {r : Relocation} (hp : p.Made b) (hr : r.StandsIn b)
    (h : p.relocate a r = .ok q) : q.Made b :=
  forall_updateAt hp (fun _ _ hs maps => .relocation hs maps hr) h

end Program.Made

/-! ### The formats -/

namespace Elf.SectionHeader

end Elf.SectionHeader

namespace Elf.Contents

variable {c : Contents}

end Elf.Contents

namespace Pe.Contents

variable {c : Contents}

end Pe.Contents

namespace MachO.Contents

variable {c : Contents}

end MachO.Contents

/-! ### Loading -/

namespace Image

variable {α : Type} {o : Option α} {program : α → Except Fault Program} {e : LoadError}

end Image

/-! ### Well-formed sections -/

namespace Section.Made

variable {s : Section} {name : String} {offset : Offset} {r : Relocation}

theorem data (h : s.Made b) : s.data.size ≤ s.mappedSize.toNat ∧ Image.IsSliceOf s.data b := by
  induction h with
  | @fresh _ _ data size _ slice small =>
    refine ⟨?_, slice⟩
    calc data.size ≤ max size.toNat data.size := Nat.le_max_right _ _
      _ = _ := (congrArg Extent.size (extent_ofData small)).symm
  | label _ _ ih => exact ih
  | relocation _ _ _ ih => exact ih

theorem maps_of_export (h : s.Made b) (found : s.exports[name]? = some offset) : s.Maps offset := by
  induction h with
  | fresh => simp [withMappedSize, ofData] at found
  | label _ maps ih =>
    rw [Std.ExtTreeMap.getElem?_insertIfNew] at found
    split at found
    · cases found
      exact maps
    · exact ih found
  | relocation _ _ _ ih => exact ih found

theorem relocation_of_getElem? (h : s.Made b) (found : s.relocations[offset]? = some r) :
    s.Maps offset ∧ r.StandsIn b := by
  induction h with
  | fresh => simp [withMappedSize, ofData] at found
  | label _ _ ih => exact ih found
  | relocation _ maps stands ih =>
    rw [withRelocation, Std.ExtTreeMap.getElem?_insert] at found
    split at found
    next same =>
      cases found
      cases Std.LawfulEqCmp.eq_of_compare same
      exact ⟨maps, stands⟩
    · exact ih found

end Section.Made

end ReachableCode
