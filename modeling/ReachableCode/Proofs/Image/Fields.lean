import ReachableCode.Image.Load
import ReachableCode.Proofs.Image.Slices

/-!
What the contents of an image hold: the layout that its first bytes tell, numbers that are words, and data
that are slices of the image. None of the numbers that a program is made of is larger than an address.
-/

namespace ReachableCode

variable {b : Image}

/-! ### ELF -/

namespace Elf

/-- Words and byte order, as the class and the encoding tell. -/
def layoutOf (b : Image) : Layout where
  wide := b.uint .little 1 4 = 2
  order := if b.uint .little 1 5 = 2 then .big else .little

/-- The numbers of a section are smaller than the addresses. -/
structure SectionHeader.InRange (s : SectionHeader) : Prop where
  address : s.address < Address.count
  size : s.size < Address.count

end Elf

/-! ### PE -/

namespace Pe

theorem quad_lt (r : Image) (offset : Nat) : quad r offset < Address.count :=
  Nat.lt_of_lt_of_le (r.uint_lt .little 4 offset) (by decide)

/-- Whether the words have eight bytes, as the optional header tells if there is one. -/
def isWide (b : Image) : Bool :=
  let start := b.uint .little 4 0x3c
  b.uint .little 2 (start + 20) ≠ 0 ∧ b.uint .little 2 (start + 24) = 0x20b

/-- The numbers of a section are smaller than the addresses. -/
structure SectionHeader.InRange (s : SectionHeader) : Prop where
  address : s.address < Address.count
  virtualSize : s.virtualSize < Address.count
  dataSize : s.dataSize < Address.count

/-- The numbers that a program is made of are smaller than the addresses. -/
structure Contents.InRange (c : Contents) : Prop where
  base : c.base < Address.count
  entry : c.entry < Address.count
  sections : ∀ s ∈ c.sections, s.InRange
  exports : ∀ e ∈ c.exports, e.address < Address.count
  imports : ∀ i ∈ c.imports, i.address < Address.count

end Pe

/-! ### Mach-O -/

namespace MachO

variable {l : Layout}

/-- The numbers of a segment are smaller than the addresses, and its data are bytes of the image. -/
structure Segment.InRange (b : Image) (s : Segment) : Prop where
  address : s.address < Address.count
  memorySize : s.memorySize < Address.count
  fileOffset : s.fileOffset < Address.count
  dataSize : s.data.size < Address.count
  data : s.data.IsSliceOf b

theorem inRange_of_segment? {wide : Bool} {offset : Nat} {s : Segment} (hs : segment? b l wide offset = some s) :
    s.InRange b := by
  obtain ⟨r, -, hs⟩ := Option.bind_eq_some_iff.1 hs
  extract_lets name word segmentOf at hs
  have small : ∀ index, word index < Address.count := by
    intro index
    show (if wide then l.octet r _ else l.quad r _) < Address.count
    split
    · exact l.octet_lt r _
    · exact l.quad_lt r _
  have opened : ∃ data : Image, (data.size < Address.count ∧ data.IsSliceOf b) ∧ segmentOf data = some s := by
    split at hs
    · exact ⟨#[], ⟨(by decide : 0 < Address.count), Image.isSliceOf_empty⟩, hs⟩
    · obtain ⟨data, hd, hs⟩ := Option.bind_eq_some_iff.1 hs
      exact ⟨data, ⟨Image.size_of_slice? hd ▸ small 3, Image.isSliceOf_of_slice? hd⟩, hs⟩
  obtain ⟨data, ⟨size, slice⟩, hs⟩ := opened
  cases hs
  exact ⟨small 0, small 1, small 2, size, slice⟩

/-- The numbers that a program is made of are smaller than the addresses, and its data are bytes of the
image. -/
structure Contents.InRange (b : Image) (c : Contents) : Prop where
  segments : ∀ s ∈ c.segments, s.InRange b
  symbols : ∀ s ∈ c.symbols, s.value < Address.count
  main : ∀ distance, c.main = some distance → distance < Address.count

theorem value_of_symbolsFrom {strings offset count : Nat} :
    ∀ s ∈ symbolsFrom b l strings offset count, s.value < Address.count := by
  induction count generalizing offset with
  | zero => nofun
  | succ count ih =>
    rw [symbolsFrom]
    dsimp only
    split
    · nofun
    next r _ =>
      split
      · exact ih
      · exact List.forall_mem_cons.2 ⟨l.word_lt r 8, ih⟩

theorem value_of_symbols? {offset : Nat} {symbols : List Sym} (h : symbols? b l offset = some symbols) :
    ∀ s ∈ symbols, s.value < Address.count := by
  obtain ⟨r, -, h⟩ := Option.bind_eq_some_iff.1 h
  dsimp only at h
  split at h
  · cases h
  · cases h
    exact value_of_symbolsFrom

theorem Contents.InRange.addCommand? {c d : Contents} {kind offset : Nat} (hc : c.InRange b)
    (h : c.addCommand? b l kind offset = some d) : d.InRange b := by
  have segment : ∀ {wide s}, segment? b l wide offset = some s →
      Contents.InRange b { c with segments := c.segments ++ [s] } := fun hs =>
    ⟨List.forall_mem_append.2 ⟨hc.segments, List.forall_mem_singleton.2 (inRange_of_segment? hs)⟩,
      hc.symbols, hc.main⟩
  unfold Contents.addCommand? at h
  split at h
  · obtain ⟨s, hs, h⟩ := Option.bind_eq_some_iff.1 h
    cases h
    exact segment hs
  · obtain ⟨s, hs, h⟩ := Option.bind_eq_some_iff.1 h
    cases h
    exact segment hs
  · obtain ⟨symbols, hs, h⟩ := Option.bind_eq_some_iff.1 h
    cases h
    exact ⟨hc.segments, value_of_symbols? hs, hc.main⟩
  · obtain ⟨state, -, h⟩ := Option.bind_eq_some_iff.1 h
    split at h
    · cases h
      exact hc
    · obtain ⟨pointer, -, h⟩ := Option.bind_eq_some_iff.1 h
      cases h
      exact ⟨hc.segments, hc.symbols, hc.main⟩
  · obtain ⟨r, -, h⟩ := Option.bind_eq_some_iff.1 h
    cases h
    refine ⟨hc.segments, hc.symbols, fun distance hd => ?_⟩
    rcases Option.or_eq_some_iff.1 hd with old | ⟨-, new⟩
    · exact hc.main distance old
    · cases new
      exact l.octet_lt r 8
  case h_13 =>
    cases h
    exact hc
  -- of libraries and search paths nothing is kept
  all_goals
    obtain ⟨r, -, h⟩ := Option.bind_eq_some_iff.1 h
    obtain ⟨name, -, h⟩ := Option.bind_eq_some_iff.1 h
    cases h
    exact hc

theorem Contents.InRange.addCommands? {c d : Contents} {offset count : Nat} (hc : c.InRange b)
    (h : c.addCommands? b l offset count = some d) : d.InRange b := by
  induction count generalizing c offset with
  | zero =>
    cases h
    exact hc
  | succ count ih =>
    obtain ⟨r, -, h⟩ := Option.bind_eq_some_iff.1 h
    dsimp only at h
    split at h
    · cases h
    · obtain ⟨c', hc', h⟩ := Option.bind_eq_some_iff.1 h
      exact ih (hc.addCommand? hc') h

end MachO

end ReachableCode
