import ReachableCode.Proofs.Graph.Checked
import ReachableCode.Proofs.Memory.Labels

/-!
The instructions of a graph in order: block by block, and in each block by address. This is the order in which
a graph is gone through, and it has every instruction once.
-/

namespace ReachableCode

/-- An instruction of a graph, the block that it is in, and where it lies. -/
structure Site where
  block : Block
  address : Address
  decoded : Decoded

/-- The one instruction comes before the other, by the starts of their blocks or else by their addresses. -/
def Site.Precedes (p q : Site) : Prop :=
  p.block.start < q.block.start ∨ p.block.start = q.block.start ∧ p.address < q.address

namespace Block

variable {b : Block} {a stop : Address} {d : Decoded} {i : Nat}

/-- The instructions with their addresses, in order. -/
def code (b : Block) : List (Address × Decoded) :=
  b.places.zip b.instructions

def sites (b : Block) : List Site :=
  b.code.map fun (a, d) => { block := b, address := a, decoded := d }

theorem getElem?_code (hs : Spans b.start b.instructions stop) : b.code[i]? = some (a, d) ↔ b.Holds i a d := by
  rw [code, List.getElem?_zip_eq_some, places, List.getElem?_map, Option.map_eq_some_iff, and_comm]
  refine and_congr_right fun hd => ?_
  have hi := (List.getElem?_eq_some_iff.1 hd).1
  rw [List.getElem?_range hi]
  constructor
  · rintro ⟨_, same, rfl⟩
    cases same
    exact spans_place hs
  · intro ha
    exact ⟨i, rfl, (spans_place hs).unique ha⟩

theorem placed_eq (hs : Spans b.start b.instructions stop) : b.placed = .ok b.code := by
  obtain ⟨ps, hp⟩ := exists_place hs
  rw [placed, hp]
  refine congrArg _ (List.ext_getElem? fun i => Option.ext fun x => ?_)
  exact (getElem?_place hp).trans (getElem?_code hs).symm

theorem mem_code (hs : Spans b.start b.instructions stop) : (a, d) ∈ b.code ↔ b.Has a d :=
  mem_placed (placed_eq hs)

/-- Only the last instruction may have no bytes, so each lies further on than the one before. -/
theorem code_ascending (hr : ∀ d ∈ b.instructions.dropLast, d.RunsOn) (hs : Spans b.start b.instructions stop) :
    b.code.Pairwise fun p q => p.1 < q.1 := by
  rw [List.pairwise_iff_getElem]
  intro i j hi hj hij
  have holds : ∀ {k} (hk : k < b.code.length), b.Holds k b.code[k].1 b.code[k].2 := fun hk =>
    (getElem?_code hs).1 (List.getElem?_eq_getElem hk)
  have := byteCount_take_lt hr hij (List.getElem?_eq_some_iff.1 (holds hj).1).1
  have hi := (holds hi).2
  have hj := (holds hj).2
  simp only [Spans] at hi hj
  rw [UInt64.lt_iff_toNat_lt]
  omega

theorem length_sites : b.sites.length = b.instructions.length := by
  simp [sites, code]

end Block

namespace BlockGraph

variable {g : BlockGraph} {b : Block} {x : Site}

/-- The blocks of the graph in order, each once, and the instructions of each in order. -/
structure ListsBlocks (g : BlockGraph) (blocks : List Block) : Prop where
  mem_iff : ∀ b : Block, b ∈ blocks ↔ ∃ s, g.block? s = some b
  ascending : blocks.Pairwise fun b c => b.start < c.start
  length : blocks.length = g.blocks.size
  mem_code_iff : ∀ b ∈ blocks, ∀ a d, (a, d) ∈ b.code ↔ b.Has a d
  code_ascending : ∀ b ∈ blocks, b.code.Pairwise fun p q => p.1 < q.1

theorem mem_values : b ∈ g.blocks.values ↔ ∃ s, g.block? s = some b := by
  rw [values_eq_map_toList]
  simp [mem_blocks]

/-- The instructions of all blocks, the blocks in the order of their starts. -/
def sites (g : BlockGraph) : List Site :=
  g.blocks.values.flatMap Block.sites

namespace Consistent

theorem placed_eq (hg : g.Consistent) (hb : b ∈ g.blocks.values) : b.placed = .ok b.code := by
  obtain ⟨s, hb⟩ := mem_values.1 hb
  obtain ⟨stop, hs⟩ := hg.exists_spans hb
  exact Block.placed_eq hs

theorem values_ascending (hg : g.Consistent) : g.blocks.values.Pairwise fun b c => b.start < c.start := by
  rw [values_eq_map_toList, List.pairwise_map]
  refine List.Pairwise.imp_of_mem ?_ (Std.ExtTreeMap.ordered_keys_toList (t := g.blocks))
  intro p q hp hq order
  rw [hg.start_eq (mem_blocks.1 hp), hg.start_eq (mem_blocks.1 hq)]
  exact Std.compare_eq_lt.1 order

theorem listsBlocks (hg : g.Consistent) : g.ListsBlocks g.blocks.values where
  mem_iff _ := mem_values
  ascending := hg.values_ascending
  length := by rw [values_eq_map_toList, List.length_map, Std.ExtTreeMap.length_toList]
  mem_code_iff b hb a d := by
    obtain ⟨s, hb⟩ := mem_values.1 hb
    obtain ⟨stop, hs⟩ := hg.exists_spans hb
    exact Block.mem_code hs
  code_ascending b hb := by
    obtain ⟨s, hb⟩ := mem_values.1 hb
    obtain ⟨stop, hs⟩ := hg.exists_spans hb
    exact Block.code_ascending (hg.runsOn hb) hs

theorem length_sites (hg : g.Consistent) : g.sites.length = g.instructionCount := by
  rw [instructionCount, ← hg.count_eq, sites, values_eq_map_toList]
  induction g.blocks.toList with
  | nil => rfl
  | cons x rest ih => simpa [Block.length_sites] using ih

end Consistent

end BlockGraph

end ReachableCode
