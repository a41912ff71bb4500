import ReachableCode.Graph.Violation
import ReachableCode.Proofs.Graph.Consistent
import Mathlib.Data.List.Nodup

/-!
The structural check finds nothing wrong with a graph whose two indices agree. For the count, the
places of all instructions are listed block by block: no place is there twice, and the places are
the decoded addresses.
-/

namespace ReachableCode

namespace Block

variable {b : Block} {a : Address} {stop : Address}

/-- The addresses of the instructions, in order. -/
def places (b : Block) : List Address :=
  (List.range b.instructions.length).map fun i =>
    b.start + UInt64.ofNat (byteCount (b.instructions.take i))

@[simp] theorem length_places : b.places.length = b.instructions.length := by
  simp [places]

theorem spans_place {i : Nat} (hs : Spans b.start b.instructions stop) : Spans b.start
    (b.instructions.take i) (b.start + UInt64.ofNat (byteCount (b.instructions.take i))) := by
  obtain ⟨mid, hm⟩ := hs.take i
  have := mid.toNat_lt
  have hm' := hm
  simp only [Spans] at hm' ⊢
  rw [UInt64.toNat_add, UInt64.toNat_ofNat_of_lt' (by simp only [UInt64.size]; omega),
    Nat.mod_eq_of_lt (by omega)]

theorem mem_places (hs : Spans b.start b.instructions stop) : a ∈ b.places ↔ ∃ d, b.Has a d := by
  simp only [places, List.mem_map, List.mem_range, Has, Holds]
  constructor
  · rintro ⟨i, hi, rfl⟩
    exact ⟨_, i, List.getElem?_eq_getElem hi, spans_place hs⟩
  · rintro ⟨d, i, hd, ha⟩
    exact ⟨i, (List.getElem?_eq_some_iff.1 hd).1, (spans_place hs).unique ha⟩

theorem nodup_places (hr : ∀ d ∈ b.instructions.dropLast, d.RunsOn)
    (hs : Spans b.start b.instructions stop) : b.places.Nodup := by
  refine List.Nodup.map_on ?_ List.nodup_range
  intro i hi j hj e
  have holds : ∀ {k}, k ∈ List.range b.instructions.length →
      ∃ d, b.Holds k (b.start + UInt64.ofNat (byteCount (b.instructions.take k))) d := fun hk =>
    ⟨_, List.getElem?_eq_getElem (List.mem_range.1 hk), spans_place hs⟩
  obtain ⟨_, hi⟩ := holds hi
  obtain ⟨_, hj⟩ := holds hj
  exact (e ▸ hi).index_unique hr hj

end Block

namespace BlockGraph

variable {g : BlockGraph} {s : Address} {b : Block}

/-- The addresses of the instructions of all blocks. -/
def places (g : BlockGraph) : List Address :=
  g.blocks.toList.flatMap fun x => x.2.places

theorem mem_blocks {x : Address × Block} : x ∈ g.blocks.toList ↔ g.block? x.1 = some x.2 :=
  Std.ExtTreeMap.mem_toList_iff_getElem?_eq_some

theorem length_places :
    g.places.length = g.blocks.toList.foldr (·.2.instructions.length + ·) 0 := by
  rw [places]
  induction g.blocks.toList with
  | nil => rfl
  | cons x rest ih => simp [ih]

namespace Consistent

theorem nodup_places (hg : g.Consistent) : g.places.Nodup := by
  have ends : ∀ {x}, x ∈ g.blocks.toList → ∃ stop, Block.Spans x.2.start x.2.instructions stop :=
    fun hx => hg.exists_spans (mem_blocks.1 hx)
  rw [places, List.nodup_flatMap]
  refine ⟨fun x hx => ?_, ?_⟩
  · obtain ⟨stop, hs⟩ := ends hx
    exact Block.nodup_places (hg.runsOn (mem_blocks.1 hx)) hs
  · refine List.Pairwise.imp_of_mem ?_ (Std.ExtTreeMap.distinct_keys_toList (t := g.blocks))
    intro x y hx hy hxy a hax hay
    obtain ⟨_, hsx⟩ := ends hx
    obtain ⟨_, hsy⟩ := ends hy
    obtain ⟨_, hax⟩ := (Block.mem_places hsx).1 hax
    obtain ⟨_, hay⟩ := (Block.mem_places hsy).1 hay
    -- two blocks that share a place would both own it
    have := (hg.owner_of_has (mem_blocks.1 hx) hax).symm.trans (hg.owner_of_has (mem_blocks.1 hy) hay)
    exact hxy (Std.compare_eq_iff_eq.2 (Option.some.inj this))

theorem mem_places (hg : g.Consistent) {a : Address} : a ∈ g.places ↔ a ∈ g.decoded.keys := by
  rw [Std.ExtTreeMap.mem_keys, ← Std.ExtTreeMap.contains_iff_mem]
  change _ ↔ g.isDecoded a = true
  simp only [isDecoded_iff, hg.owner_iff, places, List.mem_flatMap, Prod.exists, mem_blocks]
  constructor
  · rintro ⟨s, b, hb, ha⟩
    obtain ⟨stop, hs⟩ := hg.exists_spans hb
    obtain ⟨d, hd⟩ := (Block.mem_places hs).1 ha
    exact ⟨s, b, d, hb, hd⟩
  · rintro ⟨s, b, d, hb, hd⟩
    obtain ⟨stop, hs⟩ := hg.exists_spans hb
    exact ⟨s, b, hb, (Block.mem_places hs).2 ⟨d, hd⟩⟩

theorem count_eq (hg : g.Consistent) :
    g.blocks.toList.foldr (·.2.instructions.length + ·) 0 = g.decoded.size := by
  rw [← length_places, ← Std.ExtTreeMap.length_keys]
  exact ((List.perm_ext_iff_of_nodup hg.nodup_places Std.ExtTreeMap.nodup_keys).2
    fun _ => hg.mem_places).length_eq

theorem blockViolation?_eq (hg : g.Consistent) (hb : g.block? s = some b) :
    g.blockViolation? s b = .ok none := by
  obtain ⟨stop, hs⟩ := hg.exists_spans hb
  obtain ⟨ps, hp⟩ := Block.exists_place hs
  have owned : ∀ x ∈ ps, g.owner? x.1 = some s := fun x hx =>
    hg.owner_of_has hb ((Block.mem_placed hp).1 hx)
  have none_wrong : ps.findSome? (fun x =>
      if g.owner? x.1 = some s then none else some (Violation.misowned x.1 s (g.owner? x.1))) = none := by
    rw [List.findSome?_eq_none_iff]
    exact fun x hx => if_pos (owned x hx)
  rw [blockViolation?, if_neg (by simp [hg.start_eq hb]), if_neg]
  · exact bind_eq_ok.2 ⟨ps, hp, congrArg _ none_wrong⟩
  · rintro ⟨hne, ho⟩
    exact ho (hg.owner_start hb (by simpa using hne))

theorem violation?_eq (hg : g.Consistent) : g.violation? = .ok none := by
  have checked : g.blocks.toList.mapM (fun x => g.blockViolation? x.1 x.2) =
      .ok (g.blocks.toList.map fun _ => none) :=
    mapM_eq_ok_map fun _ hx => hg.blockViolation?_eq (mem_blocks.1 hx)
  rw [violation?]
  simp only [hg.count_eq, ne_eq, not_true_eq_false, if_false]
  refine bind_eq_ok.2 ⟨_, checked, ?_⟩
  rw [pure_eq_ok, List.findSome?_eq_none_iff]
  simp

end Consistent

end BlockGraph

end ReachableCode
