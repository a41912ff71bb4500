import ReachableCode.Proofs.Graph.Checked
import ReachableCode.Search.Exploration

/-!
When a block can be split, and that a split is done as a whole or not at all. A split writes to the
graph more than once: it shortens the head, gives each address of the tail its new owner, and last adds
the tail. In a graph whose indices agree all that can fail comes before the first write.
-/

namespace ReachableCode

open Interruption (during)

namespace Block

variable {start stop a : Address} {ds : List Decoded}

theorem exists_cutFrom (h : Spans start ds stop) : ∃ cut, cutFrom start a ds = .ok cut := by
  induction ds generalizing start with
  | nil => exact ⟨none, rfl⟩
  | cons d rest ih =>
    rw [cutFrom]
    split
    · exact ⟨_, rfl⟩
    · obtain ⟨next, hn, hs⟩ := spans_cons.1 h
      exact exists_bind_eq_ok ⟨next, hn⟩ fun next' hn' =>
        exists_bind_eq_ok (ih (Except.ok.inj (hn.symm.trans hn') ▸ hs)) fun cut _ => ⟨_, rfl⟩

end Block

namespace BlockGraph

/-- An instruction of the block at `old`, not its first one, lies at `new`. -/
def Inside (g : BlockGraph) (old new : Address) : Prop :=
  ∃ b i d, g.block? old = some b ∧ b.Holds (i + 1) new d

/-- Why the block at `old` is not split at an address that does not lie inside it. -/
def splitFault (g : BlockGraph) (old new : Address) : Fault :=
  if g.isBlockStart old then .notBoundary new old else .noBlockToSplit old

/-- Gives the instructions that lie from `a` on to the block at `new`, one after another. -/
def assign (g : BlockGraph) (new a : Address) : List Decoded → Except Interruption BlockGraph
  | [] => .ok g
  | d :: rest => do
    let g := { g with decoded := g.decoded.insert a new }
    let next ← during g (Address.plus a d.size)
    g.assign new next rest

/-- A split as it is written into the graph; a fault leaves what was written until then. -/
def splitInPlace (g : BlockGraph) (old new : Address) : Except Interruption BlockGraph :=
  match g.block? old with
  | none => .error { fault := .noBlockToSplit old, graph := g }
  | some b => do
    match ← during g (Block.cutFrom old new b.instructions) with
    | some (first :: before, after) =>
      let g := { g with blocks := g.blocks.insert old (head new b (first :: before)) }
      let g ← g.assign new new after
      return { g with blocks := g.blocks.insert new (tail old new b after) }
    | _ => .error { fault := .notBoundary new old, graph := g }

variable {g h : BlockGraph} {a old new s : Address} {b : Block} {before after : List Decoded}

/-! ### When a block can be split -/

namespace Consistent

/-- The addresses inside a block are those it owns but its start. -/
theorem inside_iff (hg : g.Consistent) : g.Inside s a ↔ g.owner? a = some s ∧ a ≠ s := by
  constructor
  · rintro ⟨b, i, d, hb, hi⟩
    refine ⟨hg.owner_of_has hb ⟨_, hi⟩, ?_⟩
    rintro rfl
    have := hg.isBlockStart_eq_false hb hi
    rw [isBlockStart_iff.2 ⟨b, hb⟩] at this
    cases this
  · rintro ⟨ho, hne⟩
    obtain ⟨b, d, hb, i, hi⟩ := hg.exists_has ho
    cases i with
    | zero => exact absurd ((Block.spans_nil.1 hi.2).symm.trans (hg.start_eq hb)) hne
    | succ i => exact ⟨b, i, d, hb, hi⟩

theorem exists_cuts (hg : g.Consistent) (hi : g.Inside old new) :
    ∃ h b before after, g.split old new = .ok h ∧ g.Cuts old new b before after h := by
  obtain ⟨ho, hne⟩ := hg.inside_iff.1 hi
  obtain ⟨h, hs⟩ := hg.exists_split ho hne
  obtain ⟨b, before, after, hc⟩ := cuts_of_split hs
  exact ⟨h, b, before, after, hs, hc⟩

theorem split_eq_error (hg : g.Consistent) (hi : ¬g.Inside old new) :
    g.split old new = .error (g.splitFault old new) := by
  rw [splitFault]
  cases hb : g.block? old with
  | none => rw [BlockGraph.split, hb, BlockGraph.isBlockStart_eq_false.2 hb, if_neg Bool.false_ne_true]
  | some b =>
    obtain ⟨stop, hs⟩ := hg.spans hb
    obtain ⟨cut, hc⟩ := Block.exists_cutFrom (a := new) hs
    rw [isBlockStart_iff.2 ⟨b, hb⟩, BlockGraph.split, hb]
    simp only [hc]
    rcases cut with _ | ⟨_ | ⟨first, before⟩, after⟩
    · rfl
    · rfl
    · -- the cut would lie at an instruction behind the first
      obtain ⟨hins, hspan, hne⟩ := Block.cutFrom_eq_some hc
      obtain ⟨d, more, rfl⟩ := List.exists_cons_of_ne_nil hne
      refine absurd ⟨b, before.length, d, hb, Block.holds_iff.2 ⟨_, more, hins, rfl, ?_⟩⟩ hi
      rw [hg.start_eq hb]
      exact hspan

end Consistent

/-! ### All writes or none -/

theorem assign_eq {placed : List (Address × Decoded)} {ds : List Decoded}
    (hp : Block.place a ds = .ok placed) : g.assign new a ds =
      .ok { g with decoded := placed.foldl (fun index (a, _) => index.insert a new) g.decoded } := by
  induction ds generalizing g a placed with
  | nil =>
    cases hp
    rfl
  | cons d rest ih =>
    obtain ⟨next, hn, hp⟩ := bind_eq_ok.1 hp
    obtain ⟨more, hm, hp⟩ := bind_eq_ok.1 hp
    cases hp
    rw [assign, hn]
    exact ih hm

/-- Writing a split into the graph does the same as making a new one, and a fault leaves the graph as it
was. -/
theorem Consistent.splitInPlace_eq (hg : g.Consistent) :
    g.splitInPlace old new = during g (g.split old new) := by
  cases hb : g.block? old with
  | none =>
    rw [splitInPlace, BlockGraph.split, hb]
    rfl
  | some b =>
    obtain ⟨stop, hs⟩ := hg.spans hb
    obtain ⟨cut, hc⟩ := Block.exists_cutFrom (a := new) hs
    rw [splitInPlace, BlockGraph.split, hb]
    simp only [hc]
    rcases cut with _ | ⟨_ | ⟨first, before⟩, after⟩
    · rfl
    · rfl
    · obtain ⟨hins, hspan, -⟩ := Block.cutFrom_eq_some hc
      obtain ⟨mid, hm, hrest⟩ := Block.spans_append.1 (hins ▸ hs)
      obtain rfl := hspan.unique hm
      -- the tail ends within the address range, so each of its instructions has a next one
      obtain ⟨moved, hp⟩ := Block.exists_place hrest
      have placed : (tail old new b after).placed = .ok moved := hp
      change (do
        let g' ← BlockGraph.assign _ new new after
        return { g' with blocks := g'.blocks.insert new (tail old new b after) }) =
        during g ((tail old new b after).placed >>= _)
      rw [assign_eq hp, placed]
      rfl

/-! ### What a split leaves as it was -/

theorem instructionCount_congr (same : ∀ a, h.isDecoded a = g.isDecoded a) :
    h.instructionCount = g.instructionCount := by
  rw [instructionCount, instructionCount, ← Std.ExtTreeMap.length_keys, ← Std.ExtTreeMap.length_keys]
  refine ((List.perm_ext_iff_of_nodup Std.ExtTreeMap.nodup_keys Std.ExtTreeMap.nodup_keys).2
    fun a => ?_).length_eq
  rw [Std.ExtTreeMap.mem_keys, Std.ExtTreeMap.mem_keys, ← Std.ExtTreeMap.contains_iff_mem,
    ← Std.ExtTreeMap.contains_iff_mem]
  exact Bool.eq_iff_iff.1 (same a)

theorem Cuts.instructionCount (hc : g.Cuts old new b before after h) (hg : g.Consistent) :
    h.instructionCount = g.instructionCount :=
  instructionCount_congr fun _ => hc.isDecoded hg

end BlockGraph

end ReachableCode
