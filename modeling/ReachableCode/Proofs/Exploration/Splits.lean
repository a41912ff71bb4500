import ReachableCode.Proofs.Exploration.Steady
import ReachableCode.Proofs.Graph.Edges
import ReachableCode.Proofs.Graph.Pieces
import ReachableCode.Proofs.Graph.Split

/-!
Splits of the graphs that explorations and earlier splits lead to: when a split is done and what it
changes, that it is done as a whole or not at all, and that the order of splits does not matter but for
what control comes from.
-/

namespace ReachableCode.Explorer

open Interruption (during)

variable {x : Explorer} {g : BlockGraph} {places more : List Address}

/-- A split is done exactly at the instructions inside a block, and cuts that block there and nothing else;
asked for elsewhere, it fails before it writes to the graph. A decoded address is made a start by splitting
its block there, unless it is one. -/
theorem splits_are_exact_and_atomic (hg : x.Attainable g) (old new : Address) :
    (g.Inside old new → ∃ h b before after, g.splitInPlace old new = .ok h ∧
      g.split old new = .ok h ∧ g.Cuts old new b before after h ∧ g.block? new = none ∧
      h.instructionCount = g.instructionCount ∧ h.violation? = .ok none) ∧
    (¬g.Inside old new →
      g.splitInPlace old new = .error { fault := g.splitFault old new, graph := g } ∧
      g.split old new = .error (g.splitFault old new)) ∧
    (g.isBlockStart new = true → g.makeStart new = .ok g) ∧
    (∀ s, g.isBlockStart new = false → g.owner? new = some s →
      g.Inside s new ∧ g.makeStart new = g.split s new) ∧
    (g.isBlockStart new = false → g.isDecoded new = false →
      g.makeStart new = .error (.undecodedSplit new)) := by
  have hg := hg.consistent
  refine ⟨fun hi => ?_, fun hi => ?_, fun start => if_pos start, fun s start ho => ?_, fun start hd => ?_⟩
  · obtain ⟨h, b, before, after, hs, hc⟩ := hg.exists_cuts hi
    refine ⟨h, b, before, after, ?_, hs, hc, hc.block?_new hg, hc.instructionCount hg,
      (hc.consistent hg).violation?_eq⟩
    rw [hg.splitInPlace_eq, hs]
    rfl
  · have hs := hg.split_eq_error hi
    refine ⟨?_, hs⟩
    rw [hg.splitInPlace_eq, hs]
    rfl
  · refine ⟨hg.inside_iff.2 ⟨ho, ?_⟩, ?_⟩
    · rintro rfl
      obtain ⟨b, d, hb, -⟩ := hg.exists_has ho
      rw [BlockGraph.isBlockStart_iff.2 ⟨b, hb⟩] at start
      cases start
    · rw [BlockGraph.makeStart, start, ho]
      rfl
  · rw [BlockGraph.makeStart, start, BlockGraph.isDecoded_eq_false.1 hd]
    rfl

/-- A split between two instructions, and one behind the last. -/
theorem split_at_the_second_of_three :
    ∃ g h b before after,
      (Toy.explorer [0x00, 0x00, 0xc3]).explore .empty (.address 0x1000) = .ok g ∧
      g.splitInPlace 0x1000 0x1001 = .ok h ∧ g.Cuts 0x1000 0x1001 b before after h ∧
      g.splitInPlace 0x1000 0x1003 =
        .error { fault := .notBoundary 0x1003 0x1000, graph := g } := by
  have run : (do
      let g : BlockGraph ← (Toy.explorer [0x00, 0x00, 0xc3]).explore .empty (.address 0x1000)
      return (g.owner? 0x1001, g.owner? 0x1003, g.isBlockStart 0x1000)) =
        .ok (some 0x1000, none, true) := by
    cbv
  obtain ⟨g, he, run⟩ := bind_eq_ok.1 run
  obtain ⟨within, behind, start⟩ : g.owner? 0x1001 = some 0x1000 ∧ g.owner? 0x1003 = none ∧
      g.isBlockStart 0x1000 = true := by
    simpa using Except.ok.inj run
  have hg := attainable_of_explore .empty he
  obtain ⟨h, b, before, after, hs, -, hc, -⟩ := (splits_are_exact_and_atomic hg 0x1000 0x1001).1
    (hg.consistent.inside_iff.2 ⟨within, by decide⟩)
  obtain ⟨failed, -⟩ := (splits_are_exact_and_atomic hg 0x1000 0x1003).2.1 fun hi => by
    rw [(hg.consistent.inside_iff.1 hi).1] at behind
    cases behind
  rw [BlockGraph.splitFault, if_pos start] at failed
  exact ⟨g, h, b, before, after, he, hs, hc, failed⟩

/-- Decoded addresses can be made starts in any order and any number of times; the graphs that result differ
at most in what control comes from. -/
theorem splits_commute (hg : x.Attainable g) (decoded : ∀ a ∈ places, g.isDecoded a = true)
    (same : ∀ a, a ∈ more ↔ a ∈ places) :
    ∃ h k, places.foldlM BlockGraph.makeStart g = .ok h ∧ more.foldlM BlockGraph.makeStart g = .ok k ∧
      h.SameButOrigins k := by
  have hg := hg.consistent
  obtain ⟨h, hh, cut⟩ := (BlockGraph.CutAt.refl hg).exists_foldlM decoded
  obtain ⟨k, hk, cut'⟩ := (BlockGraph.CutAt.refl hg).exists_foldlM fun a ha => decoded a ((same a).1 ha)
  exact ⟨h, k, hh, hk, cut.same cut' hg (by simp [same])⟩

/-- Three instructions split at the second and the third, in the one order and in the other: the last block
comes from the second instruction in the one graph and from the first in the other. -/
theorem splits_at_the_second_and_third :
    ∃ g h k, (Toy.explorer [0x00, 0x00, 0xc3]).explore .empty (.address 0x1000) = .ok g ∧
      [0x1001, 0x1002].foldlM BlockGraph.makeStart g = .ok h ∧
      [0x1002, 0x1001, 0x1002].foldlM BlockGraph.makeStart g = .ok k ∧ h.SameButOrigins k ∧
      h.Comes 0x1001 0x1002 ∧ ¬k.Comes 0x1001 0x1002 := by
  have run : (do
      let g : BlockGraph ← (Toy.explorer [0x00, 0x00, 0xc3]).explore .empty (.address 0x1000)
      let h : BlockGraph ← during g ([0x1001, 0x1002].foldlM BlockGraph.makeStart g)
      let k : BlockGraph ← during g ([0x1002, 0x1001, 0x1002].foldlM BlockGraph.makeStart g)
      return (g.isDecoded 0x1001, g.isDecoded 0x1002,
        (h.block? 0x1002).map fun b : Block => b.predecessors.toList,
        (k.block? 0x1002).map fun b : Block => b.predecessors.toList)) =
        .ok (true, true, some [0x1001], some [0x1000]) := by
    cbv
  obtain ⟨g, he, run⟩ := bind_eq_ok.1 run
  obtain ⟨h, hh, run⟩ := bind_eq_ok.1 run
  obtain ⟨k, hk, run⟩ := bind_eq_ok.1 run
  rw [during_eq_ok] at hh hk
  simp only [pure_eq_ok, Prod.mk.injEq] at run
  obtain ⟨second, third, comes, comes'⟩ := run
  have decoded : ∀ a ∈ [(0x1001 : Address), 0x1002], g.isDecoded a = true := by simp [second, third]
  have reordered : ∀ a, a ∈ [(0x1002 : Address), 0x1001, 0x1002] ↔ a ∈ [(0x1001 : Address), 0x1002] := by
    simp [or_comm, or_left_comm]
  obtain ⟨h', k', hh', hk', same⟩ := splits_commute (attainable_of_explore .empty he) decoded reordered
  cases hh.symm.trans hh'
  cases hk.symm.trans hk'
  exact ⟨g, h, k, he, hh, hk, same, (BlockGraph.comes_iff_mem comes).2 (by decide),
    mt (BlockGraph.comes_iff_mem comes').1 (by decide)⟩

end ReachableCode.Explorer
