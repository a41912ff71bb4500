import Mathlib
import ReachableCode.Code.Scripted
import ReachableCode.Listing.Csv
import ReachableCode.Proofs.Exploration.Steady
import ReachableCode.Proofs.Graph.Sites
import ReachableCode.Proofs.Text.Csv

/-!
The listing of a graph as comma-separated values has a row for each instruction and nothing else, whatever the
texts of the instructions hold.
-/

namespace ReachableCode

/-- The fields of the row for an instruction. -/
def Site.csvFields (i : Site) : List String :=
  Csv.instructionFields i.block i.address i.decoded.instruction

namespace BlockGraph

variable {g : BlockGraph}

theorem Consistent.csvListing_eq (hg : g.Consistent) : g.csvListing =
    .ok (if g.sites = [] then "" else String.join ((Csv.columns :: g.sites.map Site.csvFields).map Csv.row)) := by
  have rows : ∀ b ∈ g.blocks.values, Csv.blockRows b = .ok (b.sites.map Site.csvFields) := by
    intro b hb
    rw [Csv.blockRows, hg.placed_eq hb, Block.sites, List.map_map]
    rfl
  rw [csvListing, mapM_eq_ok_map rows]
  have flat : (g.blocks.values.map fun b => b.sites.map Site.csvFields).flatten = g.sites.map Site.csvFields := by
    rw [sites, List.map_flatMap, List.flatMap_def]
  simp only [bind, Except.bind, flat, List.isEmpty_iff, List.map_eq_nil_iff]
  rfl

end BlockGraph

namespace Explorer

variable {x : Explorer} {g : BlockGraph}

/-- One instruction with a label, and with texts that hold all that is special. -/
def specialTexts : Explorer where
  program :=
    { architecture := .unknown
      entryPoint := none
      sections := [(Section.ofData ".text" 0x1000 #[0x00]).withLabel "\n" 0] }
  decoder := Script.decoder <| Script.ofList
    [(0x1000, {
      size := 1
      mnemonic := "a,\"b\"\r\n"
      operands := ""
      flow := some .stop
      jumpTargets := []
      set := Bindings.ofList []
      lose := [] })]

/-- The graph has one block, and the block the one instruction. -/
theorem specialTexts_run : ∃ g b d, specialTexts.explore .empty (.address 0x1000) = .ok g ∧ g.blocks.size = 1 ∧
    g.instructionCount = 1 ∧ g.block? 0x1000 = some b ∧ b.start = 0x1000 ∧ b.predecessors.toList = [] ∧
    b.successors.toList = [] ∧ b.instructions = [d] ∧ d.instruction.encoding = [0x00] ∧
    d.instruction.mnemonic = "a,\"b\"\r\n" ∧ d.instruction.operands = "" ∧ d.instruction.bytesText = "00" := by
  have run : (do
      let g : BlockGraph ← specialTexts.explore .empty (.address 0x1000)
      let b ← Interruption.during g ((g.block? 0x1000).elim (.error (.undecodedSplit 0x1000)) .ok)
      return (g.blocks.size, g.instructionCount, b.start, b.predecessors.toList, b.successors.toList,
        b.instructions.map fun d : Decoded => (d.instruction.encoding, d.instruction.mnemonic,
          d.instruction.operands, d.instruction.bytesText))) =
        .ok (1, 1, 0x1000, [], [], [([0x00], "a,\"b\"\r\n", "", "00")]) := by
    cbv
  obtain ⟨g, he, run⟩ := bind_eq_ok.1 run
  obtain ⟨b, hb, run⟩ := bind_eq_ok.1 run
  rw [during_eq_ok, elim_eq_ok] at hb
  simp only [pure_eq_ok, Prod.mk.injEq, List.map_eq_singleton_iff] at run
  obtain ⟨one, count, start, predecessors, successors, d, code, bytes, mnemonic, operands, bytesText⟩ := run
  exact ⟨g, b, d, he, one, count, hb, start, predecessors, successors, code, bytes, mnemonic, operands, bytesText⟩

end Explorer

end ReachableCode
