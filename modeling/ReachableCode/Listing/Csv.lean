import ReachableCode.Graph.Basic
import ReachableCode.Text.Csv

/-!
Listings as comma-separated values: one row for each instruction, block by block. The header stands
before the first row, so a graph without instructions has an empty listing.
-/

namespace ReachableCode

namespace Csv

def columns : List String :=
  ["block_address", "address", "size", "mnemonic", "operands", "bytes"]

def instructionFields (b : Block) (a : Address) (i : Instruction) : List String :=
  [b.start.text, a.text, toString i.encoding.length, i.mnemonic, i.operands, i.bytesText]

def blockRows (b : Block) : Except Fault (List (List String)) := do
  return (← b.placed).map fun (a, d) => instructionFields b a d.instruction

end Csv

/-- The listing of a graph as comma-separated values. -/
def BlockGraph.csvListing (g : BlockGraph) : Except Fault String := do
  let rows := (← g.blocks.values.mapM Csv.blockRows).flatten
  return if rows.isEmpty then "" else String.join ((Csv.columns :: rows).map Csv.row)

end ReachableCode
