import ReachableCode.Graph.Basic
import ReachableCode.Memory.Program
import ReachableCode.Text.Json

/-!
Listings in JSON: one value for a whole graph, or one line for each block and each instruction. Both
hold the same facts; addresses are hexadecimal text.
-/

namespace ReachableCode

namespace Json.Value

def ofAddress (a : Address) : Value :=
  string a.text

def ofAddresses (as : List Address) : Value :=
  array (as.map ofAddress)

def ofLabels (labels : List String) : Value :=
  array (labels.map string)

def ofInstruction (a : Address) (i : Instruction) : Value :=
  object [
    ("address", ofAddress a),
    ("size", number i.encoding.length),
    ("mnemonic", string i.mnemonic),
    ("operands", string i.operands),
    ("bytes", string i.bytesText)]

def ofBlock (p : Program) (b : Block) : Except Fault Value := do
  let labels ← p.labelsAt b.start
  let placed ← b.placed
  return object [
    ("start", ofAddress b.start),
    ("labels", ofLabels labels),
    ("instructions", array (placed.map fun (a, d) => ofInstruction a d.instruction)),
    ("predecessors", ofAddresses b.predecessors.toList),
    ("successors", ofAddresses b.successors.toList)]

/-- A whole graph. A program without entry point has no field for it. -/
def ofGraph (p : Program) (g : BlockGraph) : Except Fault Value := do
  let blocks ← g.blocks.values.mapM (ofBlock p)
  return object (
    [("architecture", string p.architecture.name)]
      ++ (p.entryPoint.map fun a => ("entry_point", ofAddress a)).toList
      ++ [("blocks", array blocks)])

/-- The line of an instruction; its fields are in alphabetical order. -/
def instructionLine (b : Block) (a : Address) (i : Instruction) : Value :=
  object [
    ("address", ofAddress a),
    ("block_start", ofAddress b.start),
    ("bytes", string i.bytesText),
    ("mnemonic", string i.mnemonic),
    ("operands", string i.operands),
    ("size", number i.encoding.length),
    ("type", string "instruction")]

/-- The line of a block and the lines of its instructions; fields are in alphabetical order. -/
def blockLines (p : Program) (b : Block) : Except Fault (List Value) := do
  let labels ← p.labelsAt b.start
  let placed ← b.placed
  let block := object [
    ("labels", ofLabels labels),
    ("predecessors", ofAddresses b.predecessors.toList),
    ("start", ofAddress b.start),
    ("successors", ofAddresses b.successors.toList),
    ("type", string "block")]
  return block :: placed.map fun (a, d) => instructionLine b a d.instruction

end Json.Value

/-- The listing of a graph as one JSON value. -/
def BlockGraph.jsonListing (g : BlockGraph) (p : Program) : Except Fault String := do
  return (← Json.Value.ofGraph p g).pretty 0

/-- The listing of a graph as lines of JSON. -/
def BlockGraph.jsonLines (g : BlockGraph) (p : Program) : Except Fault String := do
  let lines ← g.blocks.values.mapM (Json.Value.blockLines p)
  return String.join (lines.flatten.map fun v => v.compact ++ "\n")

end ReachableCode
