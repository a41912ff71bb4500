import ReachableCode.Graph.Basic

/-!
The structural check of a block graph: each block lies in the index at its own start, the owner of
each of its instructions is the block, and the blocks hold as many instructions as there are
decoded addresses.
-/

namespace ReachableCode

/-- What is wrong with a block graph. -/
inductive Violation where
  | count (inBlocks decoded : Nat)
  | misindexed (start index : Address)
  | notSelfOwned (start : Address)
  | misowned (address start : Address) (owner : Option Address)
  deriving DecidableEq, Repr

def Violation.message : Violation → String
  | .count inBlocks decoded =>
    toString inBlocks ++ " instructions in blocks but " ++ toString decoded ++ " decoded addresses"
  | .misindexed start index =>
    "block " ++ Address.text start ++ " is indexed at " ++ Address.text index
  | .notSelfOwned start => "block start " ++ Address.text start ++ " does not own itself"
  | .misowned a start owner =>
    Address.text a ++ " lies in block " ++ Address.text start ++ " but is indexed to "
      ++ (match owner with
        | none => "None"
        | some o => "Some(" ++ toString o.toNat ++ ")")

namespace BlockGraph

/-- The first thing wrong with the block that is indexed at an address. -/
def blockViolation? (g : BlockGraph) (index : Address) (b : Block) :
    Except Fault (Option Violation) := do
  if b.start ≠ index then return some (.misindexed b.start index)
  else if !b.instructions.isEmpty ∧ g.owner? index ≠ some index then
    return some (.notSelfOwned index)
  else
    return (← b.placed).findSome? fun (a, _) =>
      if g.owner? a = some index then none else some (.misowned a index (g.owner? a))

/-- The first thing wrong with a graph: the counts, then the blocks by address. -/
def violation? (g : BlockGraph) : Except Fault (Option Violation) := do
  let inBlocks := g.blocks.toList.foldr (·.2.instructions.length + ·) 0
  if inBlocks ≠ g.decoded.size then return some (.count inBlocks g.decoded.size)
  else
    let found ← g.blocks.toList.mapM fun (index, b) => g.blockViolation? index b
    return found.findSome? id

end BlockGraph

end ReachableCode
